import SqlTyping.Proofs.Session.Guarding
import SqlTyping.Proofs.Session.Naming
import SqlTyping.Proofs.Session.Retyping

namespace SqlTyping

/-!
# Validation keeps to its part

Whatever validating a part of a statement comes to, and whatever engine and operators are in use, what
belongs to other parts is as before:

* `Session.Confined` — from one moment to a later one only given nodes have got types or row sources, and
  only given nodes other operands; the scopes that were there are untouched;
* `Session.Confined.upholds` — this survives every step of a validation;
* `confined_query`, `confined_expression` — so validating a part is confined to what lies below it.
-/

/-- From `s` to `s'` types are found and row sources registered only for nodes `retyped`, only the nodes
    `rewritten` get other operands, and the scopes that are there stay as they are. -/
structure Session.Confined (b : Session) (retyped rewritten : NodeId → Prop) (s s' : Session) : Prop
    extends b.Within retyped rewritten s s' where
  scopes : s.scopes.Extends s'.scopes
  nested : s.scopes.Nested → s'.scopes.Nested
  sources : ∀ id e, s.sources.get? id = some e → (∀ node, e.node = some node → ¬ retyped node) →
    s'.sources.get? id = some e
  item : ∀ node, ¬ retyped node → s'.sources.ofNode? node = s.sources.ofNode? node
  selfView : ∀ node, ¬ retyped node → s'.sources.selfViewOf? node = s.sources.selfViewOf? node
  owned : s'.sources.Owned

namespace Session.Confined

variable {b s s' s'' : Session} {retyped rewritten retyped' rewritten' P : NodeId → Prop}

theorem refl (hs : b.Continues s) (howned : s.sources.Owned) : b.Confined retyped rewritten s s where
  toWithin := .refl hs
  scopes := .refl _
  nested hn := hn
  sources _ _ he _ := he
  item _ _ := rfl
  selfView _ _ := rfl
  owned := howned

theorem trans (h : b.Confined retyped rewritten s s') (h' : b.Confined retyped rewritten s' s'') :
    b.Confined retyped rewritten s s'' where
  toWithin := h.toWithin.trans h'.toWithin
  scopes := h.scopes.trans h'.scopes
  nested hn := h'.nested (h.nested hn)
  sources id e he hnot := h'.sources id e (h.sources id e he hnot) hnot
  item node hn := (h'.item node hn).trans (h.item node hn)
  selfView node hn := (h'.selfView node hn).trans (h.selfView node hn)
  owned := h'.owned

theorem mono (h : b.Confined retyped rewritten s s') (ht : ∀ id, retyped id → retyped' id)
    (hr : ∀ id, rewritten id → rewritten' id) : b.Confined retyped' rewritten' s s' where
  toWithin := h.toWithin.mono ht hr
  scopes := h.scopes
  nested := h.nested
  sources id e he hnot := h.sources id e he fun node hn hid => hnot node hn (ht node hid)
  item node hn := h.item node fun hid => hn (ht node hid)
  selfView node hn := h.selfView node fun hid => hn (ht node hid)
  owned := h.owned

/-- The tables of the catalog stay as they are. -/
theorem table (h : b.Confined retyped rewritten s s') {id : SourceId} {e : RowSource}
    (he : s.sources.get? id = some e) (hnode : e.node = none) : s'.sources.get? id = some e :=
  h.sources id e he fun node hn => by
    rw [hnode] at hn
    cases hn

/-! ### Steps -/

/-- Only the tree has changed. -/
theorem of_within (h : b.Within retyped rewritten s s') (howned : s.sources.Owned)
    (hscopes : s'.scopes = s.scopes) (hsources : s'.sources = s.sources) :
    b.Confined retyped rewritten s s' := by
  refine ⟨h, ?_, fun hn => ?_, fun id e he _ => ?_, fun node _ => ?_, fun node _ => ?_, ?_⟩
  · rw [hscopes]
    exact .refl _
  · rw [hscopes]
    exact hn
  · rw [hsources]
    exact he
  · rw [hsources]
  · rw [hsources]
  · rw [hsources]
    exact howned

/-- Neither the tree nor types have changed. -/
theorem of_same (hs : b.Continues s) (hsettings : s'.settings = s.settings) (htree : s'.tree = s.tree)
    (hoperators : s'.operators = s.operators) (hengine : s'.engine = s.engine)
    (htypes : s'.types = s.types) (hscopes : s.scopes.Extends s'.scopes)
    (hnested : s.scopes.Nested → s'.scopes.Nested)
    (hsources : ∀ id e, s.sources.get? id = some e → (∀ node, e.node = some node → ¬ retyped node) →
      s'.sources.get? id = some e)
    (hitem : ∀ node, ¬ retyped node → s'.sources.ofNode? node = s.sources.ofNode? node)
    (hview : ∀ node, ¬ retyped node → s'.sources.selfViewOf? node = s.sources.selfViewOf? node)
    (howned : s'.sources.Owned) : b.Confined retyped rewritten s s' where
  continues := {
    rewrites := ⟨htree ▸ hs.rewrites.rewritten, htree ▸ hs.rewrites.closed⟩
    operators := hoperators.trans hs.operators
    engine := hengine.trans hs.engine
    settings := hsettings.trans hs.settings
    recorded := by
      rw [htypes, htree]
      exact hs.recorded }
  added := htree ▸ .refl _ _
  node? _ _ _ := by rw [htree]
  types _ _ _ _ _ := by rw [htypes]
  scopes := hscopes
  nested := hnested
  sources := hsources
  item := hitem
  selfView := hview
  owned := howned

/-- A type is recorded for a node, or for a cast around it. -/
theorem record (hs : b.Continues s) (howned : s.sources.Owned) {id : NodeId} (type : DataType)
    (hsize : id.index < s.tree.size)
    (hid : ∀ a, a.index < b.tree.size → Tree.Wraps b.tree s.tree a id → retyped a) :
    b.Confined retyped rewritten s { s with types := s.types.put id type } := by
  have hwithin : b.Within retyped rewritten s { s with types := s.types.put id type } := by
    refine ⟨⟨⟨hs.rewrites.1, hs.rewrites.2⟩, hs.operators, hs.engine, hs.settings, fun x hx => ?_⟩,
      .refl _ _, fun _ _ _ => rfl, fun a x ha hnot hw => ?_⟩
    · rw [OrderedMap.get?_put] at hx
      split at hx
      · rename_i heq
        exact heq ▸ hsize
      · exact hs.recorded x hx
    · have hne : x ≠ id := by
        rintro rfl
        exact hnot (hid a ha hw)
      rw [OrderedMap.get?_put, if_neg hne]
  exact .of_within hwithin howned rfl rfl

/-- The sources are changed for a node `retyped`. -/
theorem of_sources (hs : b.Continues s) {sources : RowSources}
    (hsources : ∀ id e, s.sources.get? id = some e → (∀ node, e.node = some node → ¬ retyped node) →
      sources.get? id = some e)
    (hitem : ∀ node, ¬ retyped node → sources.ofNode? node = s.sources.ofNode? node)
    (hview : ∀ node, ¬ retyped node → sources.selfViewOf? node = s.sources.selfViewOf? node)
    (howned : sources.Owned) : b.Confined retyped rewritten s { s with sources } :=
  .of_same hs rfl rfl rfl rfl rfl (.refl _) id hsources hitem hview howned

theorem register (hs : b.Continues s) (howned : s.sources.Owned) {node : NodeId} (hnode : retyped node)
    (kind : SourceKind) (enclosing : Option NodeId) : b.Confined retyped rewritten s
      { s with sources := (s.sources.register node kind enclosing).2 } := by
  refine .of_sources hs (fun id e he _ => RowSources.Grows.get?_push_of_some he _) (fun other ho => ?_)
    (fun _ _ => rfl) (howned.register node kind enclosing)
  have hne : other ≠ node := by
    rintro rfl
    exact ho hnode
  exact (RowSources.ofNode?_register ..).trans (if_neg hne)

theorem selfViewed (hs : b.Continues s) (howned : s.sources.Owned) {node : NodeId} (hnode : retyped node)
    {id : SourceId} {sources : RowSources} (hview : s.sources.selfView node = .ok (id, sources)) :
    b.Confined retyped rewritten s { s with sources } := by
  have howned' := howned.of_selfView hview
  rcases RowSources.selfView_eq_ok hview with ⟨-, rfl⟩ | ⟨own, -, -, rfl, rfl⟩
  · exact .refl hs howned
  · refine .of_sources hs (fun id e he _ => RowSources.Grows.get?_push_of_some he _)
      (fun _ _ => rfl) (fun other ho => ?_) howned'
    have hne : other ≠ node := by
      rintro rfl
      exact ho hnode
    exact (RowSources.selfViewOf?_addView ..).trans (if_neg hne)

theorem setRow (hs : b.Continues s) (howned : s.sources.Owned) {node : NodeId} (hnode : retyped node)
    {id : SourceId} {e : RowSource} (he : s.sources.get? id = some e) (henode : e.node = some node)
    {row : DataType} {sources : RowSources} (hset : s.sources.setRow id row = .ok sources) :
    b.Confined retyped rewritten s { s with sources } := by
  have howned' := howned.of_setRow hset
  refine .of_sources hs (fun other e' he' hnot => ?_) (fun _ _ => RowSources.ofNode?_of_setRow hset _)
    (fun _ _ => RowSources.selfViewOf?_of_setRow hset _) howned'
  have hne : other ≠ id := by
    rintro rfl
    obtain rfl := Option.some.inj (he.symm.trans he')
    exact hnot node henode hnode
  rw [RowSources.get?_setRow hset other, if_neg hne]
  exact he'

/-! ### Validation -/

/-- Being confined to nodes that are closed under children survives every step of a validation. -/
theorem upholds (hclosed : b.tree.NoDangling) (hlt : ∀ a, P a → a.index < b.tree.size)
    (hchild : ∀ a c, P a → b.tree.Child a c → P c) :
    Session.Upholds b.tree (fun _ => P) s.scopes.size (b.Confined P P s) where
  closed := hclosed
  lt_size hp := hlt _ hp
  child hp hc := hchild _ _ hp hc
  below hp hc := hchild _ _ hp hc
  base_le h := h.scopes.size_le
  view h hid := h.owned.selfView _ _ hid
  record type h hsize hid := h.trans (.record h.continues h.owned type hsize fun a ha hw =>
    (hid a ha hw).elim fun _ hp => hp)
  newScope h _ hnew := h.trans (.of_same h.continues rfl rfl rfl rfl rfl (.newScope hnew)
    (·.newScope hnew) (fun _ _ he _ => he) (fun _ _ => rfl) (fun _ _ => rfl) h.owned)
  addBinding := by
    intro t scope binding scopes h hbase _ hadd
    refine ⟨⟨⟨⟨h.continues.rewrites.1, h.continues.rewrites.2⟩, h.continues.operators,
      h.continues.engine, h.continues.settings, h.continues.recorded⟩, h.added, h.node?, h.types⟩,
      fun id known hknown => ?_, fun hn => (h.nested hn).addBinding hadd, h.sources, h.item,
      h.selfView, h.owned⟩
    -- The scope was added since.
    have hne : id ≠ scope := by
      rintro rfl
      have := (Array.getElem?_eq_some_iff.mp hknown).1
      have : s.scopes.scopes.size ≤ id.index := hbase
      omega
    rw [ScopeTree.get?_addBinding hadd, if_neg hne]
    exact h.scopes id known hknown
  register kind enclosing h hp := h.trans (.register h.continues h.owned hp kind enclosing)
  selfView h hp _ hview := h.trans (.selfViewed h.continues h.owned hp hview)
  setRow h hp he hnode hset := h.trans (.setRow h.continues h.owned hp he hnode hset)
  selfReference _ h := h.trans (.of_same h.continues rfl rfl rfl rfl rfl (.refl _) id
    (fun _ _ he _ => he) (fun _ _ => rfl) (fun _ _ => rfl) h.owned)
  tree := by
    intro t depth call tree h hp hrewrites hcast
    refine h.trans (.of_within ?_ h.owned rfl rfl)
    refine ⟨⟨hrewrites, h.continues.operators, h.continues.engine, h.continues.settings, fun id hid =>
      Nat.lt_of_lt_of_le (h.continues.recorded id hid) hcast.keeps.size_le⟩, hcast.keeps,
      fun a ha hnot => hcast.node? a ha ?_, fun _ _ _ _ _ => rfl⟩
    rintro rfl
    exact hnot hp
  requests _ h := h.trans (.of_same h.continues rfl rfl rfl rfl rfl (.refl _) id
    (fun _ _ he _ => he) (fun _ _ => rfl) (fun _ _ => rfl) h.owned)

end Session.Confined

section

variable {b s : Session} {P : NodeId → Prop} {depth : Nat} {scope : ScopeId} {a id : NodeId}
  (hclosed : b.tree.NoDangling) (hlt : ∀ a, P a → a.index < b.tree.size)
  (hchild : ∀ a c, P a → b.tree.Child a c → P c) (hs : b.Continues s) (howned : s.sources.Owned)

include hclosed hlt hchild

/-- Whichever engine and operators are in use, and whatever the outcome. -/
theorem visitAt_confined (depth : Nat) : (visitAt depth).Guarded b.tree (fun _ => P) (b.Confined P P s)
    (fun _ => True) depth :=
  visitAt_guarded (Session.Confined.upholds hclosed hlt hchild) Session.allows_all depth

include hs howned

/-- Validating a query is confined to what lies below it. -/
theorem confined_query (ha : P a) (hscope : scope.index < s.scopes.size) :
    b.Confined P P s ((visitAt depth).query scope a s).2 :=
  ((visitAt_confined hclosed hlt hchild depth).query
    ⟨.refl hs.rewrites, .refl hs howned⟩ ha hscope).rel.2

/-- So is validating an expression, with the casts that are around it. -/
theorem confined_expression (ha : P a) (hw : Tree.Wraps b.tree s.tree a id)
    (hscope : scope.index < s.scopes.size) :
    b.Confined P P s ((visitAt depth).expression scope id s).2 :=
  ((visitAt_confined hclosed hlt hchild depth).expression
    ⟨.refl hs.rewrites, .refl hs howned⟩ (.inl ⟨a, ha, hw⟩) hscope).rel.2

end

end SqlTyping
