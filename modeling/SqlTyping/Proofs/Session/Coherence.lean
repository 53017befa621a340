import SqlTyping.Proofs.Session.Outlining
import SqlTyping.Proofs.Tree.Ranks

namespace SqlTyping

/-!
# Types that fit together

The types recorded for a statement fit together when the type of each node follows from those of the nodes
directly below it:

* `Session.Coheres` — this for one node;
* `Session.Recurs` — the row sources of a recursive WITH item have the row types that go with this;
* `Session.CoherentFrom` — every node that validation gets to from a given one has a type, and all these
  types fit together;
* `Session.CoherentFrom.confined` — this is still so after other parts of the statement have been
  validated;
* `Session.CoherentFrom.record`, `Session.CoherentFrom.of_children` — it is so for a node when it is so for
  its children, and the type recorded for the node fits them.
-/

namespace Session

/-- The types of the operands from `index` on as a return rule sees them: SYMBOL for keywords, and what is
    recorded for the others. -/
inductive Shows (s : Session) (signature : Signature) : Nat → List NodeId → List DataType → Prop
  | nil {index : Nat} : Shows s signature index [] []
  | keyword {index : Nat} {operand : NodeId} {operands : List NodeId} {types : List DataType}
    (hkey : signature.isKeyword index = true) (hrest : Shows s signature (index + 1) operands types) :
    Shows s signature index (operand :: operands) (.symbol :: types)
  | recorded {index : Nat} {operand : NodeId} {operands : List NodeId} {type : DataType}
    {types : List DataType} (hkey : signature.isKeyword index = false)
    (htype : s.types.get? operand = some type)
    (hrest : Shows s signature (index + 1) operands types) :
    Shows s signature index (operand :: operands) (type :: types)

/-- The type of a node follows from the types recorded for the nodes directly below it. -/
def Coheres (s : Session) (type : DataType) : Node → Prop
  | .literal value => type = value.type
  | .call name operands => ∃ op types, s.operators.lookup? name = some op ∧
      s.Shows op.signature 0 operands types ∧ op.returns.infer types = .ok type
  | .cast operand target _ => ∃ inner, s.types.get? operand = some inner ∧
      type = .ofTarget target inner.nullable
  | .cursor _ => type = .cursor
  | .default => type = .any
  -- The columns of the expressions in a SELECT list stand in order, with those of `*` between them.
  | .select block => ∃ types,
      List.Forall₂ (fun c t => s.types.get? c = some t) (block.items.flatMap Node.itemChild) types ∧
        types.Sublist (type.fields.map (·.type))
  | .setOperation operation => ∃ left right, s.types.get? operation.left = some left ∧
      s.types.get? operation.right = some right ∧ unionRow operation.name left right = .ok type
  | .withQuery _ body => s.types.get? body = some type
  | .withItem item => ∃ body, s.types.get? item.query = some body ∧
      renamed (qualifiedName item.name) item.columns body = .ok type
  | .subqueryRef query _ => s.types.get? query = some type
  -- What a name stands for is a matter of the scope that it is looked up from.
  | .identifier _ | .tableRef .. => True

/-- The row source of a recursive WITH item has the row type of the item, and its view from inside has the
    names and the nullability of the first input of the body, unless a table there is spelled like the
    item. -/
structure Recurs (b s : Session) (id : NodeId) (item : WithItem) (operation : SetOperation)
    (row : DataType) : Prop where
  own : ∃ source e, s.sources.ofNode? id = some source ∧ s.sources.get? source = some e ∧ e.row = row
  view : ∃ source e left, s.sources.selfViewOf? id = some source ∧ s.sources.get? source = some e ∧
    s.types.get? operation.left = some left ∧
      (¬ b.tree.Spells operation.left (qualifiedName item.name) →
        e.row.outline = left.outline.renamed item.columns)

/-- A node has come to a type that fits the types below it. The query of a recursive WITH item is a set
    operation, and the row sources of the item go with the types. -/
structure Judged (b s : Session) (id : NodeId) (node : Node) (type : DataType) : Prop where
  found : s.tree.node? id = some node
  coheres : s.Coheres type node
  recurs : ∀ item, node = .withItem item → item.recursive = true → ∃ operation,
    s.tree.node? item.query = some (.setOperation operation) ∧ b.Recurs s id item operation type

/-- Moreover it is the type recorded for the node. -/
structure Coherent (b s : Session) (id : NodeId) (node : Node) (type : DataType) : Prop
    extends b.Judged s id node type where
  recorded : s.types.get? id = some type

/-- All nodes that validation gets to from `id` have types that fit together. -/
def CoherentFrom (b s : Session) (id : NodeId) : Prop :=
  ∀ x, s.tree.Below b.operators id x → ∃ node type, b.Coherent s x node type

/-- The nodes below `a` in the statement as it was written, keywords included. -/
abbrev Reach (b : Session) (a x : NodeId) : Prop := Relation.ReflTransGen b.tree.Child a x

/-- The same without `a` itself. -/
abbrev Beneath (b : Session) (a x : NodeId) : Prop := Relation.TransGen b.tree.Child a x

variable {b s s' : Session} {id x : NodeId} {node : Node} {type : DataType}

/-! ### What a node depends on -/

/-- Keywords are not looked at. -/
theorem Shows.kept {signature : Signature} {index : Nat} {operands : List NodeId} {types : List DataType}
    (h : s.Shows signature index operands types)
    (hkept : ∀ (k : Nat) (operand : NodeId), signature.isKeyword (index + k) = false →
      operands[k]? = some operand → s'.types.get? operand = s.types.get? operand) :
    s'.Shows signature index operands types := by
  induction h with
  | nil => exact .nil
  | keyword hkey _ ih =>
    refine .keyword hkey (ih fun k operand hk ho => hkept (k + 1) operand ?_ ho)
    rwa [Nat.add_assoc, Nat.add_comm 1 k] at hk
  | recorded hkey htype _ ih =>
    refine .recorded hkey ((hkept 0 _ hkey rfl).trans htype) (ih fun k operand hk ho => ?_)
    refine hkept (k + 1) operand ?_ ho
    rwa [Nat.add_assoc, Nat.add_comm 1 k] at hk

/-- What a node depends on are the types directly below it. -/
theorem Coheres.kept (h : s.Coheres type node) (hoperators : s'.operators = s.operators)
    (htypes : ∀ c ∈ node.visited s.operators, s'.types.get? c = s.types.get? c) :
    s'.Coheres type node := by
  cases node with
  | call name operands =>
    obtain ⟨op, types, hop, hshows, hinfer⟩ := h
    refine ⟨op, types, by rw [hoperators, hop], hshows.kept fun k operand hkey ho => ?_, hinfer⟩
    rw [Nat.zero_add] at hkey
    exact htypes operand (OperatorTable.mem_visitedOperands hop hkey ho)
  | cast operand target implicit =>
    obtain ⟨inner, hinner, htype⟩ := h
    exact ⟨inner, (htypes operand (by simp [Node.visited, Node.children])).trans hinner, htype⟩
  | select block =>
    obtain ⟨types, hall, hsub⟩ := h
    refine ⟨types, ?_, hsub⟩
    rw [List.forall₂_iff_get] at hall ⊢
    refine ⟨hall.1, fun i h₁ h₂ => (htypes _ ?_).trans (hall.2 i h₁ h₂)⟩
    simp only [Node.visited, Node.children, List.mem_append]
    exact .inl (.inl (List.get_mem ..))
  | setOperation operation =>
    obtain ⟨left, right, hl, hr, hunion⟩ := h
    exact ⟨left, right, (htypes _ (by simp [Node.visited, Node.children])).trans hl,
      (htypes _ (by simp [Node.visited, Node.children])).trans hr, hunion⟩
  | withQuery items body => exact (htypes _ (by simp [Node.visited, Node.children])).trans h
  | withItem item =>
    obtain ⟨body, hbody, hrenamed⟩ := h
    exact ⟨body, (htypes _ (by simp [Node.visited, Node.children])).trans hbody, hrenamed⟩
  | subqueryRef query label => exact (htypes _ (by simp [Node.visited, Node.children])).trans h
  | _ => exact h

/-- A node, its type and its row sources are as they were. -/
structure Untouched (s s' : Session) (x : NodeId) : Prop where
  node? : s'.tree.node? x = s.tree.node? x
  type : s'.types.get? x = s.types.get? x
  item : s'.sources.ofNode? x = s.sources.ofNode? x
  selfView : s'.sources.selfViewOf? x = s.sources.selfViewOf? x
  sources : ∀ source e, s.sources.get? source = some e → e.node = some x →
    s'.sources.get? source = some e

/-- A node stays coherent while what is below it is not touched. -/
theorem Coherent.kept (h : b.Coherent s id node type) (hs : b.Continues s) (hs' : b.Continues s')
    (howned : s.sources.Owned)
    (hkept : ∀ x, s.tree.Below b.operators id x → s.Untouched s' x) : b.Coherent s' id node type := by
  have hvisits : ∀ c ∈ node.visited b.operators, s.tree.Visits b.operators id c :=
    fun c hc => ⟨node, h.found, hc⟩
  have hid := hkept id .refl
  refine ⟨⟨hid.node?.trans h.found, ?_, ?_⟩, hid.type.trans h.recorded⟩
  · refine h.coheres.kept (hs'.operators.trans hs.operators.symm) fun c hc => ?_
    exact (hkept c (.single (hvisits c (hs.operators ▸ hc)))).type
  · rintro item rfl hrec
    obtain ⟨operation, hop, ⟨source, e, hsource, he, hrow⟩, source', e', left, hsource', he', hl,
      houtline⟩ := h.recurs item rfl hrec
    have hquery : s.tree.Visits b.operators id item.query :=
      hvisits _ (by simp [Node.visited, Node.children])
    have hleft : s.tree.Visits b.operators item.query operation.left :=
      ⟨_, hop, by simp [Node.visited, Node.children]⟩
    obtain ⟨_, hget, hn⟩ := howned.item id source hsource
    obtain rfl := Option.some.inj (he.symm.trans hget)
    obtain ⟨_, hget', hn'⟩ := howned.selfView id source' hsource'
    obtain rfl := Option.some.inj (he'.symm.trans hget')
    refine ⟨operation, (hkept _ (.single hquery)).node?.trans hop, ⟨source, _, hid.item.trans hsource,
      hid.sources source _ he hn, hrow⟩, source', _, left, hid.selfView.trans hsource',
      hid.sources source' _ he' hn', ?_, houtline⟩
    exact (hkept _ (.tail (.single hquery) hleft)).type.trans hl

/-- So do all nodes below a given one. -/
theorem CoherentFrom.kept (h : b.CoherentFrom s id) (hs : b.Continues s) (hs' : b.Continues s')
    (howned : s.sources.Owned) (hkept : ∀ x, s.tree.Below b.operators id x → s.Untouched s' x) :
    b.CoherentFrom s' id := by
  have hbelow : ∀ x, s'.tree.Below b.operators id x → s.tree.Below b.operators id x := by
    intro x hx
    induction hx with
    | refl => exact .refl
    | tail _ hc ih =>
      obtain ⟨node, hn, hmem⟩ := hc
      rw [(hkept _ ih).node?] at hn
      exact ih.tail ⟨node, hn, hmem⟩
  intro x hx
  obtain ⟨node, type, hcoherent⟩ := h x (hbelow x hx)
  exact ⟨node, type, hcoherent.kept hs hs' howned fun y hy => hkept y ((hbelow x hx).trans hy)⟩

/-! ### Other parts -/

section

variable {a y : NodeId} {retyped rewritten : NodeId → Prop}

/-- What is below a node that wraps an original one wraps something below that. -/
theorem Continues.exists_wraps (hs : b.Continues s) (hclosed : b.tree.NoDangling)
    (ha : a.index < b.tree.size) (hw : Tree.Wraps b.tree s.tree a id)
    (hx : s.tree.Below b.operators id x) :
    ∃ c, b.Reach a c ∧ c.index < b.tree.size ∧ Tree.Wraps b.tree s.tree c x := by
  induction hx with
  | refl => exact ⟨a, .refl, ha, hw⟩
  | tail _ hc ih =>
    obtain ⟨c, hac, hsize, hwc⟩ := ih
    rcases hwc.child hs.rewrites.rewritten hsize hc.child with hwy | ⟨d, ⟨node, hn, hmem⟩, hwd⟩
    · exact ⟨c, hac, hsize, hwy⟩
    · exact ⟨d, hac.tail ⟨node, hn, hmem⟩, Tree.isSome_node?_iff.mp (hclosed c node hn d hmem), hwd⟩

/-- A validation that is confined to other nodes does not touch what wraps a node. -/
theorem Confined.untouched (hc : b.Confined retyped rewritten s s') (ha : a.index < b.tree.size)
    (hw : Tree.Wraps b.tree s.tree a x) (hretyped : ¬ retyped a) (hrewritten : ¬ rewritten a)
    (hlt : ∀ c, retyped c → c.index < b.tree.size) : s.Untouched s' x := by
  have hnot : ¬ retyped x := by
    cases hw with
    | self => exact hretyped
    | cast hnew => exact fun hr => Nat.not_lt.mpr hnew (hlt _ hr)
  refine ⟨?_, hc.types a x ha hretyped hw, hc.item x hnot, hc.selfView x hnot, fun source e he hn => ?_⟩
  · cases hw with
    | self => exact hc.node? _ ha hrewritten
    | cast hnew hcast => exact hc.added.node? x hnew (Tree.lt_size_of_node? hcast)
  · refine hc.sources source e he fun node hnode => ?_
    obtain rfl := Option.some.inj (hn.symm.trans hnode)
    exact hnot

/-- Types that fit together still do after other parts have been validated. -/
theorem CoherentFrom.confined (h : b.CoherentFrom s id) (hs : b.Continues s) (howned : s.sources.Owned)
    (hclosed : b.tree.NoDangling) (ha : a.index < b.tree.size) (hw : Tree.Wraps b.tree s.tree a id)
    (hc : b.Confined retyped rewritten s s') (hlt : ∀ c, retyped c → c.index < b.tree.size)
    (hapart : ∀ c, b.Reach a c → ¬ retyped c ∧ ¬ rewritten c) : b.CoherentFrom s' id := by
  refine h.kept hs hc.continues howned fun x hx => ?_
  obtain ⟨c, hac, hsize, hwc⟩ := hs.exists_wraps hclosed ha hw hx
  exact hc.untouched hsize hwc (hapart c hac).1 (hapart c hac).2 hlt

end

/-! ### A node and its children -/

/-- All nodes from a node on are coherent when it is, and those from its children on are. -/
theorem CoherentFrom.of_children (h : b.Coherent s id node type)
    (hchildren : ∀ c ∈ node.visited b.operators, b.CoherentFrom s c) : b.CoherentFrom s id := by
  intro x hx
  rcases Relation.ReflTransGen.cases_head hx with rfl | ⟨c, ⟨n, hn, hc⟩, hcx⟩
  · exact ⟨node, type, h⟩
  · obtain rfl := Option.some.inj (h.found.symm.trans hn)
    exact hchildren c hc x hcx

/-- Recording a type changes nothing else. -/
theorem Continues.record (hs : b.Continues s) {y : NodeId} (hy : y.index < s.tree.size) (type : DataType) :
    b.Continues { s with types := s.types.put y type } := by
  refine ⟨⟨hs.rewrites.1, hs.rewrites.2⟩, hs.operators, hs.engine, hs.settings, fun x hx => ?_⟩
  rw [OrderedMap.get?_put] at hx
  split at hx
  · rename_i heq
    exact heq ▸ hy
  · exact hs.recorded x hx

/-- Recording the type of a node is of no concern to nodes that it is not below. -/
theorem CoherentFrom.record (h : b.CoherentFrom s id) (hs : b.Continues s) (howned : s.sources.Owned)
    {y : NodeId} (hy : y.index < s.tree.size) (hnot : ¬ s.tree.Below b.operators id y) (type : DataType) :
    b.CoherentFrom { s with types := s.types.put y type } id := by
  refine h.kept hs (hs.record hy type) howned fun x hx => ⟨rfl, ?_, rfl, rfl, fun _ _ he _ => he⟩
  have hne : x ≠ y := by
    rintro rfl
    exact hnot hx
  exact (OrderedMap.get?_put _ _ _ _).trans (if_neg hne)

/-- A node does not lie below its children. -/
theorem Continues.not_below_child (hs : b.Continues s) (hforest : b.tree.IsForest) {a c : NodeId}
    (ha : a.index < b.tree.size) (hw : Tree.Wraps b.tree s.tree a id) (hc : s.tree.Child id c) :
    ¬ s.tree.Below b.operators c id := fun hb =>
  not_transGen_of_acc (hforest.closed.isClosed.acc_child hs.rewrites.rewritten
    (fun a _ => hforest.acyclic a) ha hw)
    (Relation.TransGen.head' hc hb.child)

/-- The type that a node has come to is recorded. -/
theorem Judged.record (h : b.Judged s id node type) (hs : b.Continues s) (howned : s.sources.Owned)
    (hchildren : ∀ c ∈ node.visited b.operators, b.CoherentFrom s c)
    (hnot : ∀ c ∈ node.visited b.operators, ¬ s.tree.Below b.operators c id) :
    b.CoherentFrom { s with types := s.types.put id type } id := by
  have hsize := Tree.lt_size_of_node? h.found
  have hne : ∀ x c, c ∈ node.visited b.operators → s.tree.Below b.operators c x → x ≠ id := by
    rintro x c hc hx rfl
    exact hnot c hc hx
  refine .of_children ⟨⟨h.found, h.coheres.kept rfl fun c hc => ?_, ?_⟩, ?_⟩ fun c hc =>
    (hchildren c hc).record hs howned hsize (hnot c hc) type
  · exact (OrderedMap.get?_put _ _ _ _).trans (if_neg (hne c c (hs.operators ▸ hc) .refl))
  · rintro item rfl hrec
    obtain ⟨operation, hop, hown, source, e, left, hsource, he, hl, houtline⟩ := h.recurs item rfl hrec
    refine ⟨operation, hop, hown, source, e, left, hsource, he, ?_, houtline⟩
    have hleft : s.tree.Visits b.operators item.query operation.left :=
      ⟨_, hop, by simp [Node.visited, Node.children]⟩
    exact (OrderedMap.get?_put _ _ _ _).trans ((if_neg (hne _ item.query
      (by simp [Node.visited, Node.children]) (.single hleft))).trans hl)
  · exact (OrderedMap.get?_put _ _ _ _).trans (if_pos rfl)

/-! ### Moments of a validation -/

/-- A validation that began with `b` has come to `s`, and goes on from a scope with the given outlook in
    which nothing belongs to the nodes `own`. -/
structure Poised (b : Session) (own : NodeId → Prop) (s : Session) (scope : ScopeId) (view : Outlook) :
    Prop where
  continues : b.Continues s
  owned : s.sources.Owned
  overlooks : s.Overlooks own scope view

/-- It goes on from there also after such nodes have been validated. -/
theorem Poised.confined {own own' retyped rewritten : NodeId → Prop} {scope : ScopeId} {view : Outlook}
    (h : b.Poised own s scope view) (hc : b.Confined retyped rewritten s s')
    (hretyped : ∀ x, retyped x → own x) (hown : ∀ x, own' x → own x) : b.Poised own' s' scope view :=
  ⟨hc.continues, hc.owned, h.overlooks.confined hc hretyped hown⟩

theorem Poised.mono {own own' : NodeId → Prop} {scope : ScopeId} {view : Outlook}
    (h : b.Poised own s scope view) (hown : ∀ x, own' x → own x) : b.Poised own' s scope view := by
  have hc : b.Confined (fun _ => False) (fun _ => False) s s := .refl h.continues h.owned
  exact h.confined hc (fun _ hx => hx.elim) hown

end Session

/-- The parts of a statement are validated so that, with a result, the types below them fit together and
    are as nullable as the text says. Whatever the outcome, nothing else is touched, and an expression that is
    refused has not got a type. -/
structure Visit.Coheres (b : Session) (v : Visit) : Prop where
  confinedQuery : ∀ {scope view a s}, b.Poised (b.Reach a) s scope view → a.index < b.tree.size →
    b.Confined (b.Reach a) (b.Reach a) s (v.query scope a s).2
  query : ∀ {scope view a s row s'}, b.Poised (b.Reach a) s scope view → a.index < b.tree.size →
    v.query scope a s = (.ok row, s') →
      b.CoherentFrom s' a ∧ s'.types.get? a = some row ∧ b.Outlines view a row.outline
  /-- The first input of a set operation is as nullable as the text says. -/
  input : ∀ {scope view a s row s' operation}, b.Poised (b.Reach a) s scope view →
    a.index < b.tree.size → b.tree.node? a = some (.setOperation operation) →
      v.query scope a s = (.ok row, s') → ∃ left, s'.types.get? operation.left = some left ∧
        b.Outlines view operation.left left.outline
  confinedExpression : ∀ {scope view a id s}, b.Poised (b.Reach a) s scope view →
    a.index < b.tree.size → Tree.Wraps b.tree s.tree a id →
      b.Confined (b.Reach a) (b.Reach a) s (v.expression scope id s).2
  expression : ∀ {scope view a id s type s'}, b.Poised (b.Reach a) s scope view →
    a.index < b.tree.size → Tree.Wraps b.tree s.tree a id → v.expression scope id s = (.ok type, s') →
      b.CoherentFrom s' id ∧ s'.types.get? id = some type ∧ b.MayBeNull view a type.nullable
  refused : ∀ {scope view a id s e s'}, b.Poised (b.Reach a) s scope view → a.index < b.tree.size →
    Tree.Wraps b.tree s.tree a id → v.expression scope id s = (.error e, s') →
      s'.types.get? id = s.types.get? id
  placeholder : ∀ {scope id s}, b.Continues s → s.sources.Owned → b.tree.size ≤ id.index →
    s.tree.node? id = some .default →
      b.Confined (fun _ => False) (fun _ => False) s (v.expression scope id s).2

end SqlTyping
