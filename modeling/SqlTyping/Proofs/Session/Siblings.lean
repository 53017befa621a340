import SqlTyping.Proofs.Session.Appending
import SqlTyping.Proofs.Session.Linking
import SqlTyping.Proofs.Session.Views

namespace SqlTyping

/-!
# Parts side by side

Two expressions with no node in common, as the operands of a call, are validated one after the other from
the same scope. As long as none of them has a recursive WITH item, and the scope shows no item of them,
the second one comes to what it comes to alone:

* `Session.Reached.isRecursive` — only recursive items are ever seen from inside their bodies;
* `Session.ClearOf` — a scope from which nothing is seen that changes when a part is validated, and
  `Session.ClearOf.beside` — from there, what has been validated is beside what follows;
* `Session.Faces` — a part without recursive items, and a scope that shows nothing of it;
* `Session.Faces.exists_view` — what can be seen from there does not change with the part;
* `Session.Past` — some of the part has been validated;
* `Session.Past.answer_eq` — what follows comes to the same as without it.
-/

/-! ### Views from inside -/

/-- Items that are seen from inside their bodies are recursive items of the tree. -/
def Session.ViewsRecursive (t : Tree) (s : Session) : Prop :=
  ∀ item id, s.sources.selfViewOf? item = some id → t.IsRecursive item

/-- A view from inside is made for recursive items only. -/
theorem Session.ViewsRecursive.upholds {t₀ : Tree} (hclosed : t₀.NoDangling) :
    Session.Upholds t₀ (fun _ => t₀.Has) 0 fun s => s.sources.Owned ∧ s.ViewsRecursive t₀ where
  closed := hclosed
  lt_size hp := hp
  child hp hc := hclosed.isClosed.child _ _ hp hc
  below hp hc := hclosed.isClosed.child _ _ hp hc
  base_le _ := Nat.zero_le _
  view h hid := h.1.selfView _ _ hid
  record _ h _ _ := h
  newScope h _ _ := h
  addBinding h _ _ _ := h
  register kind enclosing h _ := ⟨h.1.register _ kind enclosing, h.2⟩
  selfView := by
    intro s depth item view sources h _ hrecursive hview
    refine ⟨h.1.of_selfView hview, fun other id hid => ?_⟩
    rcases RowSources.selfView_eq_ok hview with ⟨-, rfl⟩ | ⟨own, -, -, rfl, rfl⟩
    · exact h.2 other id hid
    · rw [RowSources.selfViewOf?_addView] at hid
      split at hid
      · rename_i heq
        exact heq ▸ hrecursive
      · exact h.2 other id hid
  setRow h _ _ _ hset := by
    refine ⟨h.1.of_setRow hset, fun other id hid => h.2 other id ?_⟩
    rwa [RowSources.selfViewOf?_of_setRow hset] at hid
  selfReference _ h := h
  tree h _ _ _ := h
  requests _ h := h

/-- Whatever has been asked for, only recursive items are seen from inside their bodies. -/
theorem Session.Reached.isRecursive {settings : Settings} {tree : Tree} {operators : OperatorTable}
    {engine : CoercionEngine} {s : Session}
    (h : Session.Reached { settings, tree, operators, engine } s) (hclosed : tree.NoDangling) :
    s.ViewsRecursive s.tree := by
  induction h with
  | start => exact nofun
  | @request s r hreached hr ih =>
    have hs := hreached.grounded hclosed
    have hupholds := Session.ViewsRecursive.upholds hs.closed
    rcases hs.perform_upholds hupholds ⟨hs.owned, ih⟩ hr with ⟨names, row, id, hadd⟩ | hviews
    · obtain ⟨scopes, -, heq⟩ := Session.addTable_eq_ok hadd
      rw [heq]
      exact ih
    -- WITH items are never rewritten.
    · rcases hs.perform_cases hr with ⟨names, row, id, hadd⟩ | hconfined
      · obtain ⟨scopes, -, heq⟩ := Session.addTable_eq_ok hadd
        rw [heq]
        exact ih
      · intro item id hid
        obtain ⟨w, hw, hrecursive⟩ := hviews.2 item id hid
        exact ⟨w, hconfined.continues.rewrites.rewritten.other item _ hw rfl, hrecursive⟩

/-! ### A scope that is clear of a part -/

theorem ScopeTree.self_mem_chain (t : ScopeTree) (id : ScopeId) : id ∈ t.chain id := by
  obtain ⟨rest, hrest⟩ := List.head?_eq_some_iff.mp (t.head?_chain id)
  rw [hrest]
  exact List.mem_cons_self ..

/-- The scope around a scope of a chain belongs to it. -/
theorem ScopeTree.Nested.parent_mem_chain {t : ScopeTree} (hn : t.Nested) {start id parent : ScopeId}
    {scope : Scope} (hstart : start.index < t.size) (hmem : id ∈ t.chain start)
    (h : t.get? id = some scope) (hparent : scope.parent = some parent) : parent ∈ t.chain start := by
  obtain ⟨first, hfirst⟩ : ∃ first, t.get? start = some first := ⟨_, Array.getElem?_eq_getElem hstart⟩
  induction hd : first.depth generalizing start first with
  | zero =>
    cases hp : first.parent with
    | none =>
      rw [chain_of_root hfirst hp] at hmem
      obtain rfl := List.mem_singleton.mp hmem
      obtain rfl := Option.some.inj (hfirst.symm.trans h)
      cases hp.symm.trans hparent
    | some around =>
      obtain ⟨found, -, hdepth⟩ := hn start first around hfirst hp
      omega
  | succ depth ih =>
    cases hp : first.parent with
    | none =>
      rw [chain_of_root hfirst hp] at hmem
      obtain rfl := List.mem_singleton.mp hmem
      obtain rfl := Option.some.inj (hfirst.symm.trans h)
      cases hp.symm.trans hparent
    | some around =>
      obtain ⟨found, hfound, hdepth⟩ := hn start first around hfirst hp
      have hlt := lt_size_of_get? hfound
      rw [hn.chain hfirst hp] at hmem ⊢
      rcases List.mem_cons.mp hmem with rfl | hmem
      · obtain rfl := Option.some.inj (hfirst.symm.trans h)
        obtain rfl := Option.some.inj (hp.symm.trans hparent)
        exact List.mem_cons_of_mem _ (t.self_mem_chain around)
      · exact List.mem_cons_of_mem _ (ih hlt hmem found hfound (by omega))

/-- Nothing that can be seen from the scope changes when the part is validated: no item of the part is
    shown there, and no name is bound to what such an item is inside its body. -/
structure Session.ClearOf (s : Session) (scope : ScopeId) (own : NodeId → Prop) : Prop where
  grounded : s.Grounded
  linked : s.Linked
  lt_size : scope.index < s.scopes.size
  shown : ∀ id ∈ s.scopes.chain scope, ∀ around, s.scopes.get? id = some around →
    around.role.ShowsOnly fun item => ¬ own item
  bound : ∀ id ∈ s.scopes.chain scope, ∀ around, s.scopes.get? id = some around →
    ∀ b ∈ around.bindings, ∀ item, own item → s.sources.selfViewOf? item ≠ some b.source

/-- What has been validated of the part is beside the rest, if the sources that can be seen are as they
    were. -/
theorem Session.ClearOf.beside {s t : Session} {scope : ScopeId} {all own other : NodeId → Prop}
    (h : s.ClearOf scope all) (hown : s.tree.IsClosed own) (hapart : ∀ id, own id → ¬ other id)
    (hsub : ∀ id, other id → all id) (hconfined : s.Confined other other s t)
    (hgrows : s.sources.Grows t.sources)
    (hkept : ∀ id ∈ s.scopes.chain scope, ∀ around, s.scopes.get? id = some around →
      ∀ b ∈ around.bindings, ∀ e, s.sources.get? b.source = some e →
        t.sources.get? b.source = some e) :
    s.Beside t (· ∈ s.scopes.chain scope) own other where
  grounded := h.grounded
  isClosed := hown
  apart := hapart
  confined := hconfined
  grows := hgrows
  there id hmem := by
    obtain ⟨around, haround⟩ := h.grounded.nested.exists_of_mem_chain
      (Array.getElem?_eq_getElem h.lt_size) hmem
    exact ScopeTree.lt_size_of_get? haround
  parent id scope parent hmem hscope hparent :=
    h.grounded.nested.parent_mem_chain h.lt_size hmem hscope hparent
  rooted id scope _ hscope hparent := h.linked.rooted id scope hscope hparent
  shown id scope hmem hscope := (h.shown id hmem scope hscope).imp fun _ hnot ho =>
    hnot (hsub _ ho)
  bound id scope b hmem hscope hb := by
    obtain ⟨e, he⟩ := h.linked.bound id scope b hscope hb
    exact ⟨e, he, hkept id hmem scope hscope b hb e he⟩

/-! ### A scope that faces a part -/

/-- The part has no recursive item that has been validated, and the scope, from which it is to be
    validated, shows no item of it. -/
structure Session.Faces (s : Session) (scope : ScopeId) (own : NodeId → Prop) : Prop where
  grounded : s.Grounded
  linked : s.Linked
  isClosed : s.tree.IsClosed own
  lt_size : scope.index < s.scopes.size
  hidden : ∀ id ∈ s.scopes.chain scope, ∀ around, s.scopes.get? id = some around →
    around.role.ShowsOnly fun item => ¬ own item
  unseen : ∀ item, own item → s.sources.selfViewOf? item = none

namespace Session.Faces

variable {s : Session} {scope : ScopeId} {own own' : NodeId → Prop}

/-- A scope that faces a part is clear of it, as no item of the part is seen from inside. -/
theorem clearOf (h : s.Faces scope own) : s.ClearOf scope own := by
  refine ⟨h.grounded, h.linked, h.lt_size, h.hidden, fun _ _ _ _ _ _ item hitem => ?_⟩
  rw [h.unseen item hitem]
  exact nofun

/-- Every binding of a scope shows a table. -/
theorem exists_shown (h : s.Faces scope own) {id : ScopeId} {around : Scope}
    (haround : s.scopes.get? id = some around) :
    ∃ shown, List.Forall₂ (Binding.Shows s.sources) around.bindings shown := by
  have hbound : ∀ b ∈ around.bindings, ∃ w, Binding.Shows s.sources b w := fun b hb => by
    obtain ⟨e, he⟩ := h.linked.bound id around b haround hb
    exact ⟨⟨b.names, b.nullable, e.row⟩, rfl, rfl, RowSources.row?_of_get? he⟩
  generalize around.bindings = bindings at hbound ⊢
  induction bindings with
  | nil => exact ⟨[], .nil⟩
  | cons b rest ih =>
    obtain ⟨w, hw⟩ := hbound b (List.mem_cons_self ..)
    obtain ⟨shown, hshown⟩ := ih fun c hc => hbound c (List.mem_cons_of_mem _ hc)
    exact ⟨w :: shown, .cons hw hshown⟩

/-- A scope shows a level, which shows the item that its role names. -/
theorem exists_level (h : s.Faces scope own) {id : ScopeId} {around : Scope}
    (haround : s.scopes.get? id = some around) :
    ∃ level, around.Shows s.sources level ∧ ∀ item, level.shownItem? = some item →
      ∀ items, around.role.ShowsOnly items → items item := by
  obtain ⟨shown, hshown⟩ := h.exists_shown haround
  have hpresent := h.linked.shown id around haround
  cases hrole : around.role with
  | catalog => exact ⟨.catalog shown, .catalog hrole hshown, fun _ hitem => by cases hitem⟩
  | block => exact ⟨.block shown, .block hrole hshown, fun _ hitem => by cases hitem⟩
  | withItem item name =>
    rw [hrole] at hpresent
    obtain ⟨source, hsource⟩ := Option.isSome_iff_exists.mp hpresent
    obtain ⟨e, he, -⟩ := h.linked.owned.item item source hsource
    refine ⟨.item item name e.row shown, .item hrole hshown hsource (RowSources.row?_of_get? he),
      fun other hother items honly => ?_⟩
    cases hother
    exact honly
  | recursiveItem item name =>
    rw [hrole] at hpresent
    obtain ⟨source, hsource⟩ := Option.isSome_iff_exists.mp hpresent
    obtain ⟨e, he, -⟩ := h.linked.owned.selfView item source hsource
    refine ⟨.ownBody item name e.row shown, .ownBody hrole hshown hsource (RowSources.row?_of_get? he),
      fun other hother items honly => ?_⟩
    cases hother
    exact honly

/-- What can be seen from the scope does not change with the part. -/
theorem exists_view (h : s.Faces scope own) : ∃ view, s.Sees scope view ∧ view.Spares own := by
  have hn := h.grounded.nested
  -- The scopes around the scope, from the catalog inwards.
  have hsees : ∀ depth id around, id ∈ s.scopes.chain scope → s.scopes.get? id = some around →
      around.depth = depth → ∃ view, s.Sees id view ∧ view.Spares own := by
    intro depth
    induction depth with
    | zero =>
      intro id around hmem haround hdepth
      obtain ⟨level, hlevel, hitem⟩ := h.exists_level haround
      cases hparent : around.parent with
      | some parent =>
        obtain ⟨outer, -, hless⟩ := hn id around parent haround hparent
        omega
      | none =>
        refine ⟨[level], .root haround hparent hlevel, fun other hother item hshown => ?_⟩
        obtain rfl := List.mem_singleton.mp hother
        exact hitem item hshown _ (h.hidden id hmem around haround)
    | succ depth ih =>
      intro id around hmem haround hdepth
      obtain ⟨level, hlevel, hitem⟩ := h.exists_level haround
      have hspared : ∀ item, level.shownItem? = some item → ¬ own item := fun item hshown =>
        hitem item hshown _ (h.hidden id hmem around haround)
      cases hparent : around.parent with
      | some parent =>
        obtain ⟨outer, houter, hless⟩ := hn id around parent haround hparent
        obtain ⟨view, hview, hspares⟩ := ih parent outer
          (hn.parent_mem_chain h.lt_size hmem haround hparent) houter (by omega)
        exact ⟨level :: view, .inner haround hparent houter hless hlevel hview, hspares.cons hspared⟩
      | none =>
        refine ⟨[level], .root haround hparent hlevel, fun other hother item hshown => ?_⟩
        obtain rfl := List.mem_singleton.mp hother
        exact hspared item hshown
  obtain ⟨around, haround⟩ : ∃ around, s.scopes.get? scope = some around :=
    ⟨_, Array.getElem?_eq_getElem h.lt_size⟩
  exact hsees around.depth scope around (s.scopes.self_mem_chain scope) haround rfl

end Session.Faces

/-! ### One part after the other -/

/-- From `s` to `t` the parts `other` have been validated. No row source that was there has changed. -/
structure Session.Past (s t : Session) (other : NodeId → Prop) : Prop where
  confined : s.Confined other other s t
  grows : s.sources.Grows t.sources
  kept : ∀ id e, s.sources.get? id = some e → t.sources.get? id = some e

/-- Validating a part changes no row source that was there, except where an item of the part is seen from
    inside. -/
theorem Session.Appends.kept {b s s' : Session} {own : NodeId → Prop} (h : s.Appends s')
    (hconfined : b.Confined own own s s') (howned : s.sources.Owned) {id : SourceId} {e : RowSource}
    (hunseen : ∀ item, own item → s.sources.selfViewOf? item ≠ some id)
    (he : s.sources.get? id = some e) : s'.sources.get? id = some e := by
  obtain ⟨row, hrow, rfl | ⟨item, -, -, hview, -⟩⟩ := h.sources.source id e he
  · exact hrow
  -- The view of an item from inside has been renewed, and the item is none of the part.
  · refine hconfined.sources id e he fun node hnode hown => ?_
    obtain ⟨e', he', hitem⟩ := howned.selfView item id hview
    obtain rfl := Option.some.inj (he.symm.trans he')
    obtain rfl := Option.some.inj (hitem.symm.trans hnode)
    exact hunseen item hown hview

namespace Session.Past

variable {s t : Session} {scope : ScopeId} {own other all : NodeId → Prop} {rank : NodeId → Nat}
  {depth : Nat} {a : NodeId}

theorem refl (h : s.Grounded) : s.Past s other :=
  ⟨.refl h.continues h.owned, .refl _, fun _ _ he => he⟩

/-- Only the tree has changed, and nodes have been added to it. -/
theorem of_within (h : s.Within other other s t) (howned : s.sources.Owned)
    (hscopes : t.scopes = s.scopes) (hsources : t.sources = s.sources) : s.Past t other := by
  refine ⟨.of_within h howned hscopes hsources, ?_, fun id e he => ?_⟩
  · rw [hsources]
    exact .refl _
  · rwa [hsources]

section

variable (h : s.Past t other) (hfaces : s.Faces scope all) (hown : s.tree.IsClosed own)
  (hapart : ∀ id, own id → ¬ other id) (hsub : ∀ id, other id → all id)

include h hfaces hown hapart hsub

/-- The parts validated so far are beside the others. -/
theorem beside : s.Beside t (· ∈ s.scopes.chain scope) own other :=
  hfaces.clearOf.beside hown hapart hsub h.confined h.grows fun _ _ _ _ b _ => h.kept b.source

/-- An expression of the part comes to what it comes to before the others, also with more depth. -/
theorem answer_eq (hacyclic : ∀ id, own id → ¬ Relation.TransGen s.tree.Child id id)
    (hrank : ∀ p c, own p → s.tree.Child p c → rank c < rank p) (ha : Tree.HasRoom own rank depth a)
    (more : Nat) :
    ((visitAt (depth + more)).expression scope a t).1 = ((visitAt depth).expression scope a s).1 := by
  have hbeside := h.beside hfaces hown hapart hsub
  have hρ := hbeside.suits hacyclic hrank
  have hend := (visitAt_mirrors (N := ⟨s.tree, [], s.settings.matching⟩) hρ depth more).expression
    ⟨.refl hfaces.grounded.continues.rewrites, hfaces.grounded.owned⟩ hbeside.mirrors
    (.inl ⟨a, ha, .self⟩)
    (show s.scopes.Visible hbeside.renumbering.scopes scope from
      ⟨.inl (s.scopes.self_mem_chain scope), hfaces.lt_size⟩)
    fun _ _ _ => .inl rfl
  rw [hbeside.scope_eq hfaces.lt_size, hρ.node_eq ha.1] at hend
  exact hend.answer_eq

omit hsub in
/-- The part is validated in turn. -/
theorem next (ha : own a) (hall : ∀ id, own id → all id) (depth : Nat) :
    s.Confined own own t ((visitAt depth).expression scope a t).2 ∧
      s.Past ((visitAt depth).expression scope a t).2 fun id => other id ∨ own id := by
  have hclosed := hfaces.grounded.closed
  have hscope : scope.index < t.scopes.size :=
    Nat.lt_of_lt_of_le hfaces.lt_size h.confined.scopes.size_le
  have hgoes : Session.Goes s.tree (s.Confined own own t) t
      ((visitAt depth).expression scope a t).2 :=
    ((visitAt_confined hclosed hown.lt_size hown.child depth).expression
      ⟨.refl h.confined.continues.rewrites, .refl h.confined.continues h.confined.owned⟩
      (.inl ⟨a, ha, .self⟩) hscope).rel
  have happends : t.Appends ((visitAt depth).expression scope a t).2 :=
    (t.visitAt_appends depth).expression scope a t (.refl t)
  refine ⟨hgoes.2, (h.confined.mono (fun _ => .inl) fun _ => .inl).trans
    (hgoes.2.mono (fun _ => .inr) fun _ => .inr), h.grows.trans hgoes.1.sources, fun id e he => ?_⟩
  refine happends.kept hgoes.2 h.confined.owned (fun item ho => ?_) (h.kept id e he)
  rw [h.confined.selfView item (hapart item ho), hfaces.unseen item (hall item ho)]
  exact nofun

end

end Session.Past

end SqlTyping
