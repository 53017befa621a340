import SqlTyping.Proofs.Scope.Agreement

namespace SqlTyping

/-!
# What is seen of WITH items

The items of a WITH query are bound from left to right, each in a scope on top of the one before it,
the first one on top of the scope around the query.

* `RowSources.Retains` — nothing that is registered for a node gets lost;
* `ScopeTree.Binds` — the items bound so far, and the scopes opened for the bodies of recursive ones,
  with anything else that may happen to the scopes and the row sources meanwhile;
* `ScopeTree.Stacked` — where the scopes of the items lie, and what is registered for them; every
  change keeps it (`ScopeTree.Binds.stacked`);
* `ScopeTree.Binds.visible` — from behind an item the last item of a name hides the ones before it
  and what lies around the query, items further right are not seen, and the body of a recursive item
  sees the item itself as well.
-/

/-! ### Registries that lose nothing -/

/-- What is registered for a node stays registered, or is registered anew. -/
structure RowSources.Retains (s s' : RowSources) : Prop where
  source : ∀ node own, s.ofNode? node = some own → ∃ own, s'.ofNode? node = some own
  view : ∀ node view, s.selfViewOf? node = some view → s'.selfViewOf? node = some view

namespace RowSources.Retains

variable {s s' : RowSources}

theorem refl (s : RowSources) : s.Retains s := ⟨fun _ own h => ⟨own, h⟩, fun _ _ h => h⟩

theorem trans {s'' : RowSources} (h : s.Retains s') (h' : s'.Retains s'') : s.Retains s'' where
  source node own hown := by
    obtain ⟨own', hown'⟩ := h.source node own hown
    exact h'.source node own' hown'
  view node view hview := h'.view node view (h.view node view hview)

/-- A registry that grows without a change to what is registered for nodes. -/
theorem of_grows (h : s.Grows s') (hsame : s'.byNode = s.byNode) : s.Retains s' where
  source node own hown := ⟨own, by
    show s'.byNode.get? node = some own
    rw [hsame]
    exact hown⟩
  view := h.selfView

theorem register (s : RowSources) (node : NodeId) (kind : SourceKind) (enclosing : Option NodeId) :
    s.Retains (s.register node kind enclosing).2 where
  source other own hown := by
    rw [ofNode?_register]
    split
    · exact ⟨_, rfl⟩
    · exact ⟨own, hown⟩
  view := (Grows.register s node kind enclosing).selfView

theorem of_selfView {node : NodeId} {id : SourceId} (h : s.selfView node = .ok (id, s')) :
    s.Retains s' := by
  refine .of_grows (.of_selfView h) ?_
  rcases selfView_eq_ok h with ⟨-, rfl⟩ | ⟨own, -, -, -, rfl⟩
  · rfl
  · rfl

theorem of_setRow {id : SourceId} {row : DataType} (h : s.setRow id row = .ok s') :
    s.Retains s' :=
  .of_grows (.of_setRow h) (byNode_of_setRow h).1

end RowSources.Retains

/-! ### Items and bodies -/

/-- A WITH item that has been bound, with the scope that shows it. -/
structure BoundItem where
  node : NodeId
  name : String
  scope : ScopeId
  deriving DecidableEq, Repr

/-- A scope opened for the body of a recursive WITH item, behind the first `before` items. -/
structure OpenedBody where
  node : NodeId
  name : String
  scope : ScopeId
  before : Nat
  deriving DecidableEq, Repr

namespace ScopeTree

/-- The scope behind items that are bound on top of `around`. -/
def behind (around : ScopeId) (items : List BoundItem) : ScopeId :=
  (items.getLast?.map (·.scope)).getD around

/-- WITH items are bound one after the other on top of the scope `around`, each one after its row
    source has been registered. Meanwhile scopes and row sources are added, row types get known, and
    names are bound in other scopes. -/
inductive Binds (around : ScopeId) :
    ScopeTree → RowSources → List BoundItem → List OpenedBody → Prop
  | start {t sources scope} (ht : t.Built) (hs : sources.Owned) (h : t.get? around = some scope) :
    Binds around t sources [] []
  | newScope {t t' sources items bodies parent role node id}
    (h : Binds around t sources items bodies) (hnew : t.newScope parent role node = .ok (id, t')) :
    Binds around t' sources items bodies
  | addBinding {t t' sources items bodies id binding} (h : Binds around t sources items bodies)
    (hitems : id ∉ items.map (·.scope)) (hbodies : id ∉ bodies.map (·.scope))
    (hadd : t.addBinding id binding = .ok t') : Binds around t' sources items bodies
  | registerTable {t sources items bodies} (h : Binds around t sources items bodies)
    (names : List String) (row : DataType) :
    Binds around t (sources.registerTable names row).2 items bodies
  | register {t sources items bodies} (h : Binds around t sources items bodies) (node : NodeId)
    (kind : SourceKind) (enclosing : Option NodeId) :
    Binds around t (sources.register node kind enclosing).2 items bodies
  | selfView {t sources sources' items bodies node id} (h : Binds around t sources items bodies)
    (hview : sources.selfView node = .ok (id, sources')) : Binds around t sources' items bodies
  | setRow {t sources sources' items bodies id row} (h : Binds around t sources items bodies)
    (hrow : sources.setRow id row = .ok sources') : Binds around t sources' items bodies
  | openBody {t t' sources items bodies node name view id}
    (h : Binds around t sources items bodies) (hview : sources.selfViewOf? node = some view)
    (hnew : t.newRecursiveItem (behind around items) node name = .ok (id, t')) :
    Binds around t' sources items (bodies ++ [⟨node, name, id, items.length⟩])
  | bindItem {t t' sources items bodies node name own id}
    (h : Binds around t sources items bodies) (hown : sources.ofNode? node = some own)
    (hnew : t.newWithItem (behind around items) node name = .ok (id, t')) :
    Binds around t' sources (items ++ [⟨node, name, id⟩]) bodies

/-- The scope of an item lies on the one behind the items before it and shows nothing else, and so
    does the scope of a body that has been opened. The row sources of both are registered. -/
structure Stacked (around : ScopeId) (t : ScopeTree) (sources : RowSources)
    (items : List BoundItem) (bodies : List OpenedBody) : Prop where
  built : t.Built
  owned : sources.Owned
  ground : ∃ scope, t.get? around = some scope
  item : ∀ earlier item later, items = earlier ++ item :: later → ∃ scope,
    t.get? item.scope = some scope ∧ scope.parent = some (behind around earlier) ∧
      scope.role = .withItem item.node item.name ∧ scope.bindings = []
  source : ∀ item ∈ items, ∃ own, sources.ofNode? item.node = some own
  body : ∀ body ∈ bodies, body.before ≤ items.length ∧ ∃ scope,
    t.get? body.scope = some scope ∧
      scope.parent = some (behind around (items.take body.before)) ∧
      scope.role = .recursiveItem body.node body.name ∧ scope.bindings = []
  view : ∀ body ∈ bodies, ∃ view, sources.selfViewOf? body.node = some view

variable {t t' : ScopeTree} {sources sources' : RowSources} {around : ScopeId}
  {items : List BoundItem} {bodies : List OpenedBody}

@[simp] theorem behind_concat (item : BoundItem) :
    behind around (items ++ [item]) = item.scope := by
  simp [behind]

/-! ### Changes keep the scopes stacked -/

namespace Stacked

/-- Scopes that stay as they are stay where they are. -/
theorem of_scopes (h : Stacked around t sources items bodies) (hbuilt : t'.Built)
    (haround : ∃ scope, t'.get? around = some scope)
    (hitem : ∀ item ∈ items, ∀ scope, t.get? item.scope = some scope →
      t'.get? item.scope = some scope)
    (hbody : ∀ body ∈ bodies, ∀ scope, t.get? body.scope = some scope →
      t'.get? body.scope = some scope) : Stacked around t' sources items bodies where
  built := hbuilt
  owned := h.owned
  ground := haround
  item earlier item later hitems := by
    obtain ⟨scope, hscope, hrest⟩ := h.item earlier item later hitems
    exact ⟨scope, hitem item (by simp [hitems]) scope hscope, hrest⟩
  source := h.source
  body body hmem := by
    obtain ⟨hbefore, scope, hscope, hrest⟩ := h.body body hmem
    exact ⟨hbefore, scope, hbody body hmem scope hscope, hrest⟩
  view := h.view

theorem newScope {parent id : ScopeId} {role : ScopeRole} {node : Option NodeId}
    (h : Stacked around t sources items bodies)
    (hnew : t.newScope parent role node = .ok (id, t')) :
    Stacked around t' sources items bodies := by
  obtain ⟨scope, hscope⟩ := h.ground
  exact h.of_scopes (h.built.newScope hnew) ⟨scope, get?_newScope_of_some hnew hscope⟩
    (fun _ _ _ hold => get?_newScope_of_some hnew hold)
    (fun _ _ _ hold => get?_newScope_of_some hnew hold)

theorem addBinding {id : ScopeId} {binding : Binding} (h : Stacked around t sources items bodies)
    (hitems : id ∉ items.map (·.scope)) (hbodies : id ∉ bodies.map (·.scope))
    (hadd : t.addBinding id binding = .ok t') : Stacked around t' sources items bodies := by
  have hother : ∀ other scope, other ≠ id → t.get? other = some scope →
      t'.get? other = some scope := by
    intro other scope hne hscope
    rw [get?_addBinding hadd, if_neg hne]
    exact hscope
  refine h.of_scopes (h.built.addBinding hadd) ?_ (fun item hmem scope => ?_)
    (fun body hmem scope => ?_)
  · obtain ⟨scope, hscope⟩ := h.ground
    by_cases heq : around = id
    · rw [get?_addBinding hadd, if_pos heq, ← heq, hscope]
      exact ⟨_, rfl⟩
    · exact ⟨scope, hother around scope heq hscope⟩
  · exact hother item.scope scope fun heq => hitems (heq ▸ List.mem_map_of_mem hmem)
  · exact hother body.scope scope fun heq => hbodies (heq ▸ List.mem_map_of_mem hmem)

/-- What lies in the scopes does not depend on the row sources. -/
theorem of_sources (h : Stacked around t sources items bodies) (howned : sources'.Owned)
    (hretains : sources.Retains sources') : Stacked around t sources' items bodies where
  built := h.built
  owned := howned
  ground := h.ground
  item := h.item
  source item hmem := by
    obtain ⟨own, hown⟩ := h.source item hmem
    exact hretains.source item.node own hown
  body := h.body
  view body hmem := by
    obtain ⟨view, hview⟩ := h.view body hmem
    exact ⟨view, hretains.view body.node view hview⟩

theorem registerTable (h : Stacked around t sources items bodies) (names : List String)
    (row : DataType) : Stacked around t (sources.registerTable names row).2 items bodies := by
  have hgrows := RowSources.Grows.registerTable sources names row
  exact h.of_sources (h.owned.of_grows hgrows rfl rfl) (.of_grows hgrows rfl)

theorem openBody {node : NodeId} {name : String} {view : SourceId} {id : ScopeId}
    (h : Stacked around t sources items bodies) (hview : sources.selfViewOf? node = some view)
    (hnew : t.newRecursiveItem (behind around items) node name = .ok (id, t')) :
    Stacked around t' sources items (bodies ++ [⟨node, name, id, items.length⟩]) := by
  have hkept := h.newScope hnew
  obtain ⟨-, below, -, hget⟩ := get?_newScope hnew
  refine { hkept with body := ?_, view := ?_ }
  · intro body hmem
    rcases List.mem_append.mp hmem with hmem | hmem
    · exact hkept.body body hmem
    · obtain rfl := List.mem_singleton.mp hmem
      refine ⟨Nat.le_refl _, _, (hget id).trans (if_pos rfl), ?_, rfl, rfl⟩
      rw [List.take_length]
  · intro body hmem
    rcases List.mem_append.mp hmem with hmem | hmem
    · exact hkept.view body hmem
    · obtain rfl := List.mem_singleton.mp hmem
      exact ⟨view, hview⟩

theorem bindItem {node : NodeId} {name : String} {own : SourceId} {id : ScopeId}
    (h : Stacked around t sources items bodies) (hown : sources.ofNode? node = some own)
    (hnew : t.newWithItem (behind around items) node name = .ok (id, t')) :
    Stacked around t' sources (items ++ [⟨node, name, id⟩]) bodies := by
  have hkept := h.newScope hnew
  obtain ⟨-, below, -, hget⟩ := get?_newScope hnew
  refine { hkept with item := ?_, source := ?_, body := ?_ }
  · intro earlier item later hitems
    rcases List.eq_nil_or_concat later with rfl | ⟨later, last, rfl⟩
    -- The item that has just been bound.
    · obtain ⟨rfl, hlast⟩ := List.append_inj' hitems rfl
      obtain rfl := (List.cons.inj hlast).1
      exact ⟨_, (hget id).trans (if_pos rfl), rfl, rfl, rfl⟩
    · rw [List.concat_eq_append, ← List.cons_append, ← List.append_assoc] at hitems
      exact hkept.item earlier item later (List.append_inj' hitems rfl).1
  · intro item hmem
    rcases List.mem_append.mp hmem with hmem | hmem
    · exact hkept.source item hmem
    · obtain rfl := List.mem_singleton.mp hmem
      exact ⟨own, hown⟩
  · intro body hmem
    obtain ⟨hbefore, hscope⟩ := hkept.body body hmem
    rw [List.take_append_of_le_length hbefore]
    exact ⟨by simp; omega, hscope⟩

end Stacked

/-- However items are bound, their scopes are stacked. -/
theorem Binds.stacked (h : Binds around t sources items bodies) :
    Stacked around t sources items bodies := by
  induction h with
  | start ht hs h =>
    refine ⟨ht, hs, ⟨_, h⟩, fun earlier item later hnone => ?_, ?_, ?_, ?_⟩
    · simp at hnone
    all_goals simp
  | newScope _ hnew ih => exact ih.newScope hnew
  | addBinding _ hitems hbodies hadd ih => exact ih.addBinding hitems hbodies hadd
  | registerTable _ names row ih => exact ih.registerTable names row
  | register _ node kind enclosing ih =>
    exact ih.of_sources (ih.owned.register node kind enclosing) (.register _ node kind enclosing)
  | selfView _ hview ih => exact ih.of_sources (ih.owned.of_selfView hview) (.of_selfView hview)
  | setRow _ hrow ih => exact ih.of_sources (ih.owned.of_setRow hrow) (.of_setRow hrow)
  | openBody _ hview hnew ih => exact ih.openBody hview hnew
  | bindItem _ hown hnew ih => exact ih.bindItem hown hnew

/-! ### Lookups -/

section

variable {id parent : ScopeId} {scope : Scope} {names : List String}

/-- A scope without bindings leaves a name that it does not show to the scope around it. -/
theorem lookupTable_of_not_shown (hn : t.Nested) (h : t.get? id = some scope)
    (hparent : scope.parent = some parent) (hnone : scope.bindings = [])
    (hitem : itemMatch scope names sources = .ok none) (m : NameMatching) (path : Path) :
    t.lookupTable id names m path sources = t.lookupTable parent names m path sources := by
  have htable : tableIn names m path sources id scope = .ok none := by
    rw [tableIn_of_not_shown hitem, hnone]
    rfl
  unfold lookupTable
  rw [hn.chain h hparent, firstAlong, h]
  simp only [htable]

/-- A scope that shows an item under a name ends the lookup. -/
theorem lookupTable_of_shown (hn : t.Nested) (h : t.get? id = some scope)
    (hparent : scope.parent = some parent) {source : SourceId}
    (hitem : itemMatch scope names sources = .ok (some source)) (m : NameMatching) (path : Path) :
    ∃ found, t.lookupTable id names m path sources = .ok (some found) ∧ found.source = source ∧
      found.remaining = [] ∧ found.scope = id := by
  unfold lookupTable
  rw [hn.chain h hparent, firstAlong, h]
  simp only [tableIn_of_shown hitem]
  exact ⟨_, rfl, rfl, rfl, rfl⟩

end

namespace Stacked

/-- From behind items the last one of a name is found, and without one what is found from around
    them. -/
theorem lookupTable_behind (h : Stacked around t sources items bodies) {done : List BoundItem}
    (hdone : done <+: items) (names : List String) (m : NameMatching) (path : Path) :
    match done.reverse.find? fun item => names = [item.name] with
    | some item => ∃ own found, sources.ofNode? item.node = some own ∧
      t.lookupTable (behind around done) names m path sources = .ok (some found) ∧
        found.source = own ∧ found.remaining = []
    | none => t.lookupTable (behind around done) names m path sources =
      t.lookupTable around names m path sources := by
  induction done using List.reverseRecOn with
  | nil => rfl
  | append_singleton done last ih =>
    obtain ⟨rest, rfl⟩ := hdone
    have ih := ih ⟨last :: rest, by simp⟩
    obtain ⟨scope, hscope, hparent, hrole, hnone⟩ := h.item done last rest (by simp)
    rw [behind_concat, List.reverse_concat, List.find?_cons]
    by_cases hname : names = [last.name]
    · obtain ⟨own, hown⟩ := h.source last (by simp)
      have hitem : itemMatch scope names sources = .ok (some own) := by
        rw [itemMatch_of_withItem hrole, hown, hname, itemNamed_self]
      obtain ⟨found, hfound, hsource, hremaining, -⟩ :=
        lookupTable_of_shown h.built.nested hscope hparent hitem m path
      rw [decide_eq_true hname]
      exact ⟨own, found, hown, hfound, hsource, hremaining⟩
    · have hitem : itemMatch scope names sources = .ok none :=
        (itemMatch_of_withItem hrole).trans (itemNamed_of_ne hname)
      rw [decide_eq_false hname,
        lookupTable_of_not_shown h.built.nested hscope hparent hnone hitem m path]
      exact ih

/-- From the scope of a body the item itself is found, and every other name as from below it. -/
theorem lookupTable_body (h : Stacked around t sources items bodies) {body : OpenedBody}
    (hbody : body ∈ bodies) (names : List String) (m : NameMatching) (path : Path) :
    (names = [body.name] → ∃ view found, sources.selfViewOf? body.node = some view ∧
      t.lookupTable body.scope names m path sources = .ok (some found) ∧
        found.source = view ∧ found.remaining = []) ∧
    (names ≠ [body.name] → t.lookupTable body.scope names m path sources =
      t.lookupTable (behind around (items.take body.before)) names m path sources) := by
  obtain ⟨-, scope, hscope, hparent, hrole, hnone⟩ := h.body body hbody
  obtain ⟨view, hview⟩ := h.view body hbody
  refine ⟨fun hname => ?_, fun hname => ?_⟩
  · have hitem : itemMatch scope names sources = .ok (some view) := by
      rw [itemMatch_of_recursiveItem hrole, hview, hname, itemNamed_self]
    obtain ⟨found, hfound, hsource, hremaining, -⟩ :=
      lookupTable_of_shown h.built.nested hscope hparent hitem m path
    exact ⟨view, found, hview, hfound, hsource, hremaining⟩
  · have hitem : itemMatch scope names sources = .ok none :=
      (itemMatch_of_recursiveItem hrole).trans (itemNamed_of_ne hname)
    exact lookupTable_of_not_shown h.built.nested hscope hparent hnone hitem m path

end Stacked

/-- What is seen from behind the first `k` of the items bound on top of `around`, at any time. A name
    of one of them is the last item of that name, with no parts left over. Every other name means
    what it means from `around`. From the scope of the body of a recursive item its own name is the
    view of the item from inside, and every other name means what it means from behind the items
    before it. The row source of a node that is none of these items, such as an item further right,
    is found only where it is found from `around`. -/
theorem Binds.visible (h : Binds around t sources items bodies) (k : Nat) (names : List String)
    (m : NameMatching) (path : Path) :
    (∀ earlier item later, items.take k = earlier ++ item :: later → names = [item.name] →
      (∀ other ∈ later, other.name ≠ item.name) →
        ∃ own found, sources.ofNode? item.node = some own ∧
          t.lookupTable (behind around (items.take k)) names m path sources = .ok (some found) ∧
            found.source = own ∧ found.remaining = []) ∧
    ((∀ item ∈ items.take k, names ≠ [item.name]) →
      t.lookupTable (behind around (items.take k)) names m path sources =
        t.lookupTable around names m path sources) ∧
    (∀ body ∈ bodies, body.before = k →
      (names = [body.name] → ∃ view found, sources.selfViewOf? body.node = some view ∧
        t.lookupTable body.scope names m path sources = .ok (some found) ∧
          found.source = view ∧ found.remaining = []) ∧
      (names ≠ [body.name] → t.lookupTable body.scope names m path sources =
        t.lookupTable (behind around (items.take k)) names m path sources)) ∧
    (∀ node found, node ∉ (items.take k).map (·.node) →
      t.lookupTable (behind around (items.take k)) names m path sources = .ok (some found) →
        sources.ofNode? node = some found.source →
          t.lookupTable around names m path sources = .ok (some found)) := by
  have hstacked := h.stacked
  have hbehind := hstacked.lookupTable_behind (List.take_prefix k items) names m path
  refine ⟨fun earlier item later hitems hname hlast => ?_, fun hnone => ?_, fun body hbody hk => ?_,
    fun node found hnode hfound hown => ?_⟩
  · have hfind : (items.take k).reverse.find? (fun item => names = [item.name]) = some item := by
      rw [hitems, List.find?_eq_some_iff_append]
      refine ⟨by simpa using hname, later.reverse, earlier.reverse, by simp, fun other hmem => ?_⟩
      have hne := hlast other (List.mem_reverse.mp hmem)
      rw [hname]
      simpa using hne.symm
    rw [hfind] at hbehind
    exact hbehind
  · have hfind : (items.take k).reverse.find? (fun item => names = [item.name]) = none := by
      rw [List.find?_eq_none]
      intro item hmem
      simpa using hnone item (List.mem_reverse.mp hmem)
    rw [hfind] at hbehind
    exact hbehind
  · subst hk
    exact hstacked.lookupTable_body hbody names m path
  · cases hfind : (items.take k).reverse.find? (fun item => names = [item.name]) with
    | none =>
      rw [hfind] at hbehind
      rw [← hbehind]
      exact hfound
    -- What is registered for an item is not registered for another node.
    | some item =>
      rw [hfind] at hbehind
      obtain ⟨own, found', hitem, hfound', rfl, -⟩ := hbehind
      obtain rfl := Option.some.inj (Except.ok.inj (hfound.symm.trans hfound'))
      obtain ⟨e, he, hnode'⟩ := hstacked.owned.item _ _ hown
      obtain ⟨e', he', hitem'⟩ := hstacked.owned.item _ _ hitem
      obtain rfl := Option.some.inj (he.symm.trans he')
      obtain rfl := Option.some.inj (hnode'.symm.trans hitem')
      exact absurd (List.mem_map_of_mem (List.mem_reverse.mp (List.mem_of_find?_eq_some hfind)))
        hnode

/-- `WITH T AS (..), RECURSIVE T AS (..)` where the catalog has a table `T`: behind both items `T` is
    the second one, its body sees its own view, behind the first one `T` is the first one, and `T.C`
    means what it means to the catalog. -/
theorem Binds.visible_repeated_name :
    let items : List BoundItem := [⟨⟨10⟩, "T", ⟨1⟩⟩, ⟨⟨20⟩, "T", ⟨3⟩⟩]
    let body : OpenedBody := ⟨⟨20⟩, "T", ⟨2⟩, 1⟩
    ∃ t sources, Binds rootId t sources items [body] ∧
      (∃ found, t.lookupTable ⟨3⟩ ["T"] .exact .empty sources = .ok (some found) ∧
        found.source = ⟨2⟩ ∧ found.remaining = []) ∧
      (∃ found, t.lookupTable ⟨2⟩ ["T"] .exact .empty sources = .ok (some found) ∧
        found.source = ⟨3⟩ ∧ found.remaining = []) ∧
      (∃ found, t.lookupTable ⟨1⟩ ["T"] .exact .empty sources = .ok (some found) ∧
        found.source = ⟨1⟩ ∧ found.remaining = []) ∧
      t.lookupTable ⟨3⟩ ["T", "C"] .exact .empty sources =
        t.lookupTable rootId ["T", "C"] .exact .empty sources := by
  intro items body
  let table : RowSources := (RowSources.registerTable {} ["T"] .emptyRow).2
  have howned : table.Owned := ⟨nofun, nofun⟩
  have hstart : Binds rootId (ofCatalog [⟨["T"], ⟨0⟩, false⟩]) table [] [] :=
    .start (built_ofCatalog _) howned rfl
  have hfirst : Binds rootId _ _ [⟨⟨10⟩, "T", ⟨1⟩⟩] [] :=
    (hstart.register ⟨10⟩ .withItem none).bindItem rfl rfl
  have hviewed := (hfirst.register ⟨20⟩ .withItem none).selfView (show RowSources.selfView _ ⟨20⟩ =
    .ok _ from rfl)
  have hbody : Binds rootId _ _ [⟨⟨10⟩, "T", ⟨1⟩⟩] [body] := hviewed.openBody rfl rfl
  have h : Binds rootId _ _ items [body] := hbody.bindItem rfl rfl
  obtain ⟨hlast, -, -, -⟩ := h.visible 2 ["T"] .exact .empty
  obtain ⟨hlast', -, hview, -⟩ := h.visible 1 ["T"] .exact .empty
  obtain ⟨own, found, hown, hfound⟩ := hlast [items[0]] items[1] [] rfl rfl (by simp)
  obtain ⟨own', found', hown', hfound'⟩ := hlast' [] items[0] [] rfl rfl (by simp)
  obtain ⟨view, inside, hself, hinside⟩ := (hview body (by simp) rfl).1 rfl
  cases hown
  cases hown'
  cases hself
  refine ⟨_, _, h, ⟨found, hfound⟩, ⟨inside, hinside⟩, ⟨found', hfound'⟩, ?_⟩
  exact (h.visible 2 ["T", "C"] .exact .empty).2.1 (by decide)

end ScopeTree

end SqlTyping
