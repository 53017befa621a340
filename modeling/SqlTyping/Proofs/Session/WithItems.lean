import SqlTyping.Proofs.Scope.WithItems
import SqlTyping.Proofs.Session.Results

namespace SqlTyping

/-!
# How validation binds WITH items

Validation of a WITH query binds its items as `ScopeTree.Binds` says, so `ScopeTree.Binds.visible`
holds of the scopes it leaves.

* `visitAt_keeps_apart` — an invariant that looks neither at the tree nor at the requests survives
  validation when it survives the changes outside calls;
* `Session.invariant_binds` — other work does not get in the way of items that are bound;
* `bindWithItem_binds` — one item is bound, and its body opened if it is recursive;
* `withRow_binds` — so are all items of a WITH query.
-/

open Checking

/-- An invariant that looks neither at the tree nor at the requests survives validation when it
    survives the changes outside calls. -/
theorem visitAt_keeps_apart {P : Session → Prop} {base : Nat} (htree : ∀ s tree, P s → P { s with tree })
    (hrequests : ∀ s requests, P s → P { s with requests }) (h : Session.Invariant base P)
    (depth : Nat) : (visitAt depth).Keeps P :=
  visitAt_keeps (fun _ : Unit => base) (fun _ => P) (fun _ => h) (fun _ hv _ scope id name operands s hs _ =>
    keeps_callType_apart htree hrequests ((hv ()).expression scope) id name operands s hs) depth ()

/-! ### Other work -/

/-- Items have been bound on top of `around`, and what `sources` has registered is still registered.
    The scopes up to `base` are those that names are no longer bound in. -/
structure Session.Binds (around : ScopeId) (items : List BoundItem) (bodies : List OpenedBody)
    (base : Nat) (sources : RowSources) (s : Session) : Prop where
  base_le : base ≤ s.scopes.size
  binds : ScopeTree.Binds around s.scopes s.sources items bodies
  retains : sources.Retains s.sources

variable {around : ScopeId} {items : List BoundItem} {bodies : List OpenedBody} {base : Nat}
  {sources : RowSources} {v : Visit} {s s' : Session}

/-- The scopes of items and bodies are there. -/
theorem ScopeTree.Binds.lt_size {t : ScopeTree} (h : ScopeTree.Binds around t sources items bodies) :
    (∀ item ∈ items, item.scope.index < t.size) ∧ ∀ body ∈ bodies, body.scope.index < t.size := by
  have hstacked := h.stacked
  refine ⟨fun item hmem => ?_, fun body hmem => ?_⟩
  · obtain ⟨earlier, later, hitems⟩ := List.append_of_mem hmem
    obtain ⟨scope, hscope, -⟩ := hstacked.item earlier item later hitems
    exact lt_size_of_get? hscope
  · obtain ⟨-, scope, hscope, -⟩ := hstacked.body body hmem
    exact lt_size_of_get? hscope

/-- Other work leaves items bound: it binds names in scopes that it has added itself. -/
theorem Session.invariant_binds (hitems : ∀ item ∈ items, item.scope.index < base)
    (hbodies : ∀ body ∈ bodies, body.scope.index < base) :
    Session.Invariant base (Session.Binds around items bodies base sources) where
  base_le h := h.base_le
  record _ _ h := ⟨h.base_le, h.binds, h.retains⟩
  newScope h hnew :=
    ⟨Nat.le_trans h.base_le (ScopeTree.size_newScope hnew ▸ Nat.le_succ _), h.binds.newScope hnew,
      h.retains⟩
  addBinding {s scope binding scopes} h hscope hadd := by
    refine ⟨(ScopeTree.size_addBinding hadd).symm ▸ h.base_le,
      h.binds.addBinding (fun hmem => ?_) (fun hmem => ?_) hadd, h.retains⟩
    · obtain ⟨item, hitem, rfl⟩ := List.mem_map.mp hmem
      exact absurd (hitems item hitem) (Nat.not_lt.mpr hscope)
    · obtain ⟨body, hbody, rfl⟩ := List.mem_map.mp hmem
      exact absurd (hbodies body hbody) (Nat.not_lt.mpr hscope)
  register node kind enclosing h :=
    ⟨h.base_le, h.binds.register node kind enclosing, h.retains.trans (.register _ _ _ _)⟩
  selfView h hview := ⟨h.base_le, h.binds.selfView hview, h.retains.trans (.of_selfView hview)⟩
  setRow h _ hrow := ⟨h.base_le, h.binds.setRow hrow, h.retains.trans (.of_setRow hrow)⟩
  selfReference _ h := ⟨h.base_le, h.binds, h.retains⟩

/-- The parts below a WITH query are validated without getting in the way of its items. -/
def Visit.LeavesItems (v : Visit) : Prop :=
  ∀ around items bodies base sources, (∀ item ∈ items, item.scope.index < base) →
    (∀ body ∈ bodies, body.scope.index < base) →
      v.Keeps (Session.Binds around items bodies base sources)

theorem visitAt_leavesItems (depth : Nat) : (visitAt depth).LeavesItems :=
  fun _ _ _ _ _ hitems hbodies => visitAt_keeps_apart (fun _ _ h => ⟨h.base_le, h.binds, h.retains⟩)
    (fun _ _ h => ⟨h.base_le, h.binds, h.retains⟩) (Session.invariant_binds hitems hbodies) depth

/-- A query is validated after items have been bound. -/
theorem Visit.LeavesItems.query (hv : v.LeavesItems)
    (h : ScopeTree.Binds around s.scopes s.sources items bodies) {scope : ScopeId} {id : NodeId}
    {row : DataType} (hrun : v.query scope id s = (.ok row, s')) :
    ScopeTree.Binds around s'.scopes s'.sources items bodies ∧ s.sources.Retains s'.sources := by
  obtain ⟨hitems, hbodies⟩ := h.lt_size
  have hkept := (hv around items bodies s.scopes.size s.sources hitems hbodies).query scope id s
    ⟨Nat.le_refl _, h, .refl _⟩
  rw [hrun] at hkept
  exact ⟨hkept.binds, hkept.retains⟩

/-! ### One item -/

/-- The body of a recursive item is opened behind the items before it. -/
theorem recursiveRow_binds (hv : v.LeavesItems)
    (h : ScopeTree.Binds around s.scopes s.sources items bodies) {id : NodeId} {name : String}
    {item : WithItem} {row : DataType}
    (hrun : recursiveRow v (ScopeTree.behind around items) id name item s = (.ok row, s')) :
    ∃ scope, ScopeTree.Binds around s'.scopes s'.sources items
      (bodies ++ [⟨id, name, scope, items.length⟩]) ∧ s.sources.Retains s'.sources := by
  obtain ⟨operation, view, sources, anchor, u, shown, sources', scope, scopes, -, hview, hanchor, -, hset,
    hnew, hbody⟩ := recursiveRow_eq_ok hrun
  obtain ⟨hbinds₁, hretains₁⟩ := hv.query (s := { s with sources }) (h.selfView hview) hanchor
  have hself : sources'.selfViewOf? id = some view :=
    (hretains₁.trans (.of_setRow hset)).view _ _ (RowSources.selfViewOf?_of_selfView hview)
  obtain ⟨hbinds, hretains⟩ := hv.query (s := { u with sources := sources', scopes })
    ((hbinds₁.setRow hset).openBody hself hnew) hbody
  exact ⟨scope, hbinds, (RowSources.Retains.of_selfView hview).trans
    (hretains₁.trans ((RowSources.Retains.of_setRow hset).trans hretains))⟩

/-- A WITH item is bound behind the items before it, and its body has been opened there if it is
    recursive. -/
theorem bindWithItem_binds (hv : v.LeavesItems)
    (h : ScopeTree.Binds around s.scopes s.sources items bodies) {id : NodeId} {scope : ScopeId}
    (hrun : bindWithItem v (ScopeTree.behind around items) id s = (.ok scope, s')) :
    ∃ item opened, s.tree.node? id = some (.withItem item) ∧
      ScopeTree.Binds around s'.scopes s'.sources (items ++ [⟨id, qualifiedName item.name, scope⟩])
        (bodies ++ opened) ∧
      opened.map (fun body => (body.node, body.name, body.before)) =
        if item.recursive then [(id, qualifiedName item.name, items.length)] else [] := by
  obtain ⟨item, body, u, row, sources, scopes, hn, hbody, -, hset, hnew, rfl⟩ := bindWithItem_eq_ok hrun
  have hregistered := h.register id .withItem none
  have hown : (s.sources.register id .withItem none).2.ofNode? id = some s.sources.nextId :=
    (RowSources.ofNode?_register ..).trans (if_pos rfl)
  -- Whatever the query opens, the item is bound after it.
  have hbound : ∀ {opened : List OpenedBody},
      ScopeTree.Binds around u.scopes u.sources items (bodies ++ opened) →
      (s.sources.register id .withItem none).2.Retains u.sources →
      ScopeTree.Binds around scopes sources (items ++ [⟨id, qualifiedName item.name, scope⟩])
        (bodies ++ opened) := by
    intro opened hbinds hretains
    obtain ⟨own, hown⟩ := (hretains.trans (.of_setRow hset)).source id _ hown
    exact (hbinds.setRow hset).bindItem hown hnew
  by_cases hrecursive : item.recursive = true
  · rw [if_pos hrecursive] at hbody
    obtain ⟨opened, hbinds, hretains⟩ := recursiveRow_binds hv hregistered hbody
    refine ⟨item, [⟨id, qualifiedName item.name, opened, items.length⟩], hn, hbound hbinds hretains, ?_⟩
    rw [if_pos hrecursive]
    rfl
  · rw [if_neg hrecursive] at hbody
    obtain ⟨hbinds, hretains⟩ := hv.query hregistered hbody
    refine ⟨item, [], hn, hbound ((List.append_nil bodies).symm ▸ hbinds) hretains, ?_⟩
    rw [if_neg hrecursive]
    rfl

/-! ### All items -/

/-- When a WITH query has been validated, its items have been bound from left to right. -/
theorem withRow_binds (hv : v.LeavesItems)
    (h : ScopeTree.Binds around s.scopes s.sources items bodies) {nodes : List NodeId}
    {body : NodeId} {row : DataType}
    (hrun : withRow v (ScopeTree.behind around items) body nodes s = (.ok row, s')) :
    ∃ bound opened, bound.map (·.node) = nodes ∧
      ScopeTree.Binds around s'.scopes s'.sources (items ++ bound) (bodies ++ opened) := by
  induction nodes generalizing items bodies s with
  | nil =>
    refine ⟨[], [], rfl, ?_⟩
    rw [List.append_nil, List.append_nil]
    exact (hv.query h hrun).1
  | cons node rest ih =>
    obtain ⟨scope, s₁, hitem, hrun⟩ := bind_eq_ok_iff.mp hrun
    obtain ⟨item, first, -, hbinds, -⟩ := bindWithItem_binds hv h hitem
    have hbehind : ScopeTree.behind around (items ++ [⟨node, qualifiedName item.name, scope⟩]) =
        scope := ScopeTree.behind_concat _
    have hrun : withRow v (ScopeTree.behind around
        (items ++ [⟨node, qualifiedName item.name, scope⟩])) body rest s₁ = (.ok row, s') := by
      rw [hbehind]
      exact hrun
    obtain ⟨bound, opened, hbound, hall⟩ := ih hbinds hrun
    refine ⟨⟨node, qualifiedName item.name, scope⟩ :: bound, first ++ opened, ?_, ?_⟩
    · rw [List.map_cons, hbound]
    · rw [List.append_assoc, List.append_assoc] at hall
      exact hall

end SqlTyping
