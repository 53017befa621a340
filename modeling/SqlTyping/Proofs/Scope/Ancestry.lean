import SqlTyping.Proofs.Histories
import SqlTyping.Proofs.Scope.Frames

namespace SqlTyping

/-!
# The tree of scopes

Whatever scopes are asked for, they form a tree below the catalog, and a lookup that goes from scope to
scope ends there:

* `ScopeTree.Request` — the requests, and what is done about them (`ScopeTree.Request.step`);
* `ScopeTree.Rooted` — the catalog is the root, and every other scope lies one below an older one;
* `ScopeTree.Settled` — what stays of every scope as scopes and bindings are added;
* `ScopeTree.Climbs`, `ScopeTree.WayUp` — the scopes met from a scope on, parent by parent; they are
  its chain (`ScopeTree.Rooted.wayUp`);
* `ScopeTree.climb` — a lookup as a loop over parents; it is done when it has been at the
  catalog (`ScopeTree.Rooted.climb_eq`);
* `ScopeTree.rooted_tree` — all of it, after any requests.
-/

namespace ScopeTree

/-- What the scopes are asked for. -/
inductive Request where
  | newBlock (parent : ScopeId) (node : Option NodeId)
  | newWithItem (parent : ScopeId) (item : NodeId) (name : String)
  | newRecursiveItem (parent : ScopeId) (item : NodeId) (name : String)
  | addBinding (scope : ScopeId) (binding : Binding)

namespace Request

/-- The scope that a request names. -/
def scope : Request → ScopeId
  | newBlock parent _ | newWithItem parent _ _ | newRecursiveItem parent _ _ => parent
  | addBinding scope _ => scope

/-- What is done about a request, and the number of the scope that it adds. -/
def change (t : ScopeTree) : Request → Except Fault (Option ScopeId × ScopeTree)
  | newBlock parent node => (t.newBlock parent node).map fun (id, t') => (some id, t')
  | newWithItem parent item name => (t.newWithItem parent item name).map fun (id, t') => (some id, t')
  | newRecursiveItem parent item name =>
    (t.newRecursiveItem parent item name).map fun (id, t') => (some id, t')
  | addBinding scope binding => (t.addBinding scope binding).map fun t' => (none, t')

/-- The scopes after a request, also one that fails. -/
def perform (r : Request) : Checking ScopeTree (Option ScopeId) := .attempt fun t => r.change t

end Request

/-- The scopes after requests, one after the other. -/
abbrev after (t : ScopeTree) (requests : List Request) : ScopeTree :=
  Checking.after Request.perform t requests

/-- The catalog is the root. Every other scope has another role and lies one below an older scope. -/
structure Rooted (t : ScopeTree) : Prop where
  root : ∃ scope, t.get? rootId = some scope ∧ scope.parent = none ∧ scope.role = .catalog ∧
    scope.depth = 0
  below : ∀ id scope, t.get? id = some scope → id ≠ rootId → scope.role ≠ .catalog ∧
    ∃ parent around, scope.parent = some parent ∧ t.get? parent = some around ∧
      parent.index < id.index ∧ scope.depth = around.depth + 1

/-- Every scope is still there, with its parent, its role, its node and its depth. -/
def Settled (t t' : ScopeTree) : Prop :=
  ∀ id scope, t.get? id = some scope → ∃ scope', t'.get? id = some scope' ∧
    scope'.parent = scope.parent ∧ scope'.role = scope.role ∧ scope'.node = scope.node ∧
      scope'.depth = scope.depth

/-- The scopes that are met from `id` on, each the parent of the one before it; the last one has none. -/
inductive Climbs (t : ScopeTree) : ScopeId → List ScopeId → Prop
  | top {id} (h : (t.get? id).bind (·.parent) = none) : Climbs t id [id]
  | up {id parent rest} (h : (t.get? id).bind (·.parent) = some parent)
    (hrest : Climbs t parent rest) : Climbs t id (id :: rest)

/-- The way up from a scope: the only one, from the scope to the catalog scope, with numbers that
    decrease, and with as many scopes as the scope is deep and one more. -/
structure WayUp (t : ScopeTree) (id : ScopeId) (scope : Scope) (ids : List ScopeId) : Prop where
  climbs : ∀ ids', t.Climbs id ids' ↔ ids' = ids
  decreasing : ids.Pairwise fun inner outer => outer.index < inner.index
  head : ids.head? = some id
  last : ids.getLast? = some rootId
  length : ids.length = scope.depth + 1

/-- A lookup that asks a scope and goes on to its parent. There is no answer when it is stopped before
    it comes to an end. -/
def climb {α : Type} (t : ScopeTree) (ask : ScopeId → Scope → Except Fault (Option α)) :
    Nat → ScopeId → Option (Except Fault (Option α))
  | 0, _ => none
  | steps + 1, id =>
    match t.get? id with
    | none => some (.error (unknown id))
    | some scope =>
      match ask id scope with
      | .ok none =>
        match scope.parent with
        | none => some (.ok none)
        | some parent => t.climb ask steps parent
      | answer => some answer

variable {t t' : ScopeTree} {id : ScopeId} {scope : Scope}

/-! ### What a request does -/

/-- No scope is added below one that is not there. -/
theorem newScope_of_none (h : t.get? id = none) (role : ScopeRole) (node : Option NodeId) :
    t.newScope id role node = .error (unknown id) := by
  unfold newScope
  rw [h]

/-- Nor is a binding added to it. -/
theorem addBinding_of_none (h : t.get? id = none) (binding : Binding) :
    t.addBinding id binding = .error (unknown id) :=
  if_neg (Nat.not_lt.mpr (Array.getElem?_eq_none_iff.mp h))

/-- A binding can be added to a scope that is there. -/
theorem exists_addBinding (h : t.get? id = some scope) (binding : Binding) :
    ∃ t', t.addBinding id binding = .ok t' :=
  ⟨_, if_pos (lt_size_of_get? h)⟩

namespace Request

/-- The three ways to add a scope differ in its role and its node only. -/
theorem step_newScope {r : Request} {role : ScopeRole} (node : Option NodeId) (hrole : role ≠ .catalog)
    (h : r.change t = (t.newScope r.scope role node).map fun (id, t') => (some id, t')) :
    (t.get? r.scope = none ∧ r.perform t = (.error (unknown r.scope), t)) ∨
    ∃ role node id t', role ≠ .catalog ∧ t.newScope r.scope role node = .ok (id, t') ∧
      r.perform t = (.ok (some id), t') := by
  cases hget : t.get? r.scope with
  | none =>
    rw [newScope_of_none hget] at h
    exact .inl ⟨rfl, Checking.attempt_of_error h⟩
  | some around =>
    obtain ⟨t', hnew⟩ := exists_newScope (lt_size_of_get? hget) role node
    rw [hnew] at h
    exact .inr ⟨role, node, _, t', hrole, hnew, Checking.attempt_of_ok h⟩

/-- A request that names no scope is refused. Otherwise it adds a scope, but no catalog, below the one
    that it names, or a binding to that one. -/
theorem step (r : Request) (t : ScopeTree) :
    (t.get? r.scope = none ∧ r.perform t = (.error (unknown r.scope), t)) ∨
    (∃ role node id t', role ≠ .catalog ∧ t.newScope r.scope role node = .ok (id, t') ∧
      r.perform t = (.ok (some id), t')) ∨
    ∃ binding t', t.addBinding r.scope binding = .ok t' ∧ r.perform t = (.ok none, t') := by
  cases r with
  | newBlock parent node => exact (step_newScope node (by simp) rfl).imp_right .inl
  | newWithItem parent item name => exact (step_newScope (some item) (by simp) rfl).imp_right .inl
  | newRecursiveItem parent item name =>
    exact (step_newScope (some item) (by simp) rfl).imp_right .inl
  | addBinding id binding =>
    have hchange : (addBinding id binding).change t = (t.addBinding id binding).map fun t' => (none, t') :=
      rfl
    cases hget : t.get? id with
    | none =>
      rw [addBinding_of_none hget] at hchange
      exact .inl ⟨hget, Checking.attempt_of_error hchange⟩
    | some scope =>
      obtain ⟨t', hadd⟩ := exists_addBinding hget binding
      rw [hadd] at hchange
      exact .inr (.inr ⟨binding, t', hadd, Checking.attempt_of_ok hchange⟩)

end Request

/-! ### What stays -/

namespace Settled

theorem refl (t : ScopeTree) : t.Settled t := fun _ scope h => ⟨scope, h, rfl, rfl, rfl, rfl⟩

theorem trans {t'' : ScopeTree} (h : t.Settled t') (h' : t'.Settled t'') : t.Settled t'' := by
  intro id scope hget
  obtain ⟨scope', hget', hparent, hrole, hnode, hdepth⟩ := h id scope hget
  obtain ⟨scope'', hget'', hparent', hrole', hnode', hdepth'⟩ := h' id scope' hget'
  exact ⟨scope'', hget'', hparent'.trans hparent, hrole'.trans hrole, hnode'.trans hnode,
    hdepth'.trans hdepth⟩

theorem newScope {parent new : ScopeId} {role : ScopeRole} {node : Option NodeId}
    (hnew : t.newScope parent role node = .ok (new, t')) : t.Settled t' :=
  fun _ scope h => ⟨scope, get?_newScope_of_some hnew h, rfl, rfl, rfl, rfl⟩

theorem addBinding {binding : Binding} (hadd : t.addBinding id binding = .ok t') : t.Settled t' := by
  intro other scope h
  rw [get?_addBinding hadd]
  by_cases hid : other = id
  · subst hid
    rw [if_pos rfl, h]
    exact ⟨_, rfl, rfl, rfl, rfl, rfl⟩
  · rw [if_neg hid]
    exact ⟨scope, h, rfl, rfl, rfl, rfl⟩

theorem perform (r : Request) (t : ScopeTree) : t.Settled (r.perform t).2 := by
  rcases r.step t with ⟨-, h⟩ | ⟨role, node, id, t', -, hnew, h⟩ | ⟨binding, t', hadd, h⟩
  · rw [h]
    exact refl t
  · rw [h]
    exact newScope hnew
  · rw [h]
    exact addBinding hadd

theorem after (t : ScopeTree) (requests : List Request) : t.Settled (t.after requests) :=
  Checking.related_after refl (fun _ _ _ h h' => h.trans h') perform requests

end Settled

/-! ### The root and what lies below it -/

namespace Rooted

/-- Before all requests there is the catalog alone. -/
theorem empty : Rooted {} where
  root := ⟨.root, rfl, rfl, rfl, rfl⟩
  below id scope h hid := by
    obtain ⟨hlt, -⟩ := Array.getElem?_eq_some_iff.mp h
    exact absurd (congrArg ScopeId.mk (Nat.lt_one_iff.mp hlt)) hid

/-- What every scope has kept is in place among more scopes, too. -/
theorem of_settled (h : t.Rooted) (hs : t.Settled t')
    (hnew : ∀ id scope, t'.get? id = some scope → t.get? id = none → scope.role ≠ .catalog ∧
      ∃ parent around, scope.parent = some parent ∧ t.get? parent = some around ∧
        parent.index < id.index ∧ scope.depth = around.depth + 1) : t'.Rooted where
  root := by
    obtain ⟨root, hget, hparent, hrole, hdepth⟩ := h.root
    obtain ⟨root', hget', hparent', hrole', -, hdepth'⟩ := hs rootId root hget
    exact ⟨root', hget', hparent'.trans hparent, hrole'.trans hrole, hdepth'.trans hdepth⟩
  below id scope hget hid := by
    have hbelow : scope.role ≠ .catalog ∧ ∃ parent around, scope.parent = some parent ∧
        t.get? parent = some around ∧ parent.index < id.index ∧ scope.depth = around.depth + 1 := by
      cases hold : t.get? id with
      | none => exact hnew id scope hget hold
      | some old =>
        obtain ⟨scope', hscope', hparent, hrole, -, hdepth⟩ := hs id old hold
        obtain rfl := Option.some.inj (hscope'.symm.trans hget)
        rw [hparent, hrole, hdepth]
        exact h.below id old hold hid
    obtain ⟨hrole, parent, around, hparent, haround, hlt, hdepth⟩ := hbelow
    obtain ⟨around', haround', -, -, -, hsame⟩ := hs parent around haround
    exact ⟨hrole, parent, around', hparent, haround', hlt, hdepth.trans (hsame ▸ rfl)⟩

theorem newScope (h : t.Rooted) {parent new : ScopeId} {role : ScopeRole} {node : Option NodeId}
    (hrole : role ≠ .catalog) (hnew : t.newScope parent role node = .ok (new, t')) : t'.Rooted := by
  refine h.of_settled (.newScope hnew) fun id scope hget hnone => ?_
  obtain ⟨rfl, around, haround, hnext⟩ := get?_newScope hnew
  rw [hnext] at hget
  split at hget
  · rename_i heq
    cases hget
    -- The parent was there before, so it has a smaller number than the next one.
    exact ⟨hrole, parent, around, rfl, haround, heq ▸ lt_size_of_get? haround, rfl⟩
  · rw [hnone] at hget
    cases hget

theorem addBinding (h : t.Rooted) {binding : Binding} (hadd : t.addBinding id binding = .ok t') :
    t'.Rooted := by
  refine h.of_settled (.addBinding hadd) fun other scope hget hnone => ?_
  -- A binding makes no scope.
  obtain ⟨old, hold, -⟩ := exists_of_get?_addBinding hadd hget
  rw [hnone] at hold
  cases hold

theorem perform (r : Request) : r.perform.Keeps Rooted := by
  intro t h
  rcases r.step t with ⟨-, hr⟩ | ⟨role, node, id, t', hrole, hnew, hr⟩ | ⟨binding, t', hadd, hr⟩
  · rw [hr]
    exact h
  · rw [hr]
    exact h.newScope hrole hnew
  · rw [hr]
    exact h.addBinding hadd

theorem after (h : t.Rooted) (requests : List Request) : (t.after requests).Rooted :=
  Checking.keeps_after perform h requests

end Rooted

/-! ### The way up -/

namespace Rooted

/-- The catalog scope is the only one without a parent. -/
theorem parent_eq_none_iff (h : t.Rooted) (hget : t.get? id = some scope) :
    scope.parent = none ↔ id = rootId := by
  constructor
  · intro hnone
    by_contra hid
    obtain ⟨-, parent, -, hparent, -⟩ := h.below id scope hget hid
    rw [hnone] at hparent
    cases hparent
  · rintro rfl
    obtain ⟨root, hroot, hparent, -⟩ := h.root
    obtain rfl := Option.some.inj (hroot.symm.trans hget)
    exact hparent

/-- The only catalog, too. -/
theorem role_eq_catalog_iff (h : t.Rooted) (hget : t.get? id = some scope) :
    scope.role = .catalog ↔ id = rootId := by
  constructor
  · intro hrole
    by_contra hid
    exact (h.below id scope hget hid).1 hrole
  · rintro rfl
    obtain ⟨root, hroot, -, hrole, -⟩ := h.root
    obtain rfl := Option.some.inj (hroot.symm.trans hget)
    exact hrole

/-- A parent is an older scope, and one less deep. -/
theorem around_of_parent (h : t.Rooted) (hget : t.get? id = some scope) {parent : ScopeId}
    (hparent : scope.parent = some parent) : ∃ around, t.get? parent = some around ∧
      parent.index < id.index ∧ scope.depth = around.depth + 1 := by
  have hid : id ≠ rootId := fun hid => by
    rw [(h.parent_eq_none_iff hget).mpr hid] at hparent
    cases hparent
  obtain ⟨-, parent', around, hparent', haround, hlt, hdepth⟩ := h.below id scope hget hid
  obtain rfl := Option.some.inj (hparent.symm.trans hparent')
  exact ⟨around, haround, hlt, hdepth⟩

/-- What holds of the catalog scope, and of a scope when it holds of its parent, holds of all scopes:
    numbers decrease from a scope to its parent. -/
theorem induct {P : ScopeId → Scope → Prop} (h : t.Rooted)
    (root : ∀ scope, t.get? rootId = some scope → scope.parent = none → scope.depth = 0 →
      P rootId scope)
    (below : ∀ id scope parent around, t.get? id = some scope → scope.parent = some parent →
      t.get? parent = some around → parent.index < id.index → scope.depth = around.depth + 1 →
        P parent around → P id scope)
    (hget : t.get? id = some scope) : P id scope := by
  induction hindex : id.index using Nat.strongRecOn generalizing id scope with
  | _ index ih =>
    by_cases hid : id = rootId
    · subst hid
      obtain ⟨scope', hroot, hparent, -, hdepth⟩ := h.root
      obtain rfl := Option.some.inj (hroot.symm.trans hget)
      exact root _ hget hparent hdepth
    · obtain ⟨-, parent, around, hparent, haround, hlt, hdepth⟩ := h.below id scope hget hid
      exact below id scope parent around hget hparent haround hlt hdepth
        (ih parent.index (hindex ▸ hlt) haround rfl)

/-- The chain of a scope is the way up from it. -/
theorem climbs (h : t.Rooted) (hget : t.get? id = some scope) : t.Climbs id (t.chain id) := by
  refine h.induct (P := fun id _ => t.Climbs id (t.chain id)) ?_ ?_ hget
  · intro scope hget hparent _
    rw [chain_of_root hget hparent]
    exact .top (by rw [hget]; exact hparent)
  · intro id scope parent around hget hparent haround _ hdepth hclimbs
    rw [chain_of_parent hget hparent haround hdepth]
    exact .up (by rw [hget]; exact hparent) hclimbs

/-- It goes down in numbers, from the scope to the catalog scope. -/
theorem pairwise_chain (h : t.Rooted) (hget : t.get? id = some scope) :
    (∀ other ∈ t.chain id, other.index ≤ id.index) ∧
      (t.chain id).Pairwise fun inner outer => outer.index < inner.index := by
  refine h.induct (P := fun id _ => (∀ other ∈ t.chain id, other.index ≤ id.index) ∧
    (t.chain id).Pairwise fun inner outer => outer.index < inner.index) ?_ ?_ hget
  · intro scope hget hparent _
    rw [chain_of_root hget hparent]
    simp
  · rintro id scope parent around hget hparent haround hlt hdepth ⟨hle, hpairwise⟩
    rw [chain_of_parent hget hparent haround hdepth, List.forall_mem_cons, List.pairwise_cons]
    have hbelow : ∀ other ∈ t.chain parent, other.index < id.index := fun other hother =>
      Nat.lt_of_le_of_lt (hle other hother) hlt
    exact ⟨⟨Nat.le_refl _, fun other hother => Nat.le_of_lt (hbelow other hother)⟩, hbelow,
      hpairwise⟩

theorem getLast?_chain (h : t.Rooted) (hget : t.get? id = some scope) :
    (t.chain id).getLast? = some rootId := by
  refine h.induct (P := fun id _ => (t.chain id).getLast? = some rootId) ?_ ?_ hget
  · intro scope hget hparent _
    rw [chain_of_root hget hparent]
    rfl
  · intro id scope parent around hget hparent haround _ hdepth hlast
    rw [chain_of_parent hget hparent haround hdepth, List.getLast?_cons, hlast]
    rfl

/-- A scope has as many scopes around it as it is deep. -/
theorem length_chain (h : t.Rooted) (hget : t.get? id = some scope) :
    (t.chain id).length = scope.depth + 1 := by
  refine h.induct (P := fun id scope => (t.chain id).length = scope.depth + 1) ?_ ?_ hget
  · intro scope hget hparent hdepth
    rw [chain_of_root hget hparent, hdepth]
    rfl
  · intro id scope parent around hget hparent haround _ hdepth hlength
    rw [chain_of_parent hget hparent haround hdepth, List.length_cons, hlength, hdepth]

/-- A lookup comes to an end at the catalog scope, with what its first answer is along the chain. -/
theorem climb_eq {α : Type} (h : t.Rooted) (ask : ScopeId → Scope → Except Fault (Option α))
    (hget : t.get? id = some scope) {steps : Nat} (hsteps : scope.depth < steps) :
    t.climb ask steps id = some (t.firstAlong ask (t.chain id)) := by
  refine h.induct (P := fun id scope => ∀ steps, scope.depth < steps →
    t.climb ask steps id = some (t.firstAlong ask (t.chain id))) ?_ ?_ hget steps hsteps
  · intro scope hget hparent _ steps hsteps
    cases steps with
    | zero => exact absurd hsteps (Nat.not_lt_zero _)
    | succ steps =>
      rw [chain_of_root hget hparent, climb, firstAlong, hget]
      simp only [hparent, firstAlong]
      rcases ask rootId scope with e | _ | answer <;> rfl
  · intro id scope parent around hget hparent haround _ hdepth ih steps hsteps
    cases steps with
    | zero => exact absurd hsteps (Nat.not_lt_zero _)
    | succ steps =>
      rw [chain_of_parent hget hparent haround hdepth, climb, firstAlong, hget]
      simp only [hparent]
      rcases ask id scope with e | _ | answer
      · rfl
      · exact ih steps (by omega)
      · rfl

end Rooted

/-- There is one way up from a scope. -/
theorem Climbs.unique {ids ids' : List ScopeId} (h : t.Climbs id ids) (h' : t.Climbs id ids') :
    ids = ids' := by
  induction h generalizing ids' with
  | top hnone =>
    cases h' with
    | top => rfl
    | up hsome =>
      rw [hnone] at hsome
      cases hsome
  | up hsome _ ih =>
    cases h' with
    | top hnone =>
      rw [hnone] at hsome
      cases hsome
    | up hsome' hrest =>
      obtain rfl := Option.some.inj (hsome.symm.trans hsome')
      rw [ih hrest]

theorem Rooted.wayUp (h : t.Rooted) (hget : t.get? id = some scope) :
    t.WayUp id scope (t.chain id) where
  climbs _ := ⟨fun hclimbs => hclimbs.unique (h.climbs hget), fun heq => heq ▸ h.climbs hget⟩
  decreasing := (h.pairwise_chain hget).2
  head := t.head?_chain id
  last := h.getLast?_chain hget
  length := h.length_chain hget

/-- Whatever has been asked for, and whichever requests have failed, the scopes are a tree below the
    catalog. A request is refused exactly when it names no scope, and changes nothing then. The catalog
    scope is the only scope without a parent and the only catalog; every other scope has a greater
    number than its parent and is one deeper. Parent, role, node and depth of a scope stay whatever is
    asked for later. The chain of a scope is its way up, and every lookup is done after as many steps
    as there are scopes on it. -/
theorem rooted_tree (requests : List Request) (t : ScopeTree) (h : t = after {} requests) :
    (∀ r : Request, t.get? r.scope = none → r.perform t = (.error (unknown r.scope), t)) ∧
    (∀ (r : Request) (scope : Scope), t.get? r.scope = some scope →
      ∃ answer t', r.perform t = (.ok answer, t')) ∧
    (∃ root, t.get? rootId = some root) ∧
    (∀ id scope, t.get? id = some scope →
      (scope.parent = none ↔ id = rootId) ∧ (scope.role = .catalog ↔ id = rootId) ∧
      ∀ parent, scope.parent = some parent → ∃ around, t.get? parent = some around ∧
        parent.index < id.index ∧ scope.depth = around.depth + 1) ∧
    (∀ later, t.Settled (t.after later)) ∧
    (∀ id scope, t.get? id = some scope → t.WayUp id scope (t.chain id)) ∧
    ∀ (α : Type) (ask : ScopeId → Scope → Except Fault (Option α)) (id : ScopeId) (scope : Scope),
      t.get? id = some scope →
        t.climb ask (t.chain id).length id = some (t.firstAlong ask (t.chain id)) := by
  have hrooted : t.Rooted := h ▸ Rooted.empty.after requests
  refine ⟨fun r hnone => ?_, fun r scope hget => ?_, hrooted.root.imp fun _ hroot => hroot.1,
    fun id scope hget => ⟨hrooted.parent_eq_none_iff hget, hrooted.role_eq_catalog_iff hget,
      fun parent hparent => hrooted.around_of_parent hget hparent⟩,
    Settled.after t, fun id scope hget => hrooted.wayUp hget, fun α ask id scope hget => ?_⟩
  · rcases r.step t with ⟨-, hr⟩ | ⟨_, _, _, _, -, hnew, -⟩ | ⟨_, _, hadd, -⟩
    · exact hr
    · rw [newScope_of_none hnone] at hnew
      cases hnew
    · rw [addBinding_of_none hnone] at hadd
      cases hadd
  · rcases r.step t with ⟨hnone, -⟩ | ⟨_, _, id, t', -, -, hr⟩ | ⟨_, t', -, hr⟩
    · rw [hget] at hnone
      cases hnone
    · exact ⟨some id, t', hr⟩
    · exact ⟨none, t', hr⟩
  · rw [hrooted.length_chain hget]
    exact hrooted.climb_eq ask hget (Nat.lt_succ_self _)

/-- A block with a WITH item and the body of a recursive one below it, and a request that names no
    scope in between. -/
theorem rooted_tree_three_deep :
    let requests : List Request := [.newBlock rootId (some ⟨5⟩), .newWithItem ⟨1⟩ ⟨7⟩ "a",
      .newBlock ⟨9⟩ none, .newRecursiveItem ⟨2⟩ ⟨8⟩ "r", .addBinding ⟨1⟩ ⟨["T"], ⟨0⟩, false⟩]
    ∃ scope, (after {} requests).get? ⟨3⟩ = some scope ∧ scope.depth = 3 ∧
      (after {} requests).WayUp ⟨3⟩ scope [⟨3⟩, ⟨2⟩, ⟨1⟩, rootId] := by
  intro requests
  obtain ⟨-, -, -, -, -, hwayUp, -⟩ := rooted_tree requests _ rfl
  exact ⟨_, rfl, rfl, hwayUp ⟨3⟩ _ rfl⟩

end ScopeTree

end SqlTyping
