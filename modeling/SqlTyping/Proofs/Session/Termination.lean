import SqlTyping.Proofs.Session.CallCoupling

namespace SqlTyping

/-!
# Validation ends

A statement without cycles stays one while casts are put into it, and validation goes through it without
getting as deep as it is allowed to go:

* `Tree.IsAcyclic` — no node lies below itself;
* `Tree.RewrittenFrom.isAcyclic` — casts that refer to nodes added before them add no cycle;
* `Tree.Grown` — the statement has come about by single insertions, without a cycle after any of them;
* `visitAt_grown` — it does so in a validation to any depth;
* `Coupling.same` — a statement beside itself;
* `validation_terminates` — validation does the same when it may go deeper, and whatever would be done instead
  of refusing a node that seems to lie below itself.
-/

open Checking

namespace Tree

variable {t₀ t t' : Tree}

/-- No node lies below itself. -/
def IsAcyclic (t : Tree) : Prop := ∀ id, ¬ Relation.TransGen t.Child id id

/-! ### Casts that have been added -/

/-- Every cast that has been added to `t₀` is of a node with a smaller number. -/
def CastsBelow (t₀ t : Tree) : Prop :=
  ∀ id operand target implicit, t₀.size ≤ id.index →
    t.node? id = some (.cast operand target implicit) → operand.index < id.index

theorem CastsBelow.refl (t : Tree) : CastsBelow t t := fun _ _ _ _ hnew hn =>
  absurd (lt_size_of_node? hn) (Nat.not_lt.mpr hnew)

theorem CastsBelow.pushCast (h : CastsBelow t₀ t) {operand : NodeId} (target : CastTarget)
    (hoperand : (t.node? operand).isSome = true) : CastsBelow t₀ (t.pushCast operand target true) := by
  intro id inner target' implicit hnew hn
  rw [Tree.pushCast, node?_push] at hn
  split at hn
  · rename_i hid
    cases hn
    subst hid
    exact isSome_node?_iff.mp hoperand
  · exact h id inner target' implicit hnew hn

/-- Every cast goes in above what it is a cast of. -/
theorem Inserts.castsBelow (hi : t.Inserts t') (h : CastsBelow t₀ t) : CastsBelow t₀ t' := by
  cases hi with
  | placeholder =>
    intro id operand target implicit hnew hn
    rw [node?_push] at hn
    split at hn
    · cases hn
    · exact h id operand target implicit hnew hn
  | looseCast operand target hoperand => exact h.pushCast target hoperand
  | cast call index operand target hoperand ht =>
    -- Pointing a call at the cast changes no cast.
    intro id inner target' implicit hnew hn
    refine h.pushCast target hoperand id inner target' implicit hnew ?_
    unfold replaceOperand? at ht
    split at ht
    · rename_i name operands hcall
      simp only [Option.ite_none_right_eq_some, Option.some.injEq] at ht
      obtain ⟨-, rfl⟩ := ht
      rw [node?_setNode, hcall] at hn
      split at hn
      · cases hn
      · exact hn
    · cases ht

/-- A statement without cycles stays one when casts of nodes added before them are put into it. -/
theorem RewrittenFrom.isAcyclic (hr : RewrittenFrom t₀ t) (hclosed : t₀.NoDangling)
    (hacyclic : t₀.IsAcyclic) (hbelow : CastsBelow t₀ t) : t.IsAcyclic := by
  have hacc : ∀ i (id : NodeId), id.index = i → Acc (fun y x => t.Child x y) id := by
    intro i
    induction i using Nat.strong_induction_on with
    | _ i ih =>
      intro id hid
      by_cases hold : id.index < t₀.size
      · exact hclosed.isClosed.acc_child hr (fun a _ => hacyclic a) hold .self
      -- What has been added refers to smaller numbers only.
      refine Acc.intro id fun y ⟨node, hn, hy⟩ => ?_
      rcases hr.added id (Nat.le_of_not_lt hold) (lt_size_of_node? hn) with
        ⟨operand, target, hcast, -⟩ | ⟨hdefault, -⟩
      · obtain rfl := Option.some.inj (hcast.symm.trans hn)
        obtain rfl := List.mem_singleton.mp hy
        have hless := hbelow id y target true (Nat.le_of_not_lt hold) hcast
        exact ih y.index (hid ▸ hless) y rfl
      · obtain rfl := Option.some.inj (hdefault.symm.trans hn)
        cases hy
  exact fun id => not_transGen_of_acc (hacc id.index id rfl)

/-! ### Insertions one after the other -/

/-- The tree has come from `t₀` by single insertions. After each of them no node is missing and none
    lies below itself. -/
inductive Grown (t₀ : Tree) : Tree → Prop
  | refl : Grown t₀ t₀
  | insert {t t' : Tree} (h : Grown t₀ t) (hi : t.Inserts t') (closed : t'.NoDangling)
    (acyclic : t'.IsAcyclic) : Grown t₀ t'

theorem Grown.isAcyclic (h : Grown t₀ t) (hacyclic : t₀.IsAcyclic) : t.IsAcyclic := by
  cases h with
  | refl => exact hacyclic
  | insert _ _ _ acyclic => exact acyclic

theorem Grown.castsBelow (h : Grown t₀ t) : CastsBelow t₀ t := by
  induction h with
  | refl => exact .refl t₀
  | insert _ hi _ _ ih => exact hi.castsBelow ih

end Tree

/-! ### The statement while it is validated -/

section

variable {t₀ : Tree} (hclosed : t₀.NoDangling) (hacyclic : t₀.IsAcyclic)

include hclosed hacyclic

/-- An insertion into what has grown from the statement adds no cycle. -/
theorem Session.Rewrites.grown {s : Session} (hs : s.Rewrites t₀) {t : Tree} (h : Tree.Grown t₀ t)
    (hi : t.Inserts s.tree) : Tree.Grown t₀ s.tree :=
  .insert h hi hs.closed
    (hs.rewritten.isAcyclic hclosed hacyclic (hi.castsBelow h.castsBelow))

/-- Validation to any depth changes the statement by insertions without cycles. -/
theorem visitAt_grown (depth : Nat) :
    (visitAt depth).Keeps fun s => s.Rewrites t₀ ∧ Tree.Grown t₀ s.tree := by
  have hinvariant : Session.Invariant 0 fun s => s.Rewrites t₀ ∧ Tree.Grown t₀ s.tree :=
    .ofTree fun s s' htree _ ⟨⟨hr, hd⟩, hgrown⟩ => ⟨⟨htree ▸ hr, htree ▸ hd⟩, htree ▸ hgrown⟩
  induction depth with
  | zero => exact ⟨fun _ _ => keeps_fail _, fun _ _ => keeps_fail _⟩
  | succ depth ih =>
    refine ⟨hinvariant.keeps_queryStep ih (visitAt_grows depth), fun scope =>
      hinvariant.keeps_expressionStep ih (fun scope id name operands s ⟨hs, hgrown⟩ hn => ?_) scope⟩
    obtain ⟨written, hcall, hw⟩ := hs.rewritten.call_of_call hn
    have hj : (visitAt depth).KeepsOperands t₀ written scope fun s => Tree.Grown t₀ s.tree := by
      refine ⟨fun s tree hi hs hgrown => ?_, fun _ _ h => h, fun s _ id hs hgrown _ => ?_⟩
      · exact hs.grown hclosed hacyclic hgrown hi
      · exact (ih.expression scope id s ⟨hs, hgrown⟩).2
    have hend := hj.keeps_call (fun t => visitAt_rewrites t₀ t depth) hcall ⟨hs, .refl _ _⟩ hgrown hn hw
    exact ⟨hend.1.1, hend.2⟩

end

/-! ### The same statement twice -/

/-- A statement without cycles beside itself. -/
def Coupling.same (t : Tree) (ops : OperatorTable) (hclosed : t.NoDangling) (hacyclic : t.IsAcyclic)
    (rank : NodeId → Nat) (hrank : ∀ p a, t.Child p a → rank a < rank p) : Coupling where
  before := t
  operators := ops
  sees := t.Has
  rank := rank
  shift := ⟨t.size, 0⟩
  spare := Eq
  trees u u' := u' = u
  types m m' := m' = m
  closed := hclosed
  acyclic := hacyclic
  rank_lt := hrank
  start := rfl
  lt_size _ h := h
  visits p a hp hv := hclosed.isClosed.child p a hp hv.child
  nextId := by
    rintro u _ rfl
    exact Shift.node_of_distance_zero rfl _
  size_le := by
    rintro u _ rfl
    exact Nat.le_refl _
  node := by
    rintro u _ id rfl -
    rw [Shift.node_of_distance_zero rfl]
    generalize Tree.node? _ id = n
    cases n with
    | none => exact .none
    | some n => exact .some (.refl (fun x _ => Shift.node_of_distance_zero rfl x) fun _ _ => rfl)
  isDefault_spare := by
    rintro u _ operand _ rfl rfl
    rfl
  push_default := by
    rintro u _ rfl
    rfl
  insertCast := by
    rintro u _ call name operands op index tree operand target rfl - - - - ht
    rw [Shift.node_of_distance_zero rfl]
    exact ⟨tree, ht, rfl⟩
  get? := by
    rintro m _ id rfl -
    rw [Shift.node_of_distance_zero rfl]
  put := by
    rintro m _ id type rfl -
    rw [Shift.node_of_distance_zero rfl]

/-- Sessions with the same statement that agree in all else are the same. -/
theorem Session.Couples.eq_of_same {t₀ past : Tree} {ops : OperatorTable} {hclosed : t₀.NoDangling}
    {hacyclic : t₀.IsAcyclic} {rank : NodeId → Nat} {hrank : ∀ p a, t₀.Child p a → rank a < rank p}
    {s t : Session} (h : s.Couples (.same t₀ ops hclosed hacyclic rank hrank) past t) : t = s := by
  obtain ⟨hsettings, hoperators, hoperators', hengine, hengine', hscopes, hsources, hreferences,
    hrequests, htree, htypes, -⟩ := h
  obtain ⟨settings, tree, operators, engine, scopes, sources, types, selfReferences, requests⟩ := s
  obtain ⟨settings', tree', operators', engine', scopes', sources', types', selfReferences',
    requests'⟩ := t
  have htree : tree' = tree := htree
  have htypes : types' = types := htypes
  simp only at hsettings hoperators hoperators' hengine hengine' hscopes hsources hreferences hrequests
  subst hsettings hscopes hsources hreferences hrequests htree htypes
  rw [hoperators, hoperators', hengine, hengine']

/-! ### Nodes that are missing -/

/-- A missing node is refused whatever is done below a node. -/
theorem queryStep_of_none {s : Session} {id : NodeId} (hn : s.tree.node? id = none) (v v' : Visit)
    (scope : ScopeId) : queryStep v scope id s = queryStep v' scope id s := by
  unfold queryStep
  rw [Host.lift_self, bind_of_error (node_of_none hn), bind_of_error (node_of_none hn)]

theorem expressionStepOr_of_none {s : Session} {id : NodeId} (hn : s.tree.node? id = none)
    (other other' v v' : Visit) (scope : ScopeId) :
    expressionStepOr other v scope id s = expressionStepOr other' v' scope id s := by
  have hpeel : s.tree.peelCasts s.tree.size id = ([], id) :=
    Tree.peelCasts_of_not_cast (fun _ _ _ hcast => by rw [hn] at hcast; cases hcast) _
  unfold expressionStepOr
  rw [bind_of_ok (state_apply s), bind_of_ok (state_apply s)]
  simp only [hpeel]
  rw [bind_of_error (node_of_none hn), bind_of_error (node_of_none hn)]

/-! ### Validation of a statement without cycles -/

section

variable {s : Session} (hengine : s.engine = .implicitCasts) (hclosed : s.tree.NoDangling)
  (hacyclic : s.tree.IsAcyclic)

include hengine hclosed hacyclic

/-- Going deeper than there are nodes changes nothing, whatever would be done there. -/
theorem Session.visitAt_maxDepth (other : Visit) (depth : Nat) (hdepth : s.maxDepth ≤ depth)
    (scope : ScopeId) (id : NodeId) :
    (other.over depth).query scope id s = (visitAt s.maxDepth).query scope id s ∧
      (other.over depth).expression scope id s = (visitAt s.maxDepth).expression scope id s := by
  obtain ⟨more, rfl⟩ := Nat.exists_eq_add_of_le hdepth
  by_cases hid : id.index < s.tree.size
  · obtain ⟨rank, hrank, hbound⟩ := hclosed.exists_rank hacyclic
    let c := Coupling.same s.tree s.operators hclosed hacyclic rank hrank
    have hstart : s.Couples c s.tree s :=
      ⟨rfl, rfl, rfl, hengine, hengine, rfl, rfl, rfl, rfl, rfl, rfl, ⟨⟨.refl _, hclosed⟩, .refl _ _⟩⟩
    have hroom : c.HasRoom s.maxDepth id := by
      have hless : rank id < s.tree.size := hbound id hid
      exact ⟨hid, Nat.succ_le_succ hless⟩
    -- Both runs end in the same session.
    have heq : ∀ {x y : Validation DataType}, EndAlike (Session.Couples c s.tree) Eq s s x y →
        y s = x s := by
      intro x y h
      rcases h.ends with ⟨a, b, s', t', hx, hy, rfl, hm⟩ | ⟨e, s', t', hx, hy, hm⟩
      · rw [hx, hy, hm.eq_of_same]
      · rw [hx, hy, hm.eq_of_same]
    have hcouples := visitAt_couples c other s.maxDepth more
    have hexpression := hcouples.expression scope id hstart hroom.isPart
    rw [show c.shift.node id = id from Shift.node_of_distance_zero rfl id] at hexpression
    exact ⟨heq (hcouples.query scope id hstart hroom), heq hexpression⟩
  · have hn : s.tree.node? id = none := by
      rw [← Option.not_isSome_iff_eq_none, Tree.isSome_node?_iff]
      exact hid
    rw [Session.maxDepth, Nat.succ_add, visitAt_eq_over]
    exact ⟨queryStep_of_none hn _ _ scope, expressionStepOr_of_none hn _ _ _ _ scope⟩

end

/-- A validation `x` comes to its end in `s`, and the statement keeps being without cycles. In
    `within other depth` it may go as deep as `depth`, and where it would get too deep or could not take all
    casts off, it goes on with `other`: it never gets there. -/
structure Validation.Terminates {α : Type} (x : Validation α) (within : Visit → Nat → Validation α)
    (s : Session) : Prop where
  ends : ∀ other depth, s.maxDepth ≤ depth → within other depth s = x s
  grown : Tree.Grown s.tree (x s).2.tree
  acyclic : (x s).2.tree.IsAcyclic

/-- Validation of any node of a statement without cycles, from any scope, ends, and after every cast that
    is put into the statement it still has no cycle. Nodes may be shared. -/
theorem validation_terminates (s : Session) (hengine : s.engine = .implicitCasts)
    (hclosed : s.tree.NoDangling) (hacyclic : s.tree.IsAcyclic) (scope : ScopeId) (id : NodeId) :
    (Session.validateQueryIn scope id).Terminates
        (fun other depth => (other.over depth).query scope id) s ∧
      (Session.deriveType scope id).Terminates
        (fun other depth => (other.over depth).expression scope id) s := by
  have hstart : s.Rewrites s.tree ∧ Tree.Grown s.tree s.tree := ⟨⟨.refl _, hclosed⟩, .refl⟩
  have hgrown := visitAt_grown hclosed hacyclic s.maxDepth
  have hquery := (hgrown.query scope id s hstart).2
  have hexpression := (hgrown.expression scope id s hstart).2
  have hsame := fun other depth hdepth =>
    Session.visitAt_maxDepth hengine hclosed hacyclic other depth hdepth scope id
  exact ⟨⟨fun other depth hdepth => (hsame other depth hdepth).1, hquery, hquery.isAcyclic hacyclic⟩,
    ⟨fun other depth hdepth => (hsame other depth hdepth).2, hexpression,
      hexpression.isAcyclic hacyclic⟩⟩

/-- `CONCAT(UPPER(5), UPPER(5))`, with the call of `UPPER` in two places. -/
theorem validation_terminates_concat :
    let tree := Tree.mk #[⟨.literal (.integer 5), ⟨13, 14⟩⟩, ⟨.call "UPPER" [⟨0⟩], ⟨7, 15⟩⟩,
      ⟨.call "CONCAT" [⟨1⟩, ⟨1⟩], ⟨0, 26⟩⟩]
    tree.NoDangling ∧ tree.IsAcyclic ∧
      (Session.deriveType ScopeTree.rootId ⟨2⟩).Terminates
        (fun other depth => (other.over depth).expression ScopeTree.rootId ⟨2⟩) { tree } := by
  intro tree
  have hclosed : tree.NoDangling := by decide
  have hacyclic : tree.IsAcyclic := Tree.acyclic_of_ordered (by decide)
  exact ⟨hclosed, hacyclic,
    (validation_terminates { tree } rfl hclosed hacyclic ScopeTree.rootId ⟨2⟩).2⟩

end SqlTyping
