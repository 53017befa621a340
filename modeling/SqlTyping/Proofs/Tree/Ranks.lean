import Mathlib.Data.Fintype.Card
import SqlTyping.Proofs.Tree.Forest

namespace SqlTyping

/-!
# Ranks

Where no node lies below itself, a node has at most as many nodes below it as there are others:

* `exists_rank` — the nodes below a node, counted, get fewer with each step down;
* `Tree.IsClosed` — a part of a tree with everything below it;
* `Tree.IsClosed.acc_child` — a rewritten tree does not go round below a part that has no cycles;
* `Tree.IsClosed.peelCasts_ends` — so taking off as many casts as there are nodes leaves none there.
-/

variable {r : NodeId → NodeId → Prop}

/-- A relation between finitely many nodes without cycles has a rank below their number. -/
theorem exists_rank {n : Nat} (hlt : ∀ p c, r p c → c.index < n)
    (hacyclic : ∀ id, ¬ Relation.TransGen r id id) :
    ∃ rank : NodeId → Nat, (∀ p c, r p c → rank c < rank p) ∧
      ∀ id, id.index < n → rank id < n := by
  classical
  -- The rank counts what can be reached.
  let reached (id : NodeId) : Finset (Fin n) :=
    Finset.univ.filter fun i => Relation.TransGen r id ⟨i⟩
  have hmem : ∀ id (i : Fin n), i ∈ reached id ↔ Relation.TransGen r id ⟨i⟩ := fun id i => by
    simp [reached]
  refine ⟨fun id => (reached id).card, fun p c hpc => ?_, fun id hid => ?_⟩
  · have hc := hlt p c hpc
    apply Finset.card_lt_card
    refine Finset.ssubset_iff_subset_ne.mpr ⟨fun i hi => ?_, fun heq => ?_⟩
    · exact (hmem p i).mpr (Relation.TransGen.head hpc ((hmem c i).mp hi))
    · have hp : (⟨c.index, hc⟩ : Fin n) ∈ reached p := (hmem p _).mpr (.single hpc)
      rw [← heq] at hp
      exact hacyclic c ((hmem c _).mp hp)
  · have hcard : (reached id).card < (Finset.univ : Finset (Fin n)).card := by
      apply Finset.card_lt_card
      refine Finset.ssubset_iff_subset_ne.mpr ⟨Finset.subset_univ _, fun heq => ?_⟩
      have hself : (⟨id.index, hid⟩ : Fin n) ∈ reached id := by
        rw [heq]
        exact Finset.mem_univ _
      exact hacyclic id ((hmem id _).mp hself)
    simpa using hcard

/-- What can only be left finitely often is not reached from itself. -/
theorem not_transGen_of_acc {x : NodeId} (h : Acc (fun y x => r x y) x) :
    ¬ Relation.TransGen r x x := by
  induction h with
  | intro x _ ih =>
    intro hloop
    rcases Relation.TransGen.head'_iff.mp hloop with ⟨y, hxy, hyx⟩
    exact ih y hxy (Relation.TransGen.tail' hyx hxy)

namespace Tree

variable {t₀ t : Tree} {id core : NodeId} {casts : List (NodeId × CastTarget)}

/-! ### Children in a rewritten tree -/

/-- A child of an original node wraps an original child of it. -/
theorem RewrittenFrom.child {a y : NodeId} (hr : RewrittenFrom t₀ t) (ha : a.index < t₀.size)
    (hc : t.Child a y) : ∃ c, t₀.Child a c ∧ Wraps t₀ t c y := by
  obtain ⟨node, hn, hmem⟩ := hc
  cases node with
  | call name operands =>
    obtain ⟨written, hwritten, hw⟩ := hr.call_of_call hn
    obtain ⟨i, hi, rfl⟩ := List.getElem_of_mem hmem
    have hi' : i < written.length := by
      rw [hw.length_eq]
      exact hi
    exact ⟨written[i], ⟨_, hwritten, List.getElem_mem hi'⟩, hw.get hi' hi⟩
  | _ => exact ⟨y, ⟨_, hr.node?_eq ha hn rfl, hmem⟩, .self⟩

/-- A child of what wraps a node wraps the node itself or a child of it. -/
theorem Wraps.child {a x y : NodeId} (hw : Wraps t₀ t a x) (hr : RewrittenFrom t₀ t)
    (ha : a.index < t₀.size) (hc : t.Child x y) :
    Wraps t₀ t a y ∨ ∃ c, t₀.Child a c ∧ Wraps t₀ t c y := by
  cases hw with
  | self => exact .inr (hr.child ha hc)
  | cast hnew hcast hw =>
    obtain ⟨node, hn, hmem⟩ := hc
    obtain rfl := Option.some.inj (hcast.symm.trans hn)
    obtain rfl := List.mem_singleton.mp hmem
    exact .inl hw

/-! ### Parts that do not go round -/

/-- Nodes of the tree with all their children. -/
structure IsClosed (t : Tree) (own : NodeId → Prop) : Prop where
  lt_size : ∀ a, own a → a.index < t.size
  child : ∀ a c, own a → t.Child a c → own c

/-- The node is one of the tree. -/
def Has (t : Tree) (id : NodeId) : Prop := id.index < t.size

/-- The nodes of a tree in which none is missing. -/
theorem NoDangling.isClosed (h : t.NoDangling) : t.IsClosed t.Has := by
  refine ⟨fun _ ha => ha, ?_⟩
  rintro a c _ ⟨node, hn, hmem⟩
  exact isSome_node?_iff.mp (h a node hn c hmem)

variable {own : NodeId → Prop}

/-- What lies below one of the nodes is one of them. -/
theorem IsClosed.of_reach {a x : NodeId} (hown : t.IsClosed own) (ha : own a)
    (hx : Relation.ReflTransGen t.Child a x) : own x := by
  induction hx with
  | refl => exact ha
  | tail _ hc ih => exact hown.child _ _ ih hc

/-- Everything below one of the nodes. -/
theorem IsClosed.reach {a : NodeId} (hown : t.IsClosed own) (ha : own a) :
    t.IsClosed (Relation.ReflTransGen t.Child a) :=
  ⟨fun x hx => hown.lt_size x (hown.of_reach ha hx), fun _ _ hx hc => hx.tail hc⟩

/-- Everything below a node of a tree in which none is missing. -/
theorem NoDangling.isClosed_reach (h : t.NoDangling) {a : NodeId} (ha : a.index < t.size) :
    t.IsClosed (Relation.ReflTransGen t.Child a) := h.isClosed.reach ha

/-- Where no node lies below itself, the nodes of a part have ranks below their number. -/
theorem IsClosed.exists_rank (hown : t₀.IsClosed own)
    (hacyclic : ∀ a, own a → ¬ Relation.TransGen t₀.Child a a) :
    ∃ rank : NodeId → Nat, (∀ p c, own p → t₀.Child p c → rank c < rank p) ∧
      ∀ a, own a → rank a < t₀.size := by
  have hloop : ∀ a, ¬ Relation.TransGen (fun p c => own p ∧ t₀.Child p c) a a := by
    intro a h
    obtain ⟨_, ⟨ha, -⟩, -⟩ := Relation.TransGen.head'_iff.mp h
    exact hacyclic a ha (Relation.TransGen.mono (fun _ _ h => h.2) _ _ h)
  obtain ⟨rank, hrank, hbound⟩ :=
    SqlTyping.exists_rank (fun p c h => hown.lt_size c (hown.child p c h.1 h.2)) hloop
  exact ⟨rank, fun p c hp hc => hrank p c ⟨hp, hc⟩, fun a ha => hbound a (hown.lt_size a ha)⟩

/-- Where ranks get smaller downwards no node lies below itself. -/
theorem IsClosed.acyclic_of_rank {rank : NodeId → Nat} (hown : t₀.IsClosed own)
    (hrank : ∀ p c, own p → t₀.Child p c → rank c < rank p) (a : NodeId) (ha : own a) :
    ¬ Relation.TransGen t₀.Child a a := by
  have hless : ∀ x, Relation.TransGen t₀.Child a x → own x ∧ rank x < rank a := by
    intro x hx
    induction hx with
    | single hc => exact ⟨hown.child _ _ ha hc, hrank _ _ ha hc⟩
    | tail _ hc ih => exact ⟨hown.child _ _ ih.1 hc, (hrank _ _ ih.1 hc).trans ih.2⟩
  exact fun hloop => Nat.lt_irrefl _ (hless a hloop).2

/-- All nodes of a tree without cycles have ranks. -/
theorem NoDangling.exists_rank (h : t.NoDangling) (hacyclic : ∀ a, ¬ Relation.TransGen t.Child a a) :
    ∃ rank : NodeId → Nat, (∀ p c, t.Child p c → rank c < rank p) ∧
      ∀ a, a.index < t.size → rank a < t.size := by
  obtain ⟨rank, hrank, hbound⟩ := h.isClosed.exists_rank fun a _ => hacyclic a
  refine ⟨rank, ?_, hbound⟩
  rintro p c ⟨n, hn, hc⟩
  exact hrank p c (lt_size_of_node? hn) ⟨n, hn, hc⟩

/-- A node of a part, with a depth that goes beyond all nodes below it. -/
def HasRoom (own : NodeId → Prop) (rank : NodeId → Nat) (depth : Nat) (a : NodeId) : Prop :=
  own a ∧ rank a + 2 ≤ depth

section

variable {rank : NodeId → Nat} {depth : Nat} {a c : NodeId} (hown : t₀.IsClosed own)
  (hrank : ∀ p c, own p → t₀.Child p c → rank c < rank p)

include hown hrank

/-- One step down takes one off the depth that is needed. -/
theorem HasRoom.below (h : HasRoom own rank (depth + 1) a) (hc : t₀.Child a c) :
    HasRoom own rank depth c := by
  have hless := hrank a c h.1 hc
  have hroom := h.2
  exact ⟨hown.child a c h.1 hc, by omega⟩

theorem HasRoom.child (h : HasRoom own rank depth a) (hc : t₀.Child a c) :
    HasRoom own rank depth c := by
  have hless := hrank a c h.1 hc
  have hroom := h.2
  exact ⟨hown.child a c h.1 hc, by omega⟩

end

/-- A rewritten tree does not go round below a part when the original one does not. -/
theorem IsClosed.acc_child (hown : t₀.IsClosed own) (hr : RewrittenFrom t₀ t)
    (hacyclic : ∀ a, own a → ¬ Relation.TransGen t₀.Child a a) {a x : NodeId} (ha : own a)
    (hw : Wraps t₀ t a x) : Acc (fun y x => t.Child x y) x := by
  obtain ⟨rank, hrank, -⟩ := hown.exists_rank hacyclic
  -- By the rank of the original node, then by the casts around it.
  have hall : ∀ n a, rank a = n → own a → ∀ x, Wraps t₀ t a x → Acc (fun y x => t.Child x y) x := by
    intro n
    induction n using Nat.strong_induction_on with
    | _ n ih =>
      intro a hn ha x hw
      induction hw with
      | self =>
        refine Acc.intro a fun y hy => ?_
        obtain ⟨c, hc, hwc⟩ := hr.child (hown.lt_size a ha) hy
        exact ih (rank c) (hn ▸ hrank a c ha hc) c rfl (hown.child a c ha hc) y hwc
      | cast _ hcast _ ihw =>
        refine Acc.intro _ fun y ⟨node, hnode, hy⟩ => ?_
        obtain rfl := Option.some.inj (hcast.symm.trans hnode)
        obtain rfl := List.mem_singleton.mp hy
        exact ihw
  exact hall _ a rfl ha x hw

/-! ### Casts -/

/-- The node is around a node of the part, and is a cast of the other one. -/
def CastsPart (t₀ t : Tree) (own : NodeId → Prop) (x y : NodeId) : Prop :=
  (∃ a, own a ∧ Wraps t₀ t a x) ∧ ∃ target implicit, t.node? x = some (.cast y target implicit)

/-- What a cast around a node of a part is of, is around one as well. -/
theorem CastsPart.wraps {x y : NodeId} (h : CastsPart t₀ t own x y) (hr : RewrittenFrom t₀ t)
    (hown : t₀.IsClosed own) : ∃ a, own a ∧ Wraps t₀ t a y := by
  obtain ⟨⟨a, ha, hw⟩, target, implicit, hn⟩ := h
  cases hw with
  | self =>
    have hwritten := hr.node?_eq (hown.lt_size x ha) hn rfl
    exact ⟨y, hown.child x y ha ⟨_, hwritten, by simp [Node.children]⟩, .self⟩
  | cast _ hcast hw =>
    rw [hn] at hcast
    cases hcast
    exact ⟨a, ha, hw⟩

/-- Casts around a node do not go round. -/
theorem IsClosed.acc_castsPart (hown : t₀.IsClosed own) (hr : RewrittenFrom t₀ t)
    (hacyclic : ∀ a, own a → ¬ Relation.TransGen t₀.Child a a) {a x : NodeId} (ha : own a)
    (hw : Wraps t₀ t a x) : Acc (fun y x => CastsPart t₀ t own x y) x := by
  refine Subrelation.accessible ?_ (hown.acc_child hr hacyclic ha hw)
  rintro y x ⟨-, target, implicit, hn⟩
  exact ⟨_, hn, by simp [Node.children]⟩

/-- Taking off as many casts as there are nodes leaves none. -/
theorem IsClosed.peelCasts_ends (hown : t₀.IsClosed own) (hr : RewrittenFrom t₀ t)
    (hclosed : t.NoDangling) (hacyclic : ∀ a, own a → ¬ Relation.TransGen t₀.Child a a) {a : NodeId}
    (ha : own a) (hw : Wraps t₀ t a id) (hpeel : t.peelCasts t.size id = (casts, core))
    (operand : NodeId) (target : CastTarget) (implicit : Bool) :
    t.node? core ≠ some (.cast operand target implicit) := by
  have hloop : ∀ x, ¬ Relation.TransGen (CastsPart t₀ t own) x x := by
    intro x h
    obtain ⟨y, ⟨⟨a, ha, hw⟩, -⟩, -⟩ := Relation.TransGen.head'_iff.mp h
    exact not_transGen_of_acc (hown.acc_castsPart hr hacyclic ha hw) h
  have hlt : ∀ x y, CastsPart t₀ t own x y → y.index < t.size := by
    rintro x y ⟨-, target, implicit, hn⟩
    exact isSome_node?_iff.mp (hclosed x _ hn y (by simp [Node.children]))
  obtain ⟨rank, hrank, hbound⟩ := SqlTyping.exists_rank hlt hloop
  have hends : ∀ fuel id casts, rank id ≤ fuel → (∃ a, own a ∧ Wraps t₀ t a id) →
      t.peelCasts fuel id = (casts, core) →
        ∀ operand target implicit, t.node? core ≠ some (.cast operand target implicit) := by
    intro fuel
    induction fuel with
    | zero =>
      rintro id casts hfuel hw ⟨⟩ operand target implicit hn
      have := hrank core operand ⟨hw, target, implicit, hn⟩
      omega
    | succ fuel ih =>
      intro id casts hfuel hw hpeel
      unfold peelCasts at hpeel
      split at hpeel
      · rename_i inner target implicit hn
        have hstep : CastsPart t₀ t own id inner := ⟨hw, target, implicit, hn⟩
        have hless := hrank id inner hstep
        obtain ⟨rest, core', hinner⟩ : ∃ rest core', t.peelCasts fuel inner = (rest, core') :=
          ⟨_, _, rfl⟩
        simp only [hinner, Prod.mk.injEq] at hpeel
        obtain ⟨-, rfl⟩ := hpeel
        exact ih inner rest (by omega) (hstep.wraps hr hown) hinner
      · rename_i hn
        cases hpeel
        exact hn
  have hid := hw.lt_size (Nat.lt_of_lt_of_le (hown.lt_size a ha) hr.size_le)
  exact hends t.size id casts (Nat.le_of_lt (hbound id hid)) ⟨a, ha, hw⟩ hpeel operand target implicit

end Tree

end SqlTyping
