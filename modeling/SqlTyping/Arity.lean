namespace SqlTyping

/-!
# Numbers of operands

* `Arity` — an interval of operand counts, unbounded above when `most` is absent;
* `Arity.admits` — membership of a count;
* `Arity.union` — the least interval that covers two (`admits_union_left`, `admits_union_right`).
-/

/-- An interval of operand counts. -/
structure Arity where
  least : Nat
  most : Option Nat
  deriving DecidableEq, Repr

namespace Arity

/-- From `least` to `most` operands. -/
def between (least most : Nat) : Arity := ⟨least, some most⟩

/-- Exactly `count` operands. -/
def exactly (count : Nat) : Arity := between count count

/-- At least `least` operands. -/
def atLeast (least : Nat) : Arity := ⟨least, none⟩

/-- Whether a count lies in the interval. -/
def admits (a : Arity) (count : Nat) : Bool :=
  a.least ≤ count && match a.most with
    | some most => count ≤ most
    | none => true

/-- A count lies in the interval when it reaches the lower end and no upper end is below it. -/
theorem admits_iff {a : Arity} {count : Nat} :
    a.admits count = true ↔ a.least ≤ count ∧ ∀ most, a.most = some most → count ≤ most := by
  obtain ⟨least, most⟩ := a
  cases most <;> simp [admits]

/-- The least interval that covers both. -/
def union (a b : Arity) : Arity where
  least := min a.least b.least
  most := match a.most, b.most with
    | some x, some y => some (max x y)
    | _, _ => none

/-- The union covers the first interval. -/
theorem admits_union_left {a b : Arity} {count : Nat} (h : a.admits count = true) :
    (a.union b).admits count = true := by
  obtain ⟨al, am⟩ := a
  obtain ⟨bl, bm⟩ := b
  rw [admits_iff] at h ⊢
  refine ⟨Nat.le_trans (Nat.min_le_left al bl) h.1, fun most hm => ?_⟩
  cases am with
  | none => simp [union] at hm
  | some x =>
    cases bm with
    | none => simp [union] at hm
    | some y =>
      obtain rfl := Option.some.inj hm
      exact Nat.le_trans (h.2 x rfl) (Nat.le_max_left x y)

/-- The order of the two intervals does not matter. -/
theorem union_comm (a b : Arity) : a.union b = b.union a := by
  obtain ⟨al, am⟩ := a
  obtain ⟨bl, bm⟩ := b
  cases am <;> cases bm <;> simp [union, Nat.min_comm, Nat.max_comm]

/-- The union covers the second interval. -/
theorem admits_union_right {a b : Arity} {count : Nat} (h : b.admits count = true) :
    (a.union b).admits count = true := by
  rw [union_comm]
  exact admits_union_left h

/-- The grouping of three intervals does not matter. -/
theorem union_assoc (a b c : Arity) : (a.union b).union c = a.union (b.union c) := by
  obtain ⟨al, am⟩ := a
  obtain ⟨bl, bm⟩ := b
  obtain ⟨cl, cm⟩ := c
  cases am <;> cases bm <;> cases cm <;> simp [union, Nat.min_assoc, Nat.max_assoc]

/-- The interval as shown in messages. -/
def text (a : Arity) : String :=
  match a.most with
  | some most => if most = a.least then s!"{most}" else s!"{a.least} to {most}"
  | none => s!"{a.least} or more"

end Arity

end SqlTyping
