import SqlTyping.Proofs.Signature.Positions
import SqlTyping.Signature.Check

namespace SqlTyping

/-!
# Keywords and the NULL literal

A keyword may be spelled in any way, also like the NULL literal. No check takes notice of that:

* `CallView.unspelled` — the call with keywords that are never the NULL literal;
* `Signature.check_unspelled` — with the standard engine it is checked in the same way.
-/

variable {σ : Type}

/-- The call in which the operands at the `hidden` positions do not count as NULL literals. -/
def CallView.unspelled (c : CallView σ) (hidden : Nat → Bool) : CallView σ :=
  { c with isNull := fun s index => !hidden index && c.isNull s index }

namespace Signature

variable {c : CallView σ} {hidden : Nat → Bool}

/-- Only IGNORE is asked for at a hidden position. -/
def Ignores (hidden : Nat → Bool) (positions : List Family) : Prop :=
  ∀ index family, hidden index = true → positions[index]? = some family → family = .ignore

theorem checkOperand_unspelled (index : Nat) (family : Family)
    (h : hidden index = true → family = .ignore) (positions : List Family)
    (omittable : Nat → Bool) :
    checkOperand (c.unspelled hidden) positions omittable index family =
      checkOperand c positions omittable index family := by
  unfold checkOperand
  by_cases hignore : family = .ignore
  · rw [if_pos hignore, if_pos hignore]
  · have hseen : hidden index = false := Bool.eq_false_iff.mpr fun hidden => hignore (h hidden)
    have hnull : ∀ s, (c.unspelled hidden).isNull s index = c.isNull s index := fun s => by
      simp only [CallView.unspelled, hseen, Bool.not_false, Bool.true_and]
    simp only [hnull]
    rfl

theorem checkFrom_unspelled {start : Nat} {families : List Family}
    (h : ∀ index family, hidden (start + index) = true → families[index]? = some family →
      family = .ignore) (positions : List Family) (omittable : Nat → Bool) :
    checkFrom (c.unspelled hidden) positions omittable start families =
      checkFrom c positions omittable start families := by
  induction families generalizing start with
  | nil => rfl
  | cons family rest ih =>
    unfold checkFrom
    rw [checkOperand_unspelled start family fun hd => h 0 family hd rfl]
    refine congrArg _ (funext fun _ => ih fun index family hd hf => h (index + 1) family ?_ hf)
    rwa [Nat.add_right_comm, Nat.add_assoc] at hd

variable {positions : List Family} (h : Ignores hidden positions) (omittable : Nat → Bool)

include h

theorem checkAll_unspelled :
    checkAll (c.unspelled hidden) positions omittable = checkAll c positions omittable :=
  checkFrom_unspelled (fun index family hd => h index family (by rwa [Nat.zero_add] at hd))
    positions omittable

theorem familiesStrict_unspelled :
    familiesStrict (c.unspelled hidden) positions omittable =
      familiesStrict c positions omittable := by
  unfold familiesStrict
  rw [checkAll_unspelled h]
  rfl

omit h in
/-- The standard engine does not ask for NULL literals. -/
theorem run_implicitCasts_unspelled (index : Nat) (converted : Bool)
    (pairs : List (DataType × Family)) :
    (CoercionPlan.implicitCasts index converted pairs).run (c.unspelled hidden) =
      (CoercionPlan.implicitCasts index converted pairs).run c := by
  induction pairs generalizing index converted with
  | nil => rfl
  | cons pair rest ih =>
    obtain ⟨source, family⟩ := pair
    funext s
    by_cases hpass : c.isDefault s index = true ∨ implicitCast? source family = none
    · have hpass' : (c.unspelled hidden).isDefault s index = true ∨ implicitCast? source family = none :=
        hpass
      rw [CoercionPlan.run_implicitCasts_pass hpass', ih]
      exact (CoercionPlan.run_implicitCasts_pass hpass).symm
    · obtain ⟨hd, hsome⟩ := not_or.mp hpass
      obtain ⟨target, hto⟩ := Option.ne_none_iff_exists'.mp hsome
      have hd : c.isDefault s index = false := by simpa using hd
      have hd' : (c.unspelled hidden).isDefault s index = false := hd
      rw [CoercionPlan.run_implicitCasts_cast hd' hto]
      simp only [ih]
      exact (CoercionPlan.run_implicitCasts_cast hd hto).symm

variable (hengine : c.engine = .implicitCasts)

include hengine

theorem familiesCheck_unspelled :
    familiesCheck (c.unspelled hidden) positions omittable =
      familiesCheck c positions omittable := by
  have hcoerce : ∀ types, (c.unspelled hidden).coerce types positions = c.coerce types positions := by
    intro types
    unfold CallView.coerce
    refine congrArg _ (funext fun _ => congrArg _ (funext fun _ => ?_))
    show ((c.engine.plan _ _ _).run (c.unspelled hidden)) = (c.engine.plan _ _ _).run c
    rw [hengine]
    exact run_implicitCasts_unspelled 0 false _
  unfold familiesCheck
  rw [checkAll_unspelled h, familiesStrict_unspelled h]
  simp only [hcoerce]
  rfl

end Signature

namespace Signature

variable {c : CallView σ} {hidden : Nat → Bool}

mutual

theorem checkStrict_unspelled : ∀ {signature : Signature},
    (∀ positions omittable, families positions omittable ∈ signature.leaves →
      Ignores hidden positions) →
    signature.checkStrict (c.unspelled hidden) = signature.checkStrict c
  | families positions omittable, h =>
    familiesStrict_unspelled (h positions omittable (by simp [leaves])) omittable
  | oneOf alternatives, h => by
    unfold checkStrict
    rw [anyStrict_unspelled alternatives (by simpa [leaves] using h)]
    rfl
  | openEnded _ _, _ => rfl

theorem anyStrict_unspelled : ∀ (alternatives : List Signature),
    (∀ positions omittable, families positions omittable ∈ leavesOf alternatives →
      Ignores hidden positions) →
    anyStrict (c.unspelled hidden) alternatives = anyStrict c alternatives
  | [], _ => rfl
  | signature :: rest, h => by
    simp only [leavesOf, List.mem_append] at h
    unfold anyStrict
    rw [checkStrict_unspelled fun positions omittable hl => h positions omittable (.inl hl),
      anyStrict_unspelled rest fun positions omittable hl => h positions omittable (.inr hl)]

end

mutual

theorem check_unspelled_of_leaves (hengine : c.engine = .implicitCasts) : ∀ {signature : Signature},
    (∀ positions omittable, families positions omittable ∈ signature.leaves →
      Ignores hidden positions) →
    signature.check (c.unspelled hidden) = signature.check c
  | families positions omittable, h =>
    familiesCheck_unspelled (h positions omittable (by simp [leaves])) omittable hengine
  | oneOf alternatives, h => by
    have h : ∀ positions omittable, families positions omittable ∈ leavesOf alternatives →
      Ignores hidden positions := by simpa [leaves] using h
    unfold check
    rw [anyStrict_unspelled _ h, anyCheck_unspelled hengine h]
    rfl
  | openEnded _ _, _ => rfl

theorem anyCheck_unspelled (hengine : c.engine = .implicitCasts) :
    ∀ {alternatives : List Signature},
    (∀ positions omittable, families positions omittable ∈ leavesOf alternatives →
      Ignores hidden positions) →
    anyCheck (c.unspelled hidden) alternatives = anyCheck c alternatives
  | [], _ => rfl
  | signature :: rest, h => by
    simp only [leavesOf, List.mem_append] at h
    unfold anyCheck
    rw [check_unspelled_of_leaves hengine fun positions omittable hl => h positions omittable (.inl hl),
      anyCheck_unspelled hengine fun positions omittable hl => h positions omittable (.inr hl)]

end

/-- With the standard engine it does not matter whether a keyword is the NULL literal. -/
theorem check_unspelled (hengine : c.engine = .implicitCasts) (signature : Signature) :
    signature.check (c.unspelled signature.isKeyword) = signature.check c := by
  refine check_unspelled_of_leaves hengine fun positions omittable hleaf index family hkey hf => ?_
  have hi := (List.getElem?_eq_some_iff.mp hf).1
  rw [ignore_of_isKeyword hkey hleaf hi] at hf
  exact (Option.some.inj hf).symm

end Signature

end SqlTyping
