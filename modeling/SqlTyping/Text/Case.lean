namespace SqlTyping.Text

/-!
# Folding of letter case

Names are compared exactly or with the letters `a` to `z` folded to `A` to `Z`; characters outside
ASCII have no case here.

* `fold` — the folded name, idempotent (`fold_fold`);
* `sameIgnoringCase` — equality of folded names.
-/

/-- The name with ASCII letters in upper case and every other character kept. -/
def fold (s : String) : String := String.ofList (s.toList.map Char.toUpper)

/-- Whether two names differ at most in the case of ASCII letters. -/
def sameIgnoringCase (a b : String) : Bool := fold a == fold b

theorem sameIgnoringCase_iff {a b : String} : sameIgnoringCase a b = true ↔ fold a = fold b := by
  simp [sameIgnoringCase]

/-- Upper case is a fixed point of folding. -/
theorem toUpper_toUpper (c : Char) : c.toUpper.toUpper = c.toUpper := by
  unfold Char.toUpper
  split
  · rename_i h
    split
    -- The folded letter would have to be a lower-case one again.
    · rename_i h'
      exfalso
      simp only [UInt32.le_iff_toNat_le, UInt32.toNat_add] at h h'
      revert h h'
      simp
      omega
    · rfl
  · simp_all

/-- A folded name is its own folding. -/
@[simp] theorem fold_fold (s : String) : fold (fold s) = fold s := by
  have h : Char.toUpper ∘ Char.toUpper = Char.toUpper := funext toUpper_toUpper
  rw [fold, fold, String.toList_ofList, List.map_map, h]

end SqlTyping.Text
