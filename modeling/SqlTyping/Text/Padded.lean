namespace SqlTyping.Text

/-!
# Numbers padded with zeros

* `digits` — the decimal digits of a number, which tell it (`digits_injective`);
* `padded` — the digits with zeros in front up to a width, never cut. Texts of one width tell their
  numbers (`padded_injective`), and a number that fits the width fills it (`length_padded`).
-/

/-- The decimal digits of `n`, without leading zeros; zero is `0`. -/
def digits (n : Nat) : List Char := Nat.toDigits 10 n

/-- The digits of `n` with zeros in front, at least `width` characters. -/
def padded (width n : Nat) : String :=
  String.ofList (List.replicate (width - (digits n).length) '0' ++ digits n)

/-- A number is told by its digits. -/
theorem digits_injective : Function.Injective digits := by
  intro m n h
  have hvalue : Nat.ofDigitChars 10 (digits m) 0 = Nat.ofDigitChars 10 (digits n) 0 := by rw [h]
  simpa only [digits, Nat.ofDigitChars_ten_toDigits] using hvalue

/-- A number has at most `k` digits if it is below the `k`-th power of ten. -/
theorem length_digits_le_iff {n k : Nat} (hk : 0 < k) : (digits n).length ≤ k ↔ n < Nat.pow 10 k :=
  Nat.length_toDigits_le_iff (by decide) hk

theorem toList_padded (width n : Nat) :
    (padded width n).toList = List.replicate (width - (digits n).length) '0' ++ digits n :=
  String.toList_ofList

/-- Padding adds no value. -/
theorem ofDigitChars_padded (width n : Nat) : Nat.ofDigitChars 10 (padded width n).toList 0 = n := by
  rw [toList_padded, Nat.ofDigitChars_append, Nat.ofDigitChars_replicate_zero, Nat.mul_zero, digits,
    Nat.ofDigitChars_ten_toDigits]

/-- A number is told by its padded digits. -/
theorem padded_injective (width : Nat) : Function.Injective (padded width) := by
  intro m n h
  rw [← ofDigitChars_padded width m, h, ofDigitChars_padded]

theorem isDigit_of_mem_padded {width n : Nat} {c : Char} (h : c ∈ (padded width n).toList) :
    c.isDigit = true := by
  rw [toList_padded, List.mem_append] at h
  rcases h with hzero | hdigit
  · rw [List.eq_of_mem_replicate hzero]
    rfl
  · exact Nat.isDigit_of_mem_toDigits (by decide) (by decide) hdigit

/-- A number with at most `width` digits is padded to just that width. -/
theorem length_padded {width n : Nat} (hpos : 0 < width) (h : n < Nat.pow 10 width) :
    (padded width n).length = width := by
  have hdigits : (digits n).length ≤ width := (length_digits_le_iff hpos).mpr h
  rw [← String.length_toList, toList_padded, List.length_append, List.length_replicate,
    Nat.sub_add_cancel hdigits]

example : padded 4 45 = "0045" := by decide

example : padded 2 123 = "123" := by decide

end SqlTyping.Text
