import Mathlib.Algebra.Group.Nat.Defs
import Mathlib.Order.Bounds.Defs
import SqlTyping.Literal

namespace SqlTyping

/-!
# The precision of decimal literals

A decimal literal has the narrowest type that holds it:

* `Literal.decimalPrecision_le_iff` — the precisions that are wide enough for a literal;
* `Literal.type_decimal_narrowest` — its type has the least of them, and there is one up to 29.
-/

/-- A positive precision is enough for the digits of a decimal if the mantissa is below that power of
    ten. -/
theorem Fixed.digitCount_le_iff (d : Fixed) {p : Nat} (hp : 1 ≤ p) :
    d.digitCount ≤ p ↔ d.mantissa.natAbs < 10 ^ p :=
  Text.length_digits_le_iff hp

namespace Literal

/-- A precision is enough for a decimal if it has room for the places and for the digits. -/
theorem decimalPrecision_le_iff (d : Fixed) (p : Nat) :
    decimalPrecision d ≤ p ↔ 1 ≤ p ∧ d.scale ≤ p ∧ d.mantissa.natAbs < 10 ^ p := by
  rw [decimalPrecision, Nat.max_le, Nat.max_le]
  constructor
  · rintro ⟨⟨hdigits, hscale⟩, hpos⟩
    exact ⟨hpos, hscale, (d.digitCount_le_iff hpos).mp hdigits⟩
  · rintro ⟨hpos, hscale, hmantissa⟩
    exact ⟨⟨(d.digitCount_le_iff hpos).mpr hmantissa, hscale⟩, hpos⟩

/-- The precision is the least that is enough. -/
theorem decimalPrecision_isLeast (d : Fixed) :
    IsLeast {p | 1 ≤ p ∧ d.scale ≤ p ∧ d.mantissa.natAbs < 10 ^ p} (decimalPrecision d) :=
  ⟨(decimalPrecision_le_iff d _).mp (Nat.le_refl _), fun p hp => (decimalPrecision_le_iff d p).mpr hp⟩

/-- A mantissa of 96 bits has at most 29 digits. -/
theorem decimalPrecision_le (d : Fixed) : decimalPrecision d ≤ 29 := by
  have hmantissa : d.mantissa.natAbs < 10 ^ 29 := Nat.lt_of_lt_of_le d.natAbs_mantissa_lt (by decide)
  have hscale : d.scale ≤ 29 := Nat.le_trans d.scale_le (by decide)
  exact (decimalPrecision_le_iff d 29).mpr ⟨by decide, hscale, hmantissa⟩

/-- The type of a decimal literal is NOT NULL and has its scale, and the least precision with room for
    the places and for all digits. So the precision is no less than the scale and at most 29, and the
    digits in front of the point have room besides the places. -/
theorem type_decimal_narrowest (d : Fixed) :
    ∃ p, (decimal d).type =
        { name := .decimal, nullable := false, precision := some p, scale := some d.scale } ∧
      IsLeast {p | 1 ≤ p ∧ d.scale ≤ p ∧ d.mantissa.natAbs < 10 ^ p} p ∧
      d.scale ≤ p ∧ p ≤ 29 ∧ d.mantissa.natAbs / 10 ^ d.scale < 10 ^ (p - d.scale) := by
  obtain ⟨-, hscale, hmantissa⟩ := (decimalPrecision_isLeast d).1
  refine ⟨decimalPrecision d, rfl, decimalPrecision_isLeast d, hscale, decimalPrecision_le d, ?_⟩
  rw [Nat.div_lt_iff_lt_mul (Nat.pow_pos (by decide)), ← Nat.pow_add, Nat.sub_add_cancel hscale]
  exact hmantissa

-- One digit in the last of four places, and a power of ten.
example : decimalPrecision (.mk (-5) 4) = 4 ∧ decimalPrecision (.mk 1000 2) = 4 := by decide

end Literal

end SqlTyping
