namespace SqlTyping

/-!
# Binary floating-point numbers

A 64-bit floating-point number is kept as its bits, so that every pattern survives unchanged.

* `Double` — the bits, with `isNaN`, `isInfinite` and the sign;
* `Double.magnitude` — a finite number as `mantissa * 2 ^ exponent`;
* `Double.sameValue` — equality of values: no NaN equals anything, and the two zeros are equal.
-/

/-- A 64-bit floating-point number, by its bits. -/
structure Double where
  bits : UInt64
  deriving DecidableEq, Repr

/-- The number `mantissa * 2 ^ exponent` with the gap to its neighbour below: half the gap above
    when `halfGapBelow`. -/
structure Magnitude where
  mantissa : Nat
  exponent : Int
  halfGapBelow : Bool
  deriving DecidableEq, Repr

namespace Double

/-- Whether the sign bit is set. -/
def isNegative (d : Double) : Bool := d.bits.toNat ≥ Nat.pow 2 63

/-- The eleven exponent bits. -/
def exponentBits (d : Double) : Nat := d.bits.toNat / Nat.pow 2 52 % Nat.pow 2 11

/-- The 52 fraction bits. -/
def fractionBits (d : Double) : Nat := d.bits.toNat % Nat.pow 2 52

/-- Whether the pattern is no number. -/
def isNaN (d : Double) : Bool := d.exponentBits == 2047 && d.fractionBits != 0

/-- Whether the pattern is one of the two infinities. -/
def isInfinite (d : Double) : Bool := d.exponentBits == 2047 && d.fractionBits == 0

/-- Whether the pattern is one of the two zeros. -/
def isZero (d : Double) : Bool := d.exponentBits == 0 && d.fractionBits == 0

/-- The absolute value of a finite number. The smallest exponent has no implicit leading bit. -/
def magnitude (d : Double) : Magnitude :=
  if d.exponentBits = 0 then ⟨d.fractionBits, -1074, false⟩
  else
    -- Below the least normal number the gaps do not shrink any more.
    ⟨Nat.pow 2 52 + d.fractionBits, (d.exponentBits : Int) - 1075,
      d.fractionBits == 0 && d.exponentBits > 1⟩

/-- Equality of values: patterns agree or both are zeros, and neither is a NaN. -/
def sameValue (a b : Double) : Bool :=
  !a.isNaN && !b.isNaN && (a.bits == b.bits || (a.isZero && b.isZero))

-- The two zeros.
example : sameValue ⟨0⟩ ⟨0x8000000000000000⟩ = true := by decide

-- A NaN and itself.
example : sameValue ⟨0x7ff8000000000000⟩ ⟨0x7ff8000000000000⟩ = false := by decide

end Double

end SqlTyping
