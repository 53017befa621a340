import SqlTyping.Text.Padded

namespace SqlTyping

/-!
# Fixed-point decimals

An exact decimal literal: a signed mantissa of at most 96 bits and a number of decimal places of at
most 28.

* `Fixed` — the literal as written, `Fixed.text` its digits with the point in place;
* `Fixed.sameValue` — equality of values, so `1.0` and `1.00` are the same number.
-/

/-- The decimal `mantissa / 10 ^ scale`. -/
structure Fixed where
  mantissa : Int
  scale : Nat
  natAbs_mantissa_lt : mantissa.natAbs < Nat.pow 2 96 := by decide
  scale_le : scale ≤ 28 := by decide
  deriving DecidableEq, Repr

namespace Fixed

/-- The decimal with the given parts, if they are in range. -/
def of? (mantissa : Int) (scale : Nat) : Option Fixed :=
  if h : mantissa.natAbs < Nat.pow 2 96 ∧ scale ≤ 28 then some ⟨mantissa, scale, h.1, h.2⟩ else none

/-- The number of decimal digits of the mantissa, at least 1. -/
def digitCount (d : Fixed) : Nat := (Text.digits d.mantissa.natAbs).length

/-- Whether two decimals denote the same number. -/
def sameValue (a b : Fixed) : Bool :=
  a.mantissa * Nat.pow 10 b.scale == b.mantissa * Nat.pow 10 a.scale

/-- The digits with the point in place and at least one digit in front of it. -/
def text (d : Fixed) : String :=
  -- One digit more than there are places, so that one is left in front of the point.
  let all := (Text.padded (d.scale + 1) d.mantissa.natAbs).toList
  let whole := String.ofList (all.take (all.length - d.scale))
  let places := String.ofList (all.drop (all.length - d.scale))
  let sign := if d.mantissa < 0 then "-" else ""
  if d.scale = 0 then sign ++ whole else sign ++ whole ++ "." ++ places

example : (Fixed.mk (-1250) 3).text = "-1.250" := by decide

example : (Fixed.mk 5 5).text = "0.00005" := by decide

end Fixed

end SqlTyping
