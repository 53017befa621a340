import SqlTyping.Number.Binary
import SqlTyping.Text.Padded

namespace SqlTyping

/-!
# Shortest decimal digits of a binary number

A floating-point number is shown with the fewest digits that read back as the same number, in
scientific form with one digit in front of the point.

* `RoundingInterval` — the decimals that round to a number, over one common denominator;
* `Magnitude.shortest` — for 1, 2, … 17 digits, the two neighbours of the number on that decimal
  grid are tried; the first grid with a neighbour in the interval is taken, of two the nearer, and
  of two equally near the larger;
* `Double.text` — sign, digits and exponent: `1.5E3`, `0E0`, `-0E0`, `NaN`, `inf`, `-inf`.
-/

/-- The decimal `digits * 10 ^ exponent`. -/
structure Scientific where
  digits : Nat
  exponent : Int
  deriving DecidableEq, Repr

/-- A number with the two ends of the interval of reals that round to it, all over `denominator`,
    which is `2 ^ shift`. -/
structure RoundingInterval where
  low : Nat
  value : Nat
  high : Nat
  shift : Nat
  /-- The ends themselves round to the number, as its mantissa is even. -/
  closed : Bool

namespace RoundingInterval

/-- The common denominator. -/
def denominator (r : RoundingInterval) : Nat := Nat.pow 2 r.shift

/-- The interval of a number: each end is halfway to the neighbour on its side. -/
def ofMagnitude (m : Magnitude) : RoundingInterval :=
  -- In quarters of the unit in the last place both ends are integers.
  let up := Nat.pow 2 (m.exponent - 2).toNat
  { low := (4 * m.mantissa - if m.halfGapBelow then 1 else 2) * up
    value := 4 * m.mantissa * up
    high := (4 * m.mantissa + 2) * up
    shift := (2 - m.exponent).toNat
    closed := m.mantissa % 2 == 0 }

/-- Whether the decimal lies in the interval. -/
def contains (r : RoundingInterval) (s : Scientific) : Bool :=
  let decimal := s.digits * Nat.pow 10 s.exponent.toNat * r.denominator
  let scale := Nat.pow 10 (-s.exponent).toNat
  if r.closed then r.low * scale ≤ decimal && decimal ≤ r.high * scale
  else r.low * scale < decimal && decimal < r.high * scale

/-- The decimal of the grid `10 ^ exponent` next below the number or equal to it. -/
def below (r : RoundingInterval) (exponent : Int) : Scientific :=
  ⟨r.value * Nat.pow 10 (-exponent).toNat / (r.denominator * Nat.pow 10 exponent.toNat), exponent⟩

/-- The decimal of the grid `10 ^ exponent` next above the number. -/
def above (r : RoundingInterval) (exponent : Int) : Scientific :=
  ⟨(r.below exponent).digits + 1, exponent⟩

/-- Whether the lower neighbour on the grid is strictly nearer to the number than the upper one. -/
def nearerBelow (r : RoundingInterval) (exponent : Int) : Bool :=
  2 * r.value * Nat.pow 10 (-exponent).toNat
    < (2 * (r.below exponent).digits + 1) * (r.denominator * Nat.pow 10 exponent.toNat)

/-- The neighbour on the grid that reads back as the number: the nearer one when both do. -/
def onGrid? (r : RoundingInterval) (exponent : Int) : Option Scientific :=
  match r.contains (r.below exponent), r.contains (r.above exponent) with
  -- Of two equally near decimals the larger one is shown.
  | true, true => some (if r.nearerBelow exponent then r.below exponent else r.above exponent)
  | true, false => some (r.below exponent)
  | false, true => some (r.above exponent)
  | false, false => none

/-- The least `k` with the number below `10 ^ k`. -/
def leadingPlace (r : RoundingInterval) : Int :=
  if r.denominator ≤ r.value then (Text.digits (r.value / r.denominator)).length
  else 1 - ((Text.digits (r.denominator / r.value)).length : Int)

/-- The number itself in decimal: a power of two divides a power of ten. -/
def exact (r : RoundingInterval) : Scientific := ⟨r.value * Nat.pow 5 r.shift, -(r.shift : Int)⟩

end RoundingInterval

/-- Drops trailing zeros of the digits into the exponent, at most `fuel` of them. -/
def Scientific.trimmed (fuel : Nat) (s : Scientific) : Scientific :=
  match fuel with
  | 0 => s
  | fuel + 1 =>
    if s.digits % 10 = 0 ∧ s.digits ≠ 0 then
      Scientific.trimmed fuel ⟨s.digits / 10, s.exponent + 1⟩
    else s

/-- The shortest decimal that reads back as a positive number. -/
def Magnitude.shortest (m : Magnitude) : Scientific :=
  let r := RoundingInterval.ofMagnitude m
  -- 17 digits tell any two numbers apart, so one of the grids has an answer.
  let found := (List.range 17).findSome? fun n => r.onGrid? (r.leadingPlace - (n + 1 : Nat))
  (found.getD r.exact).trimmed 17

/-- The digits with a point behind the first one, and the exponent of that digit. -/
def Scientific.text (s : Scientific) : String :=
  match Text.digits s.digits with
  | [] => ""
  | first :: rest =>
    let places := if rest.isEmpty then "" else "." ++ String.ofList rest
    let exponent := s.exponent + rest.length
    s!"{first}{places}E{exponent}"

/-- A floating-point number in scientific form. -/
def Double.text (d : Double) : String :=
  let sign := if d.isNegative then "-" else ""
  if d.isNaN then "NaN"
  else if d.isInfinite then sign ++ "inf"
  else if d.isZero then sign ++ "0E0"
  else sign ++ d.magnitude.shortest.text

-- A power of two, whose gap below is half the gap above.
example : (Double.mk 0x3e60000000000000).text = "2.9802322387695313E-8" := by decide +kernel

-- The least positive number.
example : (Double.mk 0x0000000000000001).text = "5E-324" := by decide +kernel

end SqlTyping
