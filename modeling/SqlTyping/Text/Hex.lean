namespace SqlTyping.Text

/-!
# Bytes as pairs of hexadecimal digits

* `Hex.write` — each byte as two upper-case digits, the high half first;
* `Hex.read?` — the reader of such pairs, inverse to `write` (`read?_write`).
-/

namespace Hex

/-- The sixteen digits, in order of value. -/
def digits : List Char :=
  ['0', '1', '2', '3', '4', '5', '6', '7', '8', '9', 'A', 'B', 'C', 'D', 'E', 'F']

/-- The digit of value `n % 16`. -/
def digit (n : Nat) : Char := digits.getD (n % 16) '0'

/-- The value of an upper-case digit. -/
def value? (c : Char) : Option Nat := digits.idxOf? c

/-- The value of a digit is the value it was written for. -/
theorem value?_digit (n : Nat) : value? (digit n) = some (n % 16) := by
  have h : ∀ k < 16, value? (digits.getD k '0') = some k := by decide
  exact h (n % 16) (Nat.mod_lt _ (by decide))

/-- Two digits for each byte. -/
def write : List UInt8 → List Char
  | [] => []
  | b :: rest => digit (b.toNat / 16) :: digit b.toNat :: write rest

/-- Reads pairs of digits; an odd digit or any other character is refused. -/
def read? : List Char → Option (List UInt8)
  | [] => some []
  | high :: low :: rest => do
    let h ← value? high
    let l ← value? low
    return UInt8.ofNat (16 * h + l) :: (← read? rest)
  | [_] => none

/-- The two digits of a byte name that byte. -/
theorem ofNat_halves (b : UInt8) :
    UInt8.ofNat (16 * (b.toNat / 16 % 16) + b.toNat % 16) = b := by
  have hb : b.toNat < 256 := b.toNat_lt
  rw [show 16 * (b.toNat / 16 % 16) + b.toNat % 16 = b.toNat by omega]
  simp

/-- Reading written bytes gives them back. -/
theorem read?_write (bytes : List UInt8) : read? (write bytes) = some bytes := by
  induction bytes with
  | nil => rfl
  | cons b rest ih =>
    simp only [write, read?, value?_digit, ih, ofNat_halves, Option.bind_eq_bind, Option.bind_some]
    rfl

end Hex

end SqlTyping.Text
