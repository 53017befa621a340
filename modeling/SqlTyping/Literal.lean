import SqlTyping.Calendar
import SqlTyping.DataType
import SqlTyping.Number.Fixed
import SqlTyping.Number.Shortest
import SqlTyping.Text.Hex
import SqlTyping.Text.Quoted

namespace SqlTyping

/-!
# Literals

A constant in a statement:

* `Literal` — one constructor per kind of constant, `Literal.text` its SQL spelling;
* `Literal.type` — the type a literal has; only NULL is nullable (`nullable_type_iff`);
* `Literal.sameValue` — equality as the domain compares constants: decimals and floating-point
  numbers by value, all else by form.
-/

/-- A constant in a statement. -/
inductive Literal where
  /-- The untyped NULL. -/
  | null
  | boolean (b : Bool)
  | integer (i : Int)
  | decimal (d : Fixed)
  | double (d : Double)
  | string (s : String)
  | binary (bytes : List UInt8)
  | date (d : Date)
  | time (t : TimeOfDay)
  | timestamp (d : Date) (t : TimeOfDay)
  deriving DecidableEq, Repr

namespace Literal

/-- Whether this is the untyped NULL. -/
def isNull : Literal → Bool
  | null => true
  | _ => false

/-- The literal in SQL spelling. -/
def text : Literal → String
  | null => "NULL"
  | boolean b => if b then "TRUE" else "FALSE"
  | integer i => toString i
  | decimal d => d.text
  | double d => d.text
  | string s => String.ofList (Text.Quoted.write s.toList)
  | binary bytes => "X'" ++ String.ofList (Text.Hex.write bytes) ++ "'"
  | date d => "DATE '" ++ d.text ++ "'"
  | time t => "TIME '" ++ t.text ++ "'"
  | timestamp d t => "TIMESTAMP '" ++ d.text ++ " " ++ t.text ++ "'"

/-- Whether two literals denote the same constant. -/
def sameValue : Literal → Literal → Bool
  | decimal a, decimal b => a.sameValue b
  | double a, double b => a.sameValue b
  | a, b => a == b

/-- Whether an integer fits 32 bits with sign. -/
def fitsInteger (i : Int) : Bool := -2147483648 ≤ i && i ≤ 2147483647

/-- The precision of a decimal: room for its digits and for its places, at least 1. -/
def decimalPrecision (d : Fixed) : Nat := max (max d.digitCount d.scale) 1

/-- The type of a literal. Strings are as wide as they are long. -/
def type : Literal → DataType
  | null => .null
  | boolean _ => .notNull .boolean
  | integer i => .notNull (if fitsInteger i then .integer else .bigInt)
  | decimal d =>
    { name := .decimal, precision := some (decimalPrecision d), scale := some d.scale }
  | double _ => .notNull .double
  | string s => { name := .char, precision := some s.length }
  | binary bytes => { name := .binary, precision := some bytes.length }
  | date _ => .notNull .date
  | time _ => .notNull .time
  | timestamp _ _ => .notNull .timestamp

/-- NULL is the only nullable literal. -/
theorem nullable_type_iff (l : Literal) : l.type.nullable = true ↔ l.isNull = true := by
  cases l <;> simp [type, isNull, DataType.null, DataType.orNull, DataType.notNull]

example : (string "it's").text = "'it''s'" := by decide

example : (binary [0x0a, 0xff]).text = "X'0AFF'" := by decide

end Literal

end SqlTyping
