import SqlTyping.Json.Value

namespace SqlTyping.Json

/-!
# Shapes of stored values

Readers for the shapes that stored values are built from. A reader is told how many more containers
may be nested below; a value that needs more is refused.

* `Reader` — from a nesting budget and a JSON value to a value, if it has the right shape;
* `boundedNat`, `boolean`, `textValue`, `optional`, `listOf`, `enumName` — scalars, optional values,
  lists, and names of alternatives;
* `slots` — the fields of a record, by name or in order.
-/

/-- A reader of values; the number is how many containers may still be nested. -/
abbrev Reader (α : Type) : Type := Nat → Json → Option α

/-- The largest number of containers nested in each other. -/
def maxNesting : Nat := 127

/-- A natural number below `bound`, written as an integer literal. -/
def boundedNat (bound : Nat) : Reader Nat
  | _, number (some i) => if 0 ≤ i ∧ i < bound then some i.toNat else none
  | _, _ => none

/-- A number of 16 bits. -/
def word16 : Reader Nat := boundedNat UInt16.size

/-- A number of 32 bits. -/
def word32 : Reader Nat := boundedNat UInt32.size

/-- A number of 64 bits. -/
def word64 : Reader Nat := boundedNat UInt64.size

/-- A truth value. -/
def boolean : Reader Bool
  | _, bool b => some b
  | _, _ => none

/-- A string without unpaired surrogates. -/
def textValue : Reader String
  | _, string s => s
  | _, _ => none

/-- A value or null. -/
def optional {α : Type} (read : Reader α) : Reader (Option α)
  | _, null => some none
  | depth, value => (read depth value).map some

/-- A list of values. -/
def listOf {α : Type} (read : Reader α) : Reader (List α)
  | depth + 1, array items => items.mapM (read depth)
  | _, _ => none

/-- The name of an alternative: a string, or an object with that one name mapped to null. -/
def enumName : Reader String
  | _, string s => s
  | _ + 1, object [(some s, null)] => some s
  | _, _ => none

/-- An alternative by its name. -/
def alternative {α : Type} (ofName? : String → Option α) : Reader α := fun depth value =>
  (enumName depth value).bind ofName?

/-! ### Records -/

/-- The values of a member: at most one may be there. -/
def memberValue (members : List (Option String × Json)) (key : String) : Option (Option Json) :=
  match members.filter fun m => m.1 == some key with
  | [] => some none
  | [(_, value)] => some (some value)
  | _ => none

/-- The fields of a record, in the order of `keys`, each with its value if it is there. An object
    names them; members with other names are skipped. An array lists them in order; it may be
    shorter only when `shorter` holds. -/
def slots (keys : List String) (shorter : Bool) : Json → Option (List (Option Json))
  | object members =>
    -- A member name with an unpaired surrogate is no name at all.
    if members.all fun m => m.1.isSome then keys.mapM (memberValue members) else none
  | array items =>
    if items.length = keys.length ∨ shorter = true ∧ items.length < keys.length then
      some (items.map some ++ List.replicate (keys.length - items.length) none)
    else none
  | _ => none

/-- A field that must be there. -/
def required {α : Type} (read : Reader α) (depth : Nat) : Option Json → Option α
  | some value => read depth value
  | none => none

/-- A field that may be missing or null. -/
def absentOr {α : Type} (read : Reader α) (depth : Nat) : Option Json → Option (Option α)
  | some value => optional read depth value
  | none => some none

/-- A field with a value of its own when it is missing. -/
def defaulted {α : Type} (read : Reader α) (otherwise : α) (depth : Nat) :
    Option Json → Option α
  | some value => read depth value
  | none => some otherwise

end SqlTyping.Json
