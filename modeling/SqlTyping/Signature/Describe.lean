import SqlTyping.Signature

namespace SqlTyping

/-!
# Description of signatures

The structure of a signature in one line, for logs: families by their capitalized names, and the
positions that may be omitted among them.
-/

/-- A word in capitals and underscores as capitalized words without separators. -/
def capitalized (start : Bool) : List Char → List Char
  | [] => []
  | c :: rest =>
    if c = '_' then capitalized true rest
    else (if start then c else c.toLower) :: capitalized false rest

/-- The family by its capitalized name. -/
def Family.caption (f : Family) : String := String.ofList (capitalized true f.name.toList)

/-- Items between brackets. -/
def bracketed (items : List String) : String := "[" ++ ", ".intercalate items ++ "]"

/-- A record with its fields between braces. -/
def braced (name : String) (fields : List (String × String)) : String :=
  name ++ " \x7b " ++ ", ".intercalate (fields.map fun (k, v) => k ++ ": " ++ v) ++ " \x7d"

namespace Signature

mutual

/-- The structure of the signature. -/
def describe : Signature → String
  | families positions omittable =>
    let optional := (List.range positions.length).filter omittable
    braced "FamilyOperandTypeChecker"
      [("families", bracketed (positions.map Family.caption)),
        ("optional", bracketed (optional.map toString))]
  | oneOf alternatives =>
    braced "CompositeOperandTypeChecker" [("alternatives", bracketed (describeAll alternatives))]
  | openEnded least answer =>
    braced "Variadic" [("min", toString least), ("result", toString answer)]

/-- The structure of each alternative. -/
def describeAll : List Signature → List String
  | [] => []
  | s :: rest => s.describe :: describeAll rest

end

example : (required [.approximateNumeric]).describe =
    "FamilyOperandTypeChecker \x7b families: [ApproximateNumeric], optional: [] \x7d" := by
  decide +kernel

end Signature

end SqlTyping
