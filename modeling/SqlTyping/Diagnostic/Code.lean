import SqlTyping.Text.Padded

namespace SqlTyping

/-!
# Error codes

* `ErrorCode` — a numbered code shown as `SQL0110`, with the range it falls in: 1 to 99 for a
  malformed statement, 100 to 199 for the meaning of a statement, 400 to 499 for broken invariants;
* `ErrorCode.description`, `ErrorCode.help?` — the fixed texts of the known codes.
-/

/-- A numbered error code. -/
structure ErrorCode where
  number : Nat
  deriving DecidableEq, Repr

namespace ErrorCode

/-- The code as shown: `SQL` and at least four digits. -/
def text (c : ErrorCode) : String := "SQL" ++ Text.padded 4 c.number

/-- Whether the code is about the form of the statement. -/
def isShape (c : ErrorCode) : Bool := 1 ≤ c.number && c.number < 100

/-- Whether the code is about the meaning of the statement. -/
def isSemantic (c : ErrorCode) : Bool := 100 ≤ c.number && c.number < 200

/-- Whether the code is about a broken invariant. -/
def isInternal (c : ErrorCode) : Bool := 400 ≤ c.number && c.number < 500

def notAQuery : ErrorCode := ⟨1⟩
def notAnExpression : ErrorCode := ⟨2⟩
def objectNotFound : ErrorCode := ⟨100⟩
def unknownFunction : ErrorCode := ⟨101⟩
def columnNotFound : ErrorCode := ⟨102⟩
def ambiguousColumn : ErrorCode := ⟨103⟩
def operandMismatch : ErrorCode := ⟨110⟩
def operandCount : ErrorCode := ⟨111⟩
def illegalNull : ErrorCode := ⟨112⟩
def noAnchor : ErrorCode := ⟨120⟩
def columnListMismatch : ErrorCode := ⟨121⟩
def setOperationMismatch : ErrorCode := ⟨122⟩
def internal : ErrorCode := ⟨400⟩

/-- What the code stands for. -/
def description (c : ErrorCode) : String :=
  match c.number with
  | 1 => "Node is not a query"
  | 2 => "Node is not an expression"
  | 100 => "Object not found"
  | 101 => "Unknown function"
  | 102 => "Column not found"
  | 103 => "Ambiguous column reference"
  | 110 => "Cannot apply operator to arguments"
  | 111 => "Invalid number of arguments"
  | 112 => "Illegal use of NULL"
  | 120 => "Recursive WITH item has no anchor"
  | 121 => "Column count mismatch in WITH item"
  | 122 => "Set operation inputs differ in column count"
  | 400 => "Internal error"
  | _ => "Unknown error"

/-- What the user can do about it. -/
def help? (c : ErrorCode) : Option String :=
  match c.number with
  | 100 => some "Check that the table or WITH item is visible from this query block"
  | 110 => some "Cast the arguments explicitly to one of the supported forms"
  | 112 => some "Enable type coercion or CAST the NULL literal to the expected type"
  | _ => none

example : operandMismatch.text = "SQL0110" := by decide

end ErrorCode

end SqlTyping
