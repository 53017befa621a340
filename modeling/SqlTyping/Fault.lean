import SqlTyping.Diagnostic

namespace SqlTyping

/-!
# Faults

The causes for which validation stops, one constructor each:

* `Fault.message`, `Fault.code` — the wording and the code of a cause;
* `Fault.isOperandFault` — the two causes that only say that a call does not fit a signature; trying
  another signature may still succeed;
* `Fault.hostError`, `Fault.diagnostic` — the fault as shown to the embedding program.
-/

/-- Why a statement, a query or an expression is refused. -/
inductive Fault where
  /-- The operand types fit none of the allowed forms. -/
  | signatureMismatch (operator actual allowed : String)
  /-- A NULL literal is an operand while implicit conversion is off. -/
  | nullOperand (operator : String) (index : Nat)
  | operandCount (operator expected : String) (found : Nat)
  | unknownFunction (name : String)
  /-- The table or WITH item is not visible from the place of the reference. -/
  | objectNotFound (name : String)
  | columnNotFound (name : String)
  | columnNotInTable (column table : String)
  | ambiguousColumn (name : String)
  /-- A recursive WITH item has no input to start from. -/
  | noAnchor (name : String)
  | columnListMismatch (name : String) (declared actual : Nat)
  | setOperationMismatch (operation : String)
  | notAQuery (node kind : String)
  | notAnExpression (node kind : String)
  /-- An invariant does not hold. -/
  | internal (message : String)
  /-- A node lies below itself, so it has no type. -/
  | cyclicNode (node : String)
  deriving DecidableEq, Repr

namespace Fault

/-- The wording of a fault. -/
def message : Fault → String
  | signatureMismatch operator actual allowed =>
    s!"Cannot apply '{operator}' to arguments of type '{actual}'. Supported form(s): {allowed}"
  | nullOperand _ _ => "Illegal use of 'NULL'"
  | operandCount operator expected _ =>
    s!"Invalid number of arguments to function '{operator}'. " ++
      s!"Was expecting {expected} arguments"
  | unknownFunction name => s!"No match found for function signature {name}"
  | objectNotFound name => s!"Object '{name}' not found"
  | columnNotFound name => s!"Column '{name}' not found in any table"
  | columnNotInTable column table => s!"Column '{column}' not found in table '{table}'"
  | ambiguousColumn name => s!"Column '{name}' is ambiguous"
  | noAnchor name =>
    s!"Recursive WITH item '{name}' must be a set operation whose first input does not " ++
      s!"reference '{name}'"
  | columnListMismatch name declared actual =>
    s!"Number of columns must match number of query columns in WITH item '{name}': " ++
      s!"declared {declared}, query has {actual}"
  | setOperationMismatch operation => s!"Column count mismatch in {operation}"
  | notAQuery node kind => s!"{kind} node {node} is not a query"
  | notAnExpression node kind => s!"{kind} node {node} is not an expression"
  | internal message => s!"Internal error: {message}"
  | cyclicNode node => s!"Internal error: node {node} lies below itself"

/-- The code of a fault. -/
def code : Fault → ErrorCode
  | signatureMismatch .. => .operandMismatch
  | nullOperand .. => .illegalNull
  | operandCount .. => .operandCount
  | unknownFunction _ => .unknownFunction
  | objectNotFound _ => .objectNotFound
  | columnNotFound _ | columnNotInTable .. => .columnNotFound
  | ambiguousColumn _ => .ambiguousColumn
  | noAnchor _ => .noAnchor
  | columnListMismatch .. => .columnListMismatch
  | setOperationMismatch _ => .setOperationMismatch
  | notAQuery .. => .notAQuery
  | notAnExpression .. => .notAnExpression
  | internal _ | cyclicNode _ => .internal

/-- Whether the fault only says that the operands of a call do not fit a signature. -/
def isOperandFault : Fault → Bool
  | signatureMismatch .. | nullOperand .. => true
  | _ => false

/-- Whether the fault is a broken invariant. -/
def isInternal : Fault → Bool
  | internal _ | cyclicNode _ => true
  | _ => false

/-- A fault is internal exactly when its code is. -/
theorem isInternal_code (f : Fault) : f.code.isInternal = f.isInternal := by
  cases f <;> rfl

/-- The fault as handed to the embedding program. -/
def hostError (f : Fault) : HostError :=
  if f.isInternal then .internal f.code f.message else .semantic f.code f.message none none

/-- The diagnostic of the fault, placed at `span` of `text` when there is a span. -/
def diagnostic (f : Fault) (span : Option Span) (text : String) : Diagnostic :=
  match span with
  | some span => f.hostError.diagnostic.withSpan span text
  | none => f.hostError.diagnostic

end Fault

end SqlTyping
