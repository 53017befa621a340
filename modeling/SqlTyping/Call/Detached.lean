import SqlTyping.Signature.Check

namespace SqlTyping

/-!
# Calls outside a statement

A call whose operands are given by their types alone, to try signatures and engines without a
statement:

* `Operand` — a typed expression, the NULL literal, an omitted operand, or one without a type;
* `DetachedCall` — the operands with the conversions made and the requests noted so far;
* `DetachedCall.view` — the call as signatures see it. A conversion replaces the operand by an
  expression of the wanted type and is recorded.
-/

/-- An operand of a detached call. -/
inductive Operand where
  | typed (type : DataType)
  /-- The NULL literal. -/
  | null
  /-- The placeholder for an omitted operand. -/
  | omitted
  /-- A column that cannot be found. -/
  | unresolved (name : String)
  deriving DecidableEq

/-- The type of an operand. -/
def Operand.type : Operand → Except Fault DataType
  | typed type => .ok type
  | null => .ok .null
  | omitted => .ok .any
  | unresolved name => .error (.columnNotFound name)

/-- The operands of a call, the conversions made, and the requests to the engine, oldest first. -/
structure DetachedCall where
  operands : List Operand
  casts : List (Nat × DataType) := []
  requests : List CoercionRequest := []
  deriving DecidableEq

namespace DetachedCall

/-- Whether the operand at `index` is the NULL literal. -/
def isNull (s : DetachedCall) (index : Nat) : Bool :=
  match s.operands[index]? with
  | some .null => true
  | _ => false

/-- Whether the operand at `index` is omitted. -/
def isDefault (s : DetachedCall) (index : Nat) : Bool :=
  match s.operands[index]? with
  | some .omitted => true
  | _ => false

/-- The type of the operand at `index`. -/
def typeOf (index : Nat) : Checking DetachedCall DataType := fun s =>
  match s.operands[index]? with
  | some operand => (operand.type, s)
  | none => (.error (.internal s!"no operand {index}"), s)

/-- Replaces the operand at `index` by an expression of the type, if there is such an operand. -/
def castTo (index : Nat) (target : DataType) : Checking DetachedCall Bool := fun s =>
  -- Placeholders are wrapped like any other operand here.
  if index < s.operands.length then
    (.ok true,
      { s with
        operands := s.operands.set index (.typed target)
        casts := s.casts ++ [(index, target)] })
  else (.ok false, s)

/-- The call as signatures see it. -/
def view (operator : String) (coerces : Bool) (engine : CoercionEngine) :
    CallView DetachedCall where
  operator := operator
  coerces := coerces
  engine := engine
  count s := s.operands.length
  isNull := isNull
  isDefault := isDefault
  typeOf := typeOf
  castTo := castTo
  note request s := { s with requests := s.requests ++ [request] }

/-- Looking at a type changes nothing. -/
@[simp] theorem typeOf_state (index : Nat) (s : DetachedCall) : (typeOf index s).2 = s := by
  unfold typeOf
  split <;> rfl

end DetachedCall

end SqlTyping
