import SqlTyping.Session
import SqlTyping.Signature.Check

namespace SqlTyping

/-!
# Calls in a statement

A call is validated in five steps: its operator and the number of its operands, the types of the
operands written, the operator's check, and the type of the call from the operands as they are after
the check.

* `CallFrame` — a session with the operands of one call, placeholders for omitted ones included;
* `CallFrame.view` — the call as signatures see it. A conversion adds a cast to the statement, points
  the call at it, and validates it;
* `callType` — the steps in order.
-/

/-- The host of a session, with the operands of a call under validation. -/
structure CallFrame.On (σ : Type) where
  session : σ
  operands : List NodeId

/-- A session with the operands of a call under validation. -/
abbrev CallFrame : Type := CallFrame.On Session

variable {σ : Type} [Host σ]

namespace CallFrame

/-- The node of an operand. -/
def On.node? (f : CallFrame.On σ) (index : Nat) : Option Node :=
  (f.operands[index]?).bind (Host.session f.session).tree.node?

/-- Whether an operand is the NULL literal. -/
def On.isNull (f : CallFrame.On σ) (index : Nat) : Bool := (f.node? index).any Node.isNullLiteral

/-- Whether an operand is a placeholder. -/
def On.isDefault (f : CallFrame.On σ) (index : Nat) : Bool := (f.node? index).any Node.isDefault

omit [Host σ] in
/-- A validation on the session of a frame. -/
def onSession {α : Type} (x : Checking σ α) : Checking (CallFrame.On σ) α :=
  Checking.focus (·.session) (fun f s => { f with session := s }) x

/-- The type of an operand: SYMBOL where the operator asks for a keyword, else the recorded type. -/
def typeOf (v : Visit.On σ) (scope : ScopeId) (op : Operator) (index : Nat) :
    Checking (CallFrame.On σ) DataType := do
  match (← Checking.state).operands[index]? with
  | none => Checking.fail (.internal s!"{op.name} has no operand {index}")
  | some operand =>
    if op.signature.isKeyword index then return .symbol
    else onSession (v.recorded scope operand)

/-- Adds a cast around an operand to the statement and points the call at it; the answer is whether the call
    has such an operand. The cast is in the tree from then on, whatever becomes of it. -/
def insertCast (call : NodeId) (index : Nat) (operand : NodeId) (target : DataType) : Validation Bool :=
  fun s =>
    let grown := s.tree.pushCast operand target.toTarget true
    match grown.replaceOperand? call index s.tree.nextId with
    | none => (.ok false, { s with tree := grown })
    | some tree => (.ok true, { s with tree })

/-- Wraps an operand in a cast, and validates the cast. Placeholders are not wrapped. -/
def castTo (v : Visit.On σ) (scope : ScopeId) (call : NodeId) (index : Nat) (target : DataType) :
    Checking (CallFrame.On σ) Bool := do
  let f ← Checking.state
  if f.isDefault index then return false
  else
    match f.operands[index]? with
    | none => return false
    | some operand =>
      let cast := (Host.session f.session).tree.nextId
      if ← onSession (Host.lift (insertCast call index operand target)) then
        -- Checks of this call look at the frame, later passes at the tree: both get the cast.
        Checking.update fun f => { f with operands := f.operands.set index cast }
        let _ ← onSession (v.expression scope cast)
        return true
      else return false

/-- The call as signatures see it. -/
def view (v : Visit.On σ) (scope : ScopeId) (call : NodeId) (op : Operator) (settings : Settings)
    (engine : CoercionEngine) : CallView (CallFrame.On σ) where
  operator := op.name
  coerces := settings.coercion
  engine := engine
  count f := f.operands.length
  isNull := On.isNull
  isDefault := On.isDefault
  typeOf := typeOf v scope op
  castTo := castTo v scope call
  note request f :=
    { f with session := Host.change (fun s => { s with requests := s.requests ++ [request] }) f.session }

end CallFrame

/-- The operands of a call with placeholders for the omitted ones. One new placeholder node stands
    at all of them. -/
def padded (signature : Signature) (operands : List NodeId) : Validation (List NodeId) := do
  let omitted := signature.shownCount operands.length - operands.length
  if omitted = 0 then return operands
  else
    -- The placeholder lies below no node; it stays in the tree when the call is refused.
    let placeholder := (← Checking.state).tree.nextId
    Checking.update fun s => { s with tree := s.tree.push .default }
    return operands ++ List.replicate omitted placeholder

omit [Host σ] in
/-- Validates the written operands from `index` on, keywords left out. -/
def visitOperands (v : Visit.On σ) (scope : ScopeId) (signature : Signature) :
    Nat → List NodeId → Checking σ Unit
  | _, [] => pure ()
  | index, operand :: rest => do
    -- A keyword is spelled like a column and must not be looked up as one.
    if !signature.isKeyword index then
      let _ ← v.expression scope operand
    visitOperands v scope signature (index + 1) rest

/-- The types of the operands from `index` on, SYMBOL for keywords. -/
def operandTypes (v : Visit.On σ) (scope : ScopeId) (signature : Signature) :
    Nat → List NodeId → Checking σ (List DataType)
  | _, [] => pure []
  | index, operand :: rest => do
    let type ← if signature.isKeyword index then pure .symbol else v.recorded scope operand
    return type :: (← operandTypes v scope signature (index + 1) rest)

/-- Runs the operator's check on a call with the given operands. -/
def checkCall (v : Visit.On σ) (scope : ScopeId) (call : NodeId) (op : Operator)
    (operands : List NodeId) : Checking σ Bool := fun s =>
  match op.signature.check
    (CallFrame.view v scope call op (Host.session s).settings (Host.session s).engine) ⟨s, operands⟩ with
  | (answer, f) => (answer, f.session)

/-- The type of a call. The answer of the operator's check is not looked at: only a fault of the
    check refuses the call. -/
def callType (v : Visit.On σ) (scope : ScopeId) (call : NodeId) (name : String)
    (operands : List NodeId) : Checking σ DataType := do
  match (Host.session (← Checking.state)).operators.lookup? name with
  | none => Checking.fail (.unknownFunction name)
  | some op =>
    if !op.arity.admits operands.length then
      Checking.fail (.operandCount op.name op.arity.text operands.length)
    else
      let all ← Host.lift (padded op.signature operands)
      -- Types first: the check below reads what is recorded here.
      visitOperands v scope op.signature 0 operands
      let _ ← checkCall v scope call op all
      -- The check may have wrapped operands in casts, so the list is read again.
      let current := ((Host.session (← Checking.state)).tree.operands? call).getD []
      let types ← operandTypes v scope op.signature 0 current
      Checking.ofExcept (op.returns.infer types)

end SqlTyping
