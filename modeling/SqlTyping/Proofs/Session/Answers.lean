import SqlTyping.Proofs.Session.Rewriting

namespace SqlTyping

/-!
# A call up to its check

Validation of a call has two halves, between which stands the answer of the operator's check:

* `checkedCall` — a call up to the answer of the operator's check, `typedCall` — the rest;
* `exists_of_checkedCall` — what has been done for the answer;
* `Session.deriveType_iff_typedCall` — a call has a type exactly when both halves end with a result.
-/

open Checking

/-- A call up to the answer of the operator's check. -/
def checkedCall (v : Visit) (scope : ScopeId) (call : NodeId) (name : String)
    (operands : List NodeId) : Validation (Operator × Bool) := do
  match (← Checking.state).operators.lookup? name with
  | none => Checking.fail (.unknownFunction name)
  | some op =>
    if !op.arity.admits operands.length then
      Checking.fail (.operandCount op.name op.arity.text operands.length)
    else
      let all ← padded op.signature operands
      visitOperands v scope op.signature 0 operands
      let answer ← checkCall v scope call op all
      return (op, answer)

/-- The type of a call whose check has ended, from the operands as the check has left them. -/
def typedCall (v : Visit) (scope : ScopeId) (call : NodeId) (op : Operator) :
    Validation DataType := do
  let current := ((← Checking.state).tree.operands? call).getD []
  let types ← operandTypes v scope op.signature 0 current
  Checking.ofExcept (op.returns.infer types)

variable {v : Visit} {scope : ScopeId} {call : NodeId} {name : String} {operands : List NodeId}
  {s t : Session} {type : DataType}

/-- The two halves of a call make the whole. -/
theorem callType_eq (v : Visit) (scope : ScopeId) (call : NodeId) (name : String)
    (operands : List NodeId) :
    callType v scope call name operands =
      checkedCall v scope call name operands >>= fun found => typedCall v scope call found.1 := by
  unfold callType checkedCall typedCall
  rw [bind_assoc]
  congr 1
  funext s
  cases s.operators.lookup? name with
  | none => rfl
  | some op =>
    simp only
    split
    · rfl
    · simp only [bind_assoc, pure_bind, Host.lift_self, Host.session_self]

/-- A call with the wrong number of operands is refused. -/
theorem checkedCall_of_not_admits {op : Operator} (hop : s.operators.lookup? name = some op)
    (hadmits : op.arity.admits operands.length = false) :
    checkedCall v scope call name operands s =
      (.error (.operandCount op.name op.arity.text operands.length), s) := by
  unfold checkedCall
  rw [bind_of_ok (state_apply s)]
  simp only [hop, hadmits, Bool.not_false, if_true]
  rfl

/-- Any other call gets placeholders, its operands are validated, and its check decides. -/
theorem checkedCall_of_admits {op : Operator} (hop : s.operators.lookup? name = some op)
    (hadmits : op.arity.admits operands.length = true) :
    checkedCall v scope call name operands s = (do
      let all ← padded op.signature operands
      visitOperands v scope op.signature 0 operands
      let answer ← checkCall v scope call op all
      return (op, answer) : Validation (Operator × Bool)) s := by
  unfold checkedCall
  rw [bind_of_ok (state_apply s)]
  simp only [hop, hadmits, Bool.not_true, Bool.false_eq_true, if_false]

/-- Once the operands of a call have been validated, its check decides. -/
theorem checkedCall_of_visited {op : Operator} {all : List NodeId} {s₁ s₂ : Session}
    (hop : s.operators.lookup? name = some op)
    (hadmits : op.arity.admits operands.length = true)
    (hpad : padded op.signature operands s = (.ok all, s₁))
    (hvisit : visitOperands v scope op.signature 0 operands s₁ = (.ok (), s₂)) :
    checkedCall v scope call name operands s =
      (checkCall v scope call op all >>= fun answer => pure (op, answer)) s₂ := by
  rw [checkedCall_of_admits hop hadmits, bind_of_ok hpad, bind_of_ok hvisit]

/-- What has been done when the check of a call has answered: the operator was found, the number of operands
    was right, and the operands were validated. -/
theorem exists_of_checkedCall {op : Operator} {answer : Bool} {t : Session}
    (h : checkedCall v scope call name operands s = (.ok (op, answer), t)) :
    ∃ all s₁ s₂, s.operators.lookup? name = some op ∧ op.arity.admits operands.length = true ∧
      padded op.signature operands s = (.ok all, s₁) ∧
        visitOperands v scope op.signature 0 operands s₁ = (.ok (), s₂) ∧
          checkCall v scope call op all s₂ = (.ok answer, t) := by
  cases hop : s.operators.lookup? name with
  | none =>
    unfold checkedCall at h
    rw [bind_of_ok (state_apply s), hop] at h
    cases h
  | some found =>
    cases hadmits : found.arity.admits operands.length with
    | false =>
      rw [checkedCall_of_not_admits hop hadmits] at h
      cases h
    | true =>
      rw [checkedCall_of_admits hop hadmits] at h
      obtain ⟨all, s₁, hpad, h⟩ := bind_eq_ok_iff.mp h
      obtain ⟨⟨⟩, s₂, hvisit, h⟩ := bind_eq_ok_iff.mp h
      obtain ⟨b, s₃, hcheck, hpure⟩ := bind_eq_ok_iff.mp h
      cases hpure
      exact ⟨all, s₁, s₂, rfl, hadmits, hpad, hvisit, hcheck⟩

/-- A literal has its own type. -/
theorem expressionStep_literal {id : NodeId} {value : Literal}
    (hn : s.tree.node? id = some (.literal value)) :
    expressionStep v scope id s =
      (.ok value.type, { s with types := s.types.put id value.type }) := by
  unfold expressionStep
  rw [bind_of_ok (state_apply s)]
  simp only [Host.session_self, Host.lift_self, Tree.peelCasts_of_not_cast (show ∀ operand target implicit,
    s.tree.node? id ≠ some (.cast operand target implicit) by simp [hn])]
  rw [bind_of_ok (node_of_some hn)]
  rfl

/-- The type that is found for a call is recorded. -/
theorem expressionStep_call (hcall : s.tree.node? call = some (.call name operands)) :
    expressionStep v scope call s =
      (callType v scope call name operands >>= fun type => do
        Validation.record call type
        pure type) s := by
  unfold expressionStep
  rw [bind_of_ok (state_apply s)]
  simp only [Host.session_self, Host.lift_self, Tree.peelCasts_of_not_cast (show ∀ operand target implicit,
    s.tree.node? call ≠ some (.cast operand target implicit) by simp [hcall])]
  rw [bind_of_ok (node_of_some hcall)]
  rfl

namespace Session

/-- A call has a type exactly when it passes its check and a type is inferred from its operands then. -/
theorem deriveType_iff_typedCall (hcall : s.tree.node? call = some (.call name operands)) :
    deriveType scope call s = (.ok type, t) ↔
      ∃ op answer s₁ s₂,
        checkedCall (visitAt s.tree.size) scope call name operands s = (.ok (op, answer), s₁) ∧
          typedCall (visitAt s.tree.size) scope call op s₁ = (.ok type, s₂) ∧
            t = { s₂ with types := s₂.types.put call type } := by
  have hstep : deriveType scope call s = expressionStep (visitAt s.tree.size) scope call s := rfl
  rw [hstep, expressionStep_call hcall, callType_eq, bind_eq_ok_iff]
  constructor
  · rintro ⟨found, s₂, hfound, hrecord⟩
    obtain ⟨⟨op, answer⟩, s₁, hchecked, htyped⟩ := bind_eq_ok_iff.mp hfound
    cases hrecord
    exact ⟨op, answer, s₁, s₂, hchecked, htyped, rfl⟩
  · rintro ⟨op, answer, s₁, s₂, hchecked, htyped, rfl⟩
    exact ⟨type, s₂, bind_eq_ok_iff.mpr ⟨_, s₁, hchecked, htyped⟩, rfl⟩

end Session

end SqlTyping
