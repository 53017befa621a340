import SqlTyping.Call
import SqlTyping.Signature

namespace SqlTyping

/-!
# Checking a call against a signature

A check answers `true` when the call fits, `false` when the signature is not for this number of
operands, and stops with a fault otherwise.

* `Signature.checkOperand` — one operand against one family;
* `Signature.checkStrict` — the call as written, without conversion;
* `Signature.check` — the call after at most one conversion for each signature of the right length.
  A choice first tries every alternative as written, then each with conversion.
-/

namespace Signature

variable {σ : Type}

/-- Checks one operand against a family. IGNORE accepts without a look. An omitted operand is
    accepted exactly where it may be omitted. ANY accepts every type but CURSOR. A NULL literal is
    accepted when operands may be converted and is a fault of its own otherwise. Any other operand
    fits when its type is opaque or in the family. -/
def checkOperand (c : CallView σ) (positions : List Family) (omittable : Nat → Bool) (index : Nat)
    (family : Family) : Checking σ Unit :=
  let refuse : Checking σ Unit := c.mismatch (quotedForm c.operator positions)
  if family = .ignore then pure ()
  else do
    let s ← Checking.state
    if c.isDefault s index then
      if omittable index then pure () else refuse
    else if family = .any then
      let type ← c.typeOf index
      if type.name = .cursor then refuse else pure ()
    else if c.isNull s index then
      if c.coerces then pure () else Checking.fail (.nullOperand c.operator index)
    else
      let type ← c.typeOf index
      -- A value of unknown type may turn out to be of any type.
      if Family.of? type.name = some .any then pure ()
      else if family.accepts type.name then pure ()
      else refuse

section

variable {c : CallView σ} {positions : List Family} {omittable : Nat → Bool} {index : Nat}
  {family : Family} {s : σ}

/-- Nothing is asked of an operand that is to be ignored. -/
theorem checkOperand_ignore : checkOperand c positions omittable index .ignore = pure () := by
  unfold checkOperand
  rw [if_pos rfl]

/-- An omitted operand is accepted where it may be omitted. -/
theorem checkOperand_of_omitted (hi : family ≠ .ignore) (hd : c.isDefault s index = true) :
    checkOperand c positions omittable index family s =
      (if omittable index then pure () else c.mismatch (quotedForm c.operator positions) :
        Checking σ Unit) s := by
  unfold checkOperand
  rw [if_neg hi, Checking.bind_of_ok (Checking.state_apply s), if_pos hd]

/-- Where every type will do, any other operand is asked for its type. -/
theorem checkOperand_any (hd : c.isDefault s index = false) :
    checkOperand c positions omittable index .any s =
      (c.typeOf index >>= fun type =>
        if type.name = .cursor then c.mismatch (quotedForm c.operator positions) else pure ()) s := by
  unfold checkOperand
  rw [if_neg (by decide), Checking.bind_of_ok (Checking.state_apply s), hd, if_neg (by decide), if_pos rfl]

/-- For any other family the NULL literal is accepted where it may be converted. -/
theorem checkOperand_of_null (hi : family ≠ .ignore) (ha : family ≠ .any)
    (hd : c.isDefault s index = false) (hn : c.isNull s index = true) :
    checkOperand c positions omittable index family s =
      (if c.coerces then pure () else Checking.fail (.nullOperand c.operator index) :
        Checking σ Unit) s := by
  unfold checkOperand
  rw [if_neg hi, Checking.bind_of_ok (Checking.state_apply s), hd, if_neg (by decide), if_neg ha,
    if_pos hn]

/-- What is neither omitted nor the NULL literal is asked for its type. -/
theorem checkOperand_of_written (hi : family ≠ .ignore) (ha : family ≠ .any)
    (hd : c.isDefault s index = false) (hn : c.isNull s index = false) :
    checkOperand c positions omittable index family s =
      (c.typeOf index >>= fun type =>
        if type.name = .any ∨ family.accepts type.name = true then pure ()
        else c.mismatch (quotedForm c.operator positions)) s := by
  unfold checkOperand
  rw [if_neg hi, Checking.bind_of_ok (Checking.state_apply s), hd, if_neg (by decide), if_neg ha, hn,
    if_neg (by decide)]
  refine congrFun (congrArg (c.typeOf index >>= ·) (funext fun type => ?_)) s
  by_cases hunknown : type.name = .any
  · rw [if_pos (Family.of?_eq_any_iff.mpr hunknown), if_pos (.inl hunknown)]
  · simp only [Family.of?_eq_any_iff, hunknown, if_false, false_or]

end

/-- Checks the operands from `index` on against the remaining families. -/
def checkFrom (c : CallView σ) (positions : List Family) (omittable : Nat → Bool) :
    Nat → List Family → Checking σ Unit
  | _, [] => pure ()
  | index, family :: rest => do
    checkOperand c positions omittable index family
    checkFrom c positions omittable (index + 1) rest

/-- Checks every operand against the family of its position. -/
def checkAll (c : CallView σ) (positions : List Family) (omittable : Nat → Bool) :
    Checking σ Unit :=
  checkFrom c positions omittable 0 positions

/-- Checks a call as written against a list of families; a different number of operands is not
    its concern. -/
def familiesStrict (c : CallView σ) (positions : List Family) (omittable : Nat → Bool) :
    Checking σ Bool := do
  if positions.length = c.count (← Checking.state) then
    checkAll c positions omittable
    return true
  else return false

/-- Checks a call against a list of families. When the operands do not fit, they may be converted
    once; every position is then checked again, and the answer is what the engine reports. -/
def familiesCheck (c : CallView σ) (positions : List Family) (omittable : Nat → Bool) :
    Checking σ Bool := do
  if positions.length = c.count (← Checking.state) then
    -- A call that fits as written is never handed to the engine.
    if ← (familiesStrict c positions omittable).tolerant then return true
    let converted ←
      if c.coerces then do c.coerce (← c.types) positions
      else pure false
    -- Without a conversion this repeats the first check, now with its fault.
    checkAll c positions omittable
    return converted
  else return false

mutual

/-- Checks a call as written; nothing is converted. -/
def checkStrict (c : CallView σ) : Signature → Checking σ Bool
  | families positions omittable => familiesStrict c positions omittable
  | oneOf alternatives => do
    if ← anyStrict c alternatives then return true
    c.mismatch ((oneOf alternatives).allowed c.operator)
  | openEnded _ answer => pure answer

/-- Whether some alternative fits the call as written. -/
def anyStrict (c : CallView σ) : List Signature → Checking σ Bool
  | [] => pure false
  | s :: rest => do
    if ← (s.checkStrict c).tolerant then return true
    anyStrict c rest

end

mutual

/-- Checks a call, converting operands where that is allowed and needed. -/
def check (c : CallView σ) : Signature → Checking σ Bool
  | families positions omittable => familiesCheck c positions omittable
  | oneOf alternatives => do
    -- Every form is tried as written before any operand is converted for one of them.
    if ← anyStrict c alternatives then return true
    if ← anyCheck c alternatives then return true
    c.mismatch ((oneOf alternatives).allowed c.operator)
  | openEnded _ answer => pure answer

/-- Whether some alternative fits the call, with conversion. -/
def anyCheck (c : CallView σ) : List Signature → Checking σ Bool
  | [] => pure false
  | s :: rest => do
    if ← (s.check c).tolerant then return true
    anyCheck c rest

end

/-- Checks one operand against the only family of a one-family signature; a signature of another
    shape is a broken definition. -/
def checkLone (c : CallView σ) (positions : List Family) (omittable : Nat → Bool) (index : Nat) :
    Checking σ Bool :=
  match positions with
  | [family] => do
    checkOperand c positions omittable index family
    return true
  | _ =>
    Checking.fail
      (.internal s!"single operand check on a checker with {positions.length} families")

end Signature

end SqlTyping
