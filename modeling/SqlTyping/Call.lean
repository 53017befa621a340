import SqlTyping.Checking
import SqlTyping.Coercion
import SqlTyping.DataType.Equality

namespace SqlTyping

/-!
# Calls as signatures see them

* `CallView σ` — one call of an operator on states `σ`: its operands, their types, and how an operand
  is wrapped in a cast;
* `CallView.signatureText` — the call with its current operand types, `LEFT(<INTEGER>, <CHAR(3)>)`;
* `CoercionPlan.run` — an engine's plan carried out on a call;
* `CallView.coerce` — one coercion: the request is noted, then the engine's plan is carried out.
-/

/-- What an engine was asked to do: the call at that moment, its operand types, and the families
    they should fit. -/
structure CoercionRequest where
  call : String
  types : List DataType
  families : List Family
  deriving DecidableEq

/-- A call of an operator. Operands are counted with the placeholders for omitted ones. -/
structure CallView (σ : Type) where
  operator : String
  /-- Whether operands may be converted implicitly. -/
  coerces : Bool
  engine : CoercionEngine
  /-- The number of operands. -/
  count : σ → Nat
  isNull : σ → Nat → Bool
  isDefault : σ → Nat → Bool
  /-- The type of an operand. -/
  typeOf : Nat → Checking σ DataType
  /-- Wraps an operand in a cast to the type; the answer is whether it could be wrapped. -/
  castTo : Nat → DataType → Checking σ Bool
  /-- Keeps a request to the engine for the record. -/
  note : CoercionRequest → σ → σ

namespace CallView

variable {σ : Type}

/-- The types of all operands, in order. -/
def types (c : CallView σ) : Checking σ (List DataType) := do
  (List.range (c.count (← Checking.state))).mapM c.typeOf

/-- An operand in a call signature: its type between angle brackets, `DEFAULT` when it is omitted,
    and `<?>` when it has no type. -/
def operandText (c : CallView σ) (index : Nat) : Checking σ String := fun s =>
  if c.isDefault s index then (.ok "DEFAULT", s)
  else
    match c.typeOf index s with
    | (.ok t, s') => (.ok s!"<{t.text}>", s')
    | (.error _, s') => (.ok "<?>", s')

/-- The call with the types of its operands. -/
def signatureText (c : CallView σ) : Checking σ String := do
  let operands ← (List.range (c.count (← Checking.state))).mapM c.operandText
  return c.operator ++ "(" ++ ", ".intercalate operands ++ ")"

/-- Stops because the operands fit none of the `allowed` forms. -/
def mismatch {α : Type} (c : CallView σ) (allowed : String) : Checking σ α := do
  let actual ← c.signatureText
  Checking.fail (.signatureMismatch c.operator actual allowed)

end CallView

/-- Carries out a plan on a call. -/
def CoercionPlan.run {σ : Type} (c : CallView σ) : CoercionPlan → Checking σ Bool
  | stop converted => pure converted
  | fail fault => Checking.fail fault
  | askDefault index next => fun s => (next (c.isDefault s index)).run c s
  | askNull index next => fun s => (next (c.isNull s index)).run c s
  | askType index next => fun s =>
    match c.typeOf index s with
    | (answer, s') => (next answer).run c s'
  | cast index target next => fun s =>
    match c.castTo index target s with
    | (answer, s') => (next answer).run c s'

section

variable {σ : Type} {c : CallView σ} {s : σ} {start : Nat} {converted : Bool} {source : DataType}
  {family : Family} {rest : List (DataType × Family)}

/-- The standard conversions pass over an operand that is omitted or has no conversion. -/
theorem CoercionPlan.run_implicitCasts_pass
    (h : c.isDefault s start = true ∨ implicitCast? source family = none) :
    ((implicitCasts start converted ((source, family) :: rest)).run c) s =
      ((implicitCasts (start + 1) converted rest).run c) s := by
  simp only [implicitCasts, run]
  rcases h with h | h
  · rw [h]
  · cases c.isDefault s start <;> simp only [h]

/-- They convert any other operand and go on behind it. -/
theorem CoercionPlan.run_implicitCasts_cast {target : DataType} (hd : c.isDefault s start = false)
    (hto : implicitCast? source family = some target) :
    ((implicitCasts start converted ((source, family) :: rest)).run c) s =
      (c.castTo start target >>= fun done =>
        (implicitCasts (start + 1) (done || converted) rest).run c) s := by
  cases hx : c.castTo start target s with
  | mk r s' =>
    cases r with
    | ok done =>
      rw [Checking.bind_of_ok hx]
      simp only [implicitCasts, run, hd, hto, hx]
    | error e =>
      rw [Checking.bind_of_error hx]
      simp only [implicitCasts, run, hd, hto, hx]
      rfl

end

/-- Notes the request, then lets the engine convert the operands. The request is kept with the call written
    down, which takes one more look at every operand than converting does: no check asks for this text. On
    a call that shows the same however often it is looked at, it makes no difference what the engine finds
    there (`CallView.Stable.exists_coerce_eq`). -/
def CallView.coerce {σ : Type} (c : CallView σ) (types : List DataType) (families : List Family) :
    Checking σ Bool := do
  let call ← c.signatureText
  Checking.update (c.note { call, types, families })
  (c.engine.plan c.operator types families).run c

end SqlTyping
