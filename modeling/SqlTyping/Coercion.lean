import SqlTyping.DataType
import SqlTyping.Fault

namespace SqlTyping

/-!
# Implicit conversion of operands

When the operands of a call do not fit a signature, an engine may convert them:

* `CoercionPlan` — what an engine does to a call: it may look at operands and convert them, and
  ends by saying whether it converted any;
* `CoercionEngine` — the plan for given operand types and wanted families;
* `implicitCast?` — the conversion from a type into a family, if there is one;
* `CoercionEngine.implicitCasts` — the engine that converts each operand by `implicitCast?`.
-/

/-- What an engine does to a call, one step at a time. -/
inductive CoercionPlan where
  /-- Ends; `converted` is the engine's report that it changed an operand. -/
  | stop (converted : Bool)
  | fail (fault : Fault)
  /-- Asks whether an operand is the placeholder for an omitted one. -/
  | askDefault (index : Nat) (next : Bool → CoercionPlan)
  /-- Asks whether an operand is the NULL literal. -/
  | askNull (index : Nat) (next : Bool → CoercionPlan)
  /-- Asks for the type of an operand. -/
  | askType (index : Nat) (next : Except Fault DataType → CoercionPlan)
  /-- Wraps an operand in a cast; the answer is whether it could be wrapped. -/
  | cast (index : Nat) (target : DataType) (next : Except Fault Bool → CoercionPlan)

/-- The plan for a call of an operator, from the types of its operands before any conversion and the
    families they should fit. -/
structure CoercionEngine where
  plan : (operator : String) → List DataType → List Family → CoercionPlan

/-! ### The standard conversions -/

/-- Whether values counted in the first family convert implicitly into the second one. -/
def converts : Family → Family → Bool
  | .character, .numeric | .character, .exactNumeric | .character, .approximateNumeric
  | .character, .integer | .character, .decimal | .character, .date | .character, .time
  | .character, .timestamp | .character, .datetime | .character, .boolean
  | .character, .binary => true
  | .numeric, .character | .boolean, .character | .date, .character | .time, .character
  | .timestamp, .character | .intervalYearMonth, .character | .intervalDayTime, .character => true
  | .numeric, .string | .boolean, .string | .date, .string | .time, .string | .timestamp, .string
  | .intervalYearMonth, .string | .intervalDayTime, .string => true
  | .numeric, .exactNumeric | .numeric, .approximateNumeric | .numeric, .integer
  | .numeric, .decimal => true
  | .date, .timestamp | .timestamp, .date => true
  | _, _ => false

/-- The NOT NULL type a conversion produces; decimals have 19 digits and no places. -/
def conversionType : TypeName → DataType
  | .decimal => { name := .decimal, precision := some 19, scale := some 0 }
  | t => .notNull t

/-- The type into which `source` is implicitly converted to fit `family`: none when it fits as it is
    or must not be converted. The result is nullable when the source is; NULL converts into every
    family that has a conversion type. -/
def implicitCast? (source : DataType) (family : Family) : Option DataType :=
  if family.accepts source.name then none
  else
    match family.target? with
    | none => none
    | some target =>
      -- NULL gets no arguments: no decimal places are known for it.
      if source.isNullType then some (.orNull target)
      else
        match source.family? with
        | none => none
        | some own =>
          if converts own family then
            some ((conversionType target).withNullable source.nullable)
          else none

@[simp] theorem name_conversionType (t : TypeName) : (conversionType t).name = t := by
  cases t <;> rfl

/-- The result of a conversion fits the family. -/
theorem accepts_implicitCast? {source target : DataType} {family : Family}
    (h : implicitCast? source family = some target) : family.accepts target.name = true := by
  unfold implicitCast? at h
  cases hf : family.target? with
  | none => simp [hf] at h
  | some t =>
    have ht := Family.accepts_of_target? hf
    simp only [hf] at h
    repeat' split at h
    all_goals simp only [reduceCtorEq, Option.some.injEq] at h
    all_goals subst h
    -- The NULL literal, then a source of a family of its own.
    · exact ht
    · simpa using ht

namespace CoercionPlan

/-- Converts the operands from `index` on, skipping omitted ones, each by `implicitCast?`. -/
def implicitCasts (index : Nat) (converted : Bool) : List (DataType × Family) → CoercionPlan
  | [] => stop converted
  | (source, family) :: rest =>
    askDefault index fun omitted =>
      -- Types were taken before the first conversion; only omission is asked for now.
      match omitted, implicitCast? source family with
      | true, _ | _, none => implicitCasts (index + 1) converted rest
      | false, some target =>
        cast index target fun
          | .ok done => implicitCasts (index + 1) (done || converted) rest
          | .error e => fail e

/-- Performs the given conversions in order; the first failure ends it. -/
def inOrder (converted : Bool) : List (Nat × DataType) → CoercionPlan
  | [] => stop converted
  | (index, target) :: rest =>
    cast index target fun
      | .ok done => inOrder (done || converted) rest
      | .error e => fail e

end CoercionPlan

/-- The engine with the standard conversions. -/
def CoercionEngine.implicitCasts : CoercionEngine :=
  ⟨fun _ types families => .implicitCasts 0 false (types.zip families)⟩

end SqlTyping
