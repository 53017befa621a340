import SqlTyping.DataType.Equality
import SqlTyping.Fault
import SqlTyping.OrderedMap
import SqlTyping.Signature
import SqlTyping.Text.Case

namespace SqlTyping

/-!
# Operators

* `ReturnRule` — how the type of a call follows from the types of its operands;
* `Operator` — a name, a signature and a return rule;
* `OperatorTable` — operators by name, ignoring the case of ASCII letters; the last operator
  registered under a name is the one found (`lookup?_register`).
-/

/-- How the type of a call follows from the types of its operands. -/
inductive ReturnRule where
  /-- Always this type. -/
  | fixed (type : DataType)
  /-- This type, nullable when some operand is. -/
  | fixedNullable (type : DataType)
  /-- The type of an operand, nullable when some operand is. -/
  | operand (index : Nat)
  /-- The type of another rule, made nullable. -/
  | nullable (rule : ReturnRule)
  deriving DecidableEq

namespace ReturnRule

/-- The type of a call whose operands have the given types. -/
def infer (types : List DataType) : ReturnRule → Except Fault DataType
  | fixed type => .ok type
  | fixedNullable type => .ok (type.orNullable (types.any (·.nullable)))
  | operand index =>
    match types[index]? with
    | some type => .ok (type.withNullable (types.any (·.nullable)))
    | none =>
      .error (.internal
        s!"return type taken from operand {index} of a call with {types.length} operands")
  | nullable rule => (infer types rule).map (·.withNullable true)

/-- The operand the type is taken from, if there is one. -/
def source? : ReturnRule → Option Nat
  | fixed _ | fixedNullable _ => none
  | operand index => some index
  | nullable rule => rule.source?

/-- A type is inferred exactly when the operand it is taken from is there. -/
theorem infer_isOk_iff (types : List DataType) (rule : ReturnRule) :
    (∃ type, rule.infer types = .ok type) ↔ ∀ index, rule.source? = some index →
      index < types.length := by
  induction rule with
  | fixed type => simp [infer, source?]
  | fixedNullable type => simp [infer, source?]
  | operand index =>
    simp only [infer, source?, Option.some.injEq]
    cases h : types[index]? with
    | none =>
      -- No operand at `index` means that the list ends before it.
      have := List.getElem?_eq_none_iff.1 h
      simp
      omega
    | some type =>
      obtain ⟨hi, -⟩ := List.getElem?_eq_some_iff.1 h
      simp [hi]
  | nullable rule ih =>
    simp only [infer, source?]
    rw [← ih]
    cases infer types rule <;> simp [Except.map]

end ReturnRule

/-- A function known to the validator. -/
structure Operator where
  name : String
  signature : Signature
  returns : ReturnRule

/-- The admitted numbers of operands. -/
def Operator.arity (op : Operator) : Arity := op.signature.arity

/-- The forms listed when a call does not fit. -/
def Operator.allowed (op : Operator) : String := op.signature.allowed op.name

/-- Operators by folded name, in order of first registration. -/
structure OperatorTable where
  byName : OrderedMap String Operator := {}

namespace OperatorTable

instance : Inhabited OperatorTable := ⟨{}⟩

/-- The table without operators. -/
def empty : OperatorTable := {}

/-- The table with one more operator; it replaces one of the same folded name. -/
def register (t : OperatorTable) (op : Operator) : OperatorTable :=
  ⟨t.byName.put (Text.fold op.name) op⟩

/-- The operator of a name, ignoring case. -/
def lookup? (t : OperatorTable) (name : String) : Option Operator :=
  t.byName.get? (Text.fold name)

/-- The number of operators. -/
def size (t : OperatorTable) : Nat := t.byName.size

/-- The folded names in order of first registration. -/
def names (t : OperatorTable) : List String := t.byName.keys

/-- The table with operators registered in order. -/
def registerAll (t : OperatorTable) (ops : List Operator) : OperatorTable := ops.foldl register t

/-- The operator registered last under a name is found, others stay. -/
theorem lookup?_register (t : OperatorTable) (op : Operator) (name : String) :
    (t.register op).lookup? name =
      if Text.fold name = Text.fold op.name then some op else t.lookup? name :=
  OrderedMap.get?_put t.byName (Text.fold op.name) (Text.fold name) op

end OperatorTable

end SqlTyping
