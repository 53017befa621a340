import SqlTyping.Family
import SqlTyping.Text.Case

namespace SqlTyping

/-!
# Data types

The type that validation gives to an expression or a query:

* `DataType` — a type name with nullability, precision, scale, and the structure of row and
  collection types; `Field` is a named, numbered column of a row type;
* `CastTarget` — the type written in `CAST(x AS …)`, `DataType.ofTarget` the type it produces;
* `DataType.row` — the row type of a list of named columns, which numbers them from 0
  (`row_fields_index`);
* `DataType.text`, `DataType.fullText` — the type in SQL spelling, without and with `NOT NULL`.
-/

/-- A column of a row type whose type is `α`: its name, its position and its type. -/
structure Field (α : Type) where
  name : String
  index : Nat
  type : α
  deriving DecidableEq, Repr

/-- The type of an expression or a query. -/
structure DataType where
  name : TypeName
  nullable : Bool := false
  precision : Option Nat := none
  scale : Option Nat := none
  /-- The columns of a ROW type, in order. -/
  fields : List (Field DataType) := []
  /-- The element type of ARRAY and MULTISET, the value type of MAP. -/
  component : Option DataType := none

/-- The target of `CAST(x AS DECIMAL(10, 2))`. -/
structure CastTarget where
  name : TypeName
  precision : Option Nat := none
  scale : Option Nat := none
  deriving DecidableEq, Repr

/-- A type name followed by its arguments, as in `DECIMAL(10, 2)`. A scale without a precision is
    not shown. -/
def TypeName.withArguments (t : TypeName) : Option Nat → Option Nat → String
  | some p, some s => s!"{t.sqlName}({p}, {s})"
  | some p, none => s!"{t.sqlName}({p})"
  | none, _ => t.sqlName

/-- The target in SQL spelling. -/
def CastTarget.text (c : CastTarget) : String :=
  c.name.withArguments c.precision c.scale

namespace DataType

/-! ### Types without structure -/

instance : Inhabited DataType := ⟨⟨.any, true, none, none, [], none⟩⟩

/-- The NOT NULL type of the given name. -/
def notNull (t : TypeName) : DataType := { name := t }

/-- The nullable type of the given name. -/
def orNull (t : TypeName) : DataType := { name := t, nullable := true }

/-- The type of the untyped NULL literal. -/
def null : DataType := orNull .null

/-- The opaque type, which every family accepts. -/
def any : DataType := orNull .any

/-- The type of a query handed over as an operand. -/
def cursor : DataType := notNull .cursor

/-- The type of a keyword operand. -/
def symbol : DataType := notNull .symbol

/-- The same type with the given nullability. -/
def withNullable (t : DataType) (nullable : Bool) : DataType := { t with nullable }

/-- The same type, made nullable when `extra` holds. -/
def orNullable (t : DataType) (extra : Bool) : DataType := t.withNullable (t.nullable || extra)

@[simp] theorem nullable_withNullable (t : DataType) (b : Bool) :
    (t.withNullable b).nullable = b := rfl

@[simp] theorem name_withNullable (t : DataType) (b : Bool) : (t.withNullable b).name = t.name :=
  rfl

@[simp] theorem withNullable_withNullable (t : DataType) (b c : Bool) :
    (t.withNullable b).withNullable c = t.withNullable c := rfl

/-- Nullability set to its own value changes nothing. -/
@[simp] theorem withNullable_self (t : DataType) : t.withNullable t.nullable = t := by
  cases t; rfl

/-- The type that a cast to `c` gives to an operand of the given nullability. -/
def ofTarget (c : CastTarget) (nullable : Bool) : DataType :=
  { name := c.name, nullable, precision := c.precision, scale := c.scale }

/-- The cast target that names `t`, structure and nullability left out. -/
def toTarget (t : DataType) : CastTarget :=
  { name := t.name, precision := t.precision, scale := t.scale }

/-- The target of a cast is the type's name, precision and scale. -/
@[simp] theorem toTarget_ofTarget (c : CastTarget) (b : Bool) : (ofTarget c b).toTarget = c := rfl

/-- The array type with the given element type. -/
def arrayOf (component : DataType) : DataType := { name := .array, component := some component }

/-! ### Row types -/

/-- Columns numbered from `start`. -/
def numbered (start : Nat) : List (String × DataType) → List (Field DataType)
  | [] => []
  | (name, type) :: rest => ⟨name, start, type⟩ :: numbered (start + 1) rest

/-- The NOT NULL row type with the given columns, numbered from 0. -/
def row (columns : List (String × DataType)) : DataType :=
  { name := .row, fields := numbered 0 columns }

/-- The row type without columns: what a namespace shows before it has been validated. -/
def emptyRow : DataType := notNull .row

@[simp] theorem length_numbered (start : Nat) (columns : List (String × DataType)) :
    (numbered start columns).length = columns.length := by
  induction columns generalizing start with
  | nil => rfl
  | cons c rest ih => simp [numbered, ih]

/-- Column `i` of a numbered list carries the number `start + i`, and the name and type it was
    given. -/
theorem getElem?_numbered (start i : Nat) (columns : List (String × DataType)) :
    (numbered start columns)[i]? = columns[i]?.map fun c => ⟨c.1, start + i, c.2⟩ := by
  induction columns generalizing start i with
  | nil => simp [numbered]
  | cons c rest ih =>
    cases i with
    | zero => simp [numbered]
    | succ i => simp [numbered, ih, Nat.add_assoc, Nat.add_comm 1 i]

/-- Column `i` of a row type carries the number `i`. -/
theorem row_fields_index (columns : List (String × DataType)) (i : Nat) :
    (row columns).fields[i]?.map (·.index) = columns[i]?.map fun _ => i := by
  simp only [row, getElem?_numbered, Option.map_map, Nat.zero_add]
  rfl

/-- The names of a row type are the names it was built from. -/
@[simp] theorem names_numbered (start : Nat) (columns : List (String × DataType)) :
    (numbered start columns).map (·.name) = columns.map (·.1) := by
  induction columns generalizing start with
  | nil => rfl
  | cons c rest ih => simp [numbered, ih]

/-- The number of columns. -/
def fieldCount (t : DataType) : Nat := t.fields.length

/-- The column names, in order. -/
def fieldNames (t : DataType) : List String := t.fields.map (·.name)

/-- The first column with the given name. -/
def field? (t : DataType) (name : String) (caseSensitive : Bool) : Option (Field DataType) :=
  t.fields.find? fun f =>
    if caseSensitive then f.name == name else Text.sameIgnoringCase f.name name

/-- The row type with its columns renamed in order; there must be one name for each column. -/
def renameFields? (t : DataType) (names : List String) : Option DataType :=
  if names.length = t.fields.length then
    some (row (List.zipWith (fun name f => (name, f.type)) names t.fields))
  else none

/-- Renaming succeeds exactly when there is one name for each column. -/
theorem renameFields?_isSome_iff (t : DataType) (names : List String) :
    (t.renameFields? names).isSome = true ↔ names.length = t.fieldCount := by
  unfold renameFields? fieldCount
  split <;> simp_all

/-! ### Properties -/

/-- Whether this is a row type. -/
def isRow (t : DataType) : Bool := t.name == .row

/-- Whether this is the type of the NULL literal. -/
def isNullType (t : DataType) : Bool := t.name == .null

/-- The family the type counts in. -/
def family? (t : DataType) : Option Family := Family.of? t.name

/-! ### Text -/

mutual

/-- The type in SQL spelling, nullability left out: a row type shows its columns, a collection its
    element type, any other type its name and arguments. -/
def text : DataType → String
  | ⟨name, _, precision, scale, fields, component⟩ =>
    match name with
    -- A row type has no name of its own, a collection puts it last.
    | .row => "RecordType(" ++ ", ".intercalate (fieldTexts fields) ++ ")"
    | .array | .multiset | .map => componentText component ++ name.sqlName
    | _ => name.withArguments precision scale

/-- Each column as its type followed by its name. -/
def fieldTexts : List (Field DataType) → List String
  | [] => []
  | ⟨name, _, type⟩ :: rest => (text type ++ " " ++ name) :: fieldTexts rest

/-- The element type with a blank behind it, or nothing. -/
def componentText : Option DataType → String
  | none => ""
  | some type => text type ++ " "

end

/-- The type in SQL spelling with `NOT NULL` where it applies; a row type never shows it. -/
def fullText (t : DataType) : String :=
  if t.nullable || t.isRow then t.text else t.text ++ " NOT NULL"

example :
    (row [("EMPNO", notNull .integer), ("ENAME", ofTarget ⟨.varchar, some 20, none⟩ true)]).text =
      "RecordType(INTEGER EMPNO, VARCHAR(20) ENAME)" := by decide

example : (arrayOf (notNull .date)).fullText = "DATE ARRAY NOT NULL" := by decide

end DataType

end SqlTyping
