import SqlTyping.Session

namespace SqlTyping

/-!
# Column lists of queries

* `freshName` — a column name that no earlier column has: the name itself, else the name followed
  by the least counter that makes it new;
* `Columns.add`, `Columns.addRow`, `Columns.addBindings` — the columns so far with one more, with
  those of a row, and with those of a scope, under fresh names;
* `unionRow` — the row type of a set operation;
* `renamed` — a row type under the names of a column list.
-/

/-- The columns of a query so far: names and types, in order. -/
abbrev Columns := List (String × DataType)

/-- The column names so far. -/
def Columns.names (cs : Columns) : List String := cs.map (·.1)

/-- The least counter from `start` on, tried `tries` times, that makes a new name; the last one
    tried when none does. -/
def firstFresh (name : String) (taken : List String) (start : Nat) : Nat → String
  | 0 => name ++ toString start
  | tries + 1 =>
    if name ++ toString start ∈ taken then firstFresh name taken (start + 1) tries
    else name ++ toString start

/-- A name that is not taken: the name itself, else followed by the least counter that makes it
    new. One of the first `taken.length + 1` counters does. -/
def freshName (name : String) (taken : List String) : String :=
  if name ∈ taken then firstFresh name taken 0 taken.length else name

namespace Columns

/-- The columns with one more under a fresh name. -/
def add (cs : Columns) (name : String) (type : DataType) : Columns :=
  cs ++ [(freshName name cs.names, type)]

/-- The columns with all columns of a binding under fresh names; they may be null when the rows of
    the binding may be missing. -/
def addRow (cs : Columns) (row : DataType) (nullable : Bool) : Columns :=
  row.fields.foldl (fun cs f => cs.add f.name (f.type.orNullable nullable)) cs

/-- The columns with those of every binding of a scope, in order. -/
def addBindings (cs : Columns) (sources : RowSources) (bindings : List Binding) : Columns :=
  bindings.foldl (fun cs b => cs.addRow (sources.rowOrEmpty b.source) b.nullable) cs

end Columns

/-- The name of a column before it is made fresh: its label, the last part of a column reference,
    or `EXPR$` and its place in the SELECT list. -/
def baseName (label : Option String) (node : Node) (place : Nat) : String :=
  match label, node with
  | some l, _ => l
  | none, .identifier names => names.getLast?.getD s!"EXPR${place}"
  | none, _ => s!"EXPR${place}"

/-- The row type of a set operation: the columns of the left input, each nullable when it is on
    either side. Both sides must have equally many columns. -/
def unionRow (operation : String) (left right : DataType) : Except Fault DataType :=
  if left.fieldCount = right.fieldCount then
    -- Types are not merged: only the nullability of the right side is looked at.
    .ok (.row (List.zipWith (fun l r => (l.name, l.type.orNullable r.type.nullable))
      left.fields right.fields))
  else .error (.setOperationMismatch operation)

/-- The row type of a WITH item under the names of its column list, if it has one. -/
def renamed (name : String) (columns : Option (List String)) (row : DataType) :
    Except Fault DataType :=
  match columns with
  | none => .ok row
  | some names =>
    match row.renameFields? names with
    | some r => .ok r
    | none => .error (.columnListMismatch name names.length row.fieldCount)

end SqlTyping
