import SqlTyping.NameMatching
import SqlTyping.Path
import SqlTyping.Scope

namespace SqlTyping

/-!
# Looking up names through scopes

A lookup asks the scopes of a chain one after the other; the first one with an answer ends it.

* `ScopeTree.firstAlong` — the common form of all lookups;
* `ScopeTree.lookupTable` — a table by the leading parts of a name, with the parts left over;
* `ScopeTree.tableNamed` — a table by its whole name;
* `ScopeTree.lookupColumn` — a column by its name alone; two bindings of one scope with such a column
  make it ambiguous, and catalog tables are not searched;
* `Matches` — a sink that keeps every match reported to it.
-/

/-- What a table name was found to stand for. -/
structure TableMatch where
  source : SourceId
  nullable : Bool
  /-- The scope in which it was found. -/
  scope : ScopeId
  path : Path
  /-- The parts of the name behind the match. -/
  remaining : List String
  deriving DecidableEq

/-- What a column name was found to stand for. -/
structure ColumnMatch where
  scope : ScopeId
  source : SourceId
  /-- The name of the binding. -/
  table : String
  field : Field DataType
  nullable : Bool
  deriving DecidableEq

/-- A column of a binding may be null when its type says so or the rows may be missing. -/
def ColumnMatch.type (c : ColumnMatch) : DataType := c.field.type.orNullable c.nullable

/-- The fault for a WITH item without a row source. -/
def missingItem (name : String) (item : NodeId) : Fault :=
  .internal s!"WITH item {name} ({item.text}) has no namespace"

namespace ScopeTree

/-- The first answer along a chain of scopes. -/
def firstAlong {α : Type} (t : ScopeTree) (ask : ScopeId → Scope → Except Fault (Option α)) :
    List ScopeId → Except Fault (Option α)
  | [] => .ok none
  | id :: rest =>
    match t.get? id with
    | none => .error (unknown id)
    | some scope =>
      match ask id scope with
      -- An inner scope hides what the scopes around it have under the same name.
      | .ok none => t.firstAlong ask rest
      | answer => answer

/-! ### Tables -/

/-- The row source of the WITH item that a scope shows, when `names` is its one-part name. Names of
    WITH items are compared exactly. -/
def itemMatch (scope : Scope) (names : List String) (sources : RowSources) :
    Except Fault (Option SourceId) :=
  let found (item : NodeId) (name : String) (source : Option SourceId) :
      Except Fault (Option SourceId) :=
    if names = [name] then
      match source with
      | some id => .ok (some id)
      | none => .error (missingItem name item)
    else .ok none
  match scope.role with
  | .catalog | .block => .ok none
  | .withItem item name => found item name (sources.ofNode? item)
  | .recursiveItem item name => found item name (sources.selfViewOf? item)

/-- The first binding whose name leads `names`, with its place in the list. -/
def leadingBinding? (m : NameMatching) (names : List String) (start : Nat) :
    List Binding → Option (Nat × Binding)
  | [] => none
  | b :: rest =>
    if m.leads b.names names then some (start, b) else leadingBinding? m names (start + 1) rest

/-- The table that one scope has for a name. The WITH item comes before the bindings. -/
def tableIn (names : List String) (m : NameMatching) (path : Path) (sources : RowSources)
    (id : ScopeId) (scope : Scope) : Except Fault (Option TableMatch) :=
  match itemMatch scope names sources with
  | .error e => .error e
  | .ok (some source) =>
    .ok (some
      { source, nullable := false, scope := id
        path := path.plus (sources.rowOrEmpty source) 0 (names.headD "")
        remaining := [] })
  | .ok none =>
    .ok ((leadingBinding? m names 0 scope.bindings).map fun (ordinal, b) =>
      { source := b.source, nullable := b.nullable, scope := id
        path := path.plus (sources.rowOrEmpty b.source) ordinal b.name
        remaining := names.drop b.names.length })

/-- The table that a name stands for as seen from a scope. -/
def lookupTable (t : ScopeTree) (scope : ScopeId) (names : List String) (m : NameMatching)
    (path : Path) (sources : RowSources) : Except Fault (Option TableMatch) :=
  t.firstAlong (tableIn names m path sources) (t.chain scope)

/-- The table that a name stands for; it is a fault when there is none. -/
def requireTable (t : ScopeTree) (scope : ScopeId) (names : List String) (m : NameMatching)
    (sources : RowSources) : Except Fault TableMatch :=
  match t.lookupTable scope names m .empty sources with
  | .error e => .error e
  | .ok (some found) => .ok found
  | .ok none => .error (.objectNotFound (qualifiedName names))

/-- The row source that one scope has under exactly this name. A WITH scope, recursive or not, has
    the item itself. -/
def namedIn (names : List String) (m : NameMatching) (sources : RowSources) (scope : Scope) :
    Except Fault (Option SourceId) :=
  let bound := (scope.bindings.find? fun b => m.sameAll b.names names).map (·.source)
  match scope.role with
  | .withItem item name | .recursiveItem item name =>
    if names = [name] then
      match sources.ofNode? item with
      | some id => .ok (some id)
      | none => .error (missingItem name item)
    else .ok bound
  | _ => .ok bound

/-- The row source with exactly this name as seen from a scope. -/
def tableNamed (t : ScopeTree) (scope : ScopeId) (names : List String) (m : NameMatching)
    (sources : RowSources) : Except Fault (Option SourceId) :=
  t.firstAlong (fun _ => namedIn names m sources) (t.chain scope)

/-- The row source with exactly this name; it is a fault when there is none. -/
def requireTableNamed (t : ScopeTree) (scope : ScopeId) (names : List String) (m : NameMatching)
    (sources : RowSources) : Except Fault SourceId :=
  match t.tableNamed scope names m sources with
  | .error e => .error e
  | .ok (some id) => .ok id
  | .ok none => .error (.objectNotFound (qualifiedName names))

/-! ### Columns -/

/-- The column of a binding with the given name: the first one of its row type. -/
def columnOf (name : String) (m : NameMatching) (sources : RowSources) (id : ScopeId)
    (b : Binding) : Option ColumnMatch :=
  ((sources.row? b.source).bind fun row => row.field? name m.isCaseSensitive).map fun field =>
    { scope := id, source := b.source, table := b.name, field, nullable := b.nullable }

/-- The column that one scope has under a name: that of the only binding with such a column. -/
def columnIn (name : String) (m : NameMatching) (sources : RowSources) (id : ScopeId)
    (scope : Scope) : Except Fault (Option ColumnMatch) :=
  if scope.role = .catalog then .ok none
  else
    match scope.bindings.filterMap (columnOf name m sources id) with
    | [] => .ok none
    -- Two columns of that name in one row type do not count: `columnOf` takes the first.
    | [column] => .ok (some column)
    | _ => .error (.ambiguousColumn name)

/-- The column that a name stands for as seen from a scope. -/
def lookupColumn (t : ScopeTree) (scope : ScopeId) (name : String) (m : NameMatching)
    (sources : RowSources) : Except Fault (Option ColumnMatch) :=
  t.firstAlong (columnIn name m sources) (t.chain scope)

end ScopeTree

/-! ### Collecting matches -/

/-- Every match reported so far, in order. -/
structure Matches where
  found : List TableMatch := []
  deriving DecidableEq

namespace Matches

/-- The matches with one more at the end. -/
def report (ms : Matches) (m : TableMatch) : Matches := ⟨ms.found ++ [m]⟩

/-- The number of matches. -/
def count (ms : Matches) : Nat := ms.found.length

/-- The first match. -/
def first? (ms : Matches) : Option TableMatch := ms.found.head?

/-- The last match. -/
def last? (ms : Matches) : Option TableMatch := ms.found.getLast?

/-- The match, when there is exactly one. -/
def only? (ms : Matches) : Option TableMatch :=
  match ms.found with
  | [m] => some m
  | _ => none

end Matches

/-- Looks up a table and reports what is found to a sink. -/
def ScopeTree.reportTable (t : ScopeTree) (scope : ScopeId) (names : List String)
    (m : NameMatching) (path : Path) (sources : RowSources) (sink : Matches) :
    Except Fault Matches :=
  match t.lookupTable scope names m path sources with
  | .error e => .error e
  | .ok (some found) => .ok (sink.report found)
  | .ok none => .ok sink

end SqlTyping
