import SqlTyping.DataType.Equality
import SqlTyping.Fault
import SqlTyping.OrderedMap
import SqlTyping.Tree.Node

namespace SqlTyping

/-!
# Sources of rows

What a table name can stand for, kept in a registry by number:

* `RowSource` — a catalog table, a query, a WITH item, or the view of a recursive WITH item from
  inside its own body, each with its row type;
* `RowSources` — the registry. Every registration gets a new number (`get?_register_self`); the view
  of a recursive item is made on first use and kept.
-/

/-- The number of a row source. -/
structure SourceId where
  index : Nat
  deriving DecidableEq, Repr, Inhabited

/-- The number as shown in messages. -/
def SourceId.text (id : SourceId) : String := s!"ns{id.index}"

/-- What a row source stands for. -/
inductive SourceKind where
  /-- A catalog table, by its qualified name. -/
  | table (names : List String)
  | query
  | withItem
  /-- A recursive WITH item as its own body sees it. -/
  | selfReference (item : SourceId)
  deriving DecidableEq, Repr

/-- Something rows come from. -/
structure RowSource where
  /-- The node that introduces it; catalog tables have none. -/
  node : Option NodeId
  kind : SourceKind
  /-- The type of its rows, without columns until it is known. -/
  row : DataType
  /-- The node it is referred to from. -/
  enclosing : Option NodeId
  deriving DecidableEq

namespace RowSource

/-- Whether this is a recursive WITH item as its own body sees it. -/
def isSelfReference (s : RowSource) : Bool :=
  match s.kind with
  | .selfReference _ => true
  | _ => false

/-- Whether this is a WITH item. -/
def isWithItem (s : RowSource) : Bool :=
  match s.kind with
  | .withItem => true
  | _ => false

end RowSource

/-- The row sources of one validation, by number and by node. -/
structure RowSources where
  sources : Array RowSource := #[]
  /-- The last registration of each node. -/
  byNode : OrderedMap NodeId SourceId := {}
  /-- The view of each recursive WITH item from inside its body. -/
  selfViews : OrderedMap NodeId SourceId := {}
  deriving DecidableEq

namespace RowSources

instance : Inhabited RowSources := ⟨{}⟩

/-- The number of row sources. -/
def size (s : RowSources) : Nat := s.sources.size

/-- The number the next row source will get. -/
def nextId (s : RowSources) : SourceId := ⟨s.size⟩

/-- The row source with the given number. -/
def get? (s : RowSources) (id : SourceId) : Option RowSource := s.sources[id.index]?

/-- The row type of the source with the given number. -/
def row? (s : RowSources) (id : SourceId) : Option DataType := (s.get? id).map (·.row)

/-- The row type of the source with the given number, without columns if there is none. -/
def rowOrEmpty (s : RowSources) (id : SourceId) : DataType := (s.row? id).getD .emptyRow

/-- The source last registered for a node. -/
def ofNode? (s : RowSources) (node : NodeId) : Option SourceId := s.byNode.get? node

/-- The view of a recursive WITH item from inside its body. -/
def selfViewOf? (s : RowSources) (item : NodeId) : Option SourceId := s.selfViews.get? item

/-- The registry with one more source at the end. -/
def push (s : RowSources) (source : RowSource) : RowSources :=
  { s with sources := s.sources.push source }

/-- Registers a catalog table. -/
def registerTable (s : RowSources) (names : List String) (row : DataType) :
    SourceId × RowSources :=
  (s.nextId, s.push { node := none, kind := .table names, row, enclosing := none })

/-- Registers the source that a node introduces; it replaces an earlier one of the same node. -/
def register (s : RowSources) (node : NodeId) (kind : SourceKind) (enclosing : Option NodeId) :
    SourceId × RowSources :=
  let pushed := s.push { node := some node, kind, row := .emptyRow, enclosing }
  (s.nextId, { pushed with byNode := s.byNode.put node s.nextId })

/-- The view of a recursive WITH item from inside its body, made on first use. The item must have
    been registered. -/
def selfView (s : RowSources) (item : NodeId) : Except Fault (SourceId × RowSources) :=
  match s.selfViewOf? item with
  | some id => .ok (id, s)
  | none =>
    match s.ofNode? item with
    | none => .error (.internal s!"WITH item {item.text} has no namespace")
    | some own =>
      let enclosing := (s.get? own).bind (·.enclosing)
      -- `byNode` keeps pointing at the item itself.
      let pushed := s.push
        { node := some item, kind := .selfReference own, row := .emptyRow, enclosing }
      .ok (s.nextId, { pushed with selfViews := s.selfViews.put item s.nextId })

/-- Sets the row type of a source once it is known. -/
def setRow (s : RowSources) (id : SourceId) (row : DataType) : Except Fault RowSources :=
  if id.index < s.size then
    .ok { s with sources := s.sources.modify id.index fun e => { e with row } }
  else .error (.internal s!"unknown namespace {id.text}")

/-! ### Reading back -/

@[simp] theorem size_push (s : RowSources) (source : RowSource) :
    (s.push source).size = s.size + 1 := by
  simp [size, push]

/-- The row type of a source that is there is its own. -/
theorem row?_of_get? {s : RowSources} {id : SourceId} {e : RowSource} (h : s.get? id = some e) :
    s.row? id = some e.row := by
  unfold row?
  rw [h]
  rfl

/-- A new source is found under its number, the others are unchanged. -/
theorem get?_push (s : RowSources) (source : RowSource) (id : SourceId) :
    (s.push source).get? id = if id = s.nextId then some source else s.get? id := by
  obtain ⟨i⟩ := id
  simp [get?, push, Array.getElem?_push, nextId, size, SourceId.mk.injEq]

/-- There is no source yet under the next number. -/
theorem get?_nextId (s : RowSources) : s.get? s.nextId = none :=
  Array.getElem?_eq_none (Nat.le_refl _)

/-- A registered source has the number handed out and no columns yet. -/
theorem get?_register_self (s : RowSources) (node : NodeId) (kind : SourceKind)
    (enclosing : Option NodeId) :
    (s.register node kind enclosing).2.get? (s.register node kind enclosing).1 =
      some { node := some node, kind, row := .emptyRow, enclosing } := by
  have h := get?_push s { node := some node, kind, row := .emptyRow, enclosing } s.nextId
  simpa [register, get?, push] using h

/-- Setting a row type changes that row type only. -/
theorem get?_setRow {s t : RowSources} {id : SourceId} {row : DataType}
    (h : s.setRow id row = .ok t) (other : SourceId) :
    t.get? other =
      if other = id then (s.get? id).map fun e => { e with row } else s.get? other := by
  unfold setRow at h
  split at h
  · obtain rfl := Except.ok.inj h
    obtain ⟨i⟩ := id
    obtain ⟨j⟩ := other
    simp only [get?, Array.getElem?_modify, SourceId.mk.injEq]
    by_cases hij : i = j
    · subst hij
      simp
    · simp [hij, Ne.symm hij]
  · cases h

end RowSources

end SqlTyping
