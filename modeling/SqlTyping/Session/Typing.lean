import SqlTyping.Session.CallTyping
import SqlTyping.Session.Columns
import SqlTyping.Session.Reference

namespace SqlTyping

/-!
# Types of queries and expressions

One step for each kind of node, given how the parts below it are validated, and the recursion that
ties the steps together:

* `queryStep`, `expressionStep` — the type of a query or an expression, recorded for its node when it
  is found. An expression is stripped of the casts around it first, so one step leads from a node to
  the nodes below it that are no casts;
* `visitOn`, `visitAt` — validation down to a given depth, on any host and on a session. A tree without
  cycles is never deeper than it has nodes, so `Session.validateQuery` and `Session.deriveType` go one
  deeper than that.
-/

/-! ### Queries -/

/-- Binds a table of a FROM list in the block's scope. The name is looked up from the scope around
    the block, and no part of it may be left over. -/
def bindTable (parent scope : ScopeId) (entry : NodeId) (name : List String)
    (label : Option String) : Validation Unit := do
  let s ← Checking.state
  let found ← Checking.ofExcept (s.scopes.requireTable parent name s.settings.matching s.sources)
  -- A leading part was enough to match, but `t.c` in a FROM list is no table.
  if !found.remaining.isEmpty then
    Checking.fail (.objectNotFound (qualifiedName name))
  else
    if (s.sources.get? found.source).any RowSource.isSelfReference then
      Checking.update fun s =>
        { s with selfReferences := s.selfReferences ++ [(entry, found.source)] }
    match exposedName? name label with
    | none => Checking.fail (.internal s!"table reference {entry.text} has no name")
    | some exposed =>
      match s.sources.row? found.source with
      | some row => Validation.record entry row
      | none => pure ()
      Validation.bindName scope exposed found.source

/-- Binds the row type of a query of a FROM list, as a row source of its own. -/
def bindDerived (scope : ScopeId) (block entry : NodeId) (label : String) (row : DataType) :
    Validation Unit := do
  let source ← Validation.register entry .query (some block)
  Validation.setRow source row
  Validation.record entry row
  Validation.bindName scope label source

variable {σ : Type} [Host σ]

/-- Binds a query of a FROM list in the block's scope. The query does not see the other entries. -/
def bindSubquery (v : Visit.On σ) (parent scope : ScopeId) (block entry query : NodeId)
    (label : String) : Checking σ Unit := do
  let row ← v.query parent query
  Host.lift (bindDerived scope block entry label row)

/-- Binds one entry of a FROM list. -/
def bindSource (v : Visit.On σ) (parent scope : ScopeId) (block entry : NodeId) : Checking σ Unit := do
  match ← Host.lift (Validation.node entry) with
  | .tableRef name label =>
    Host.noting (.binding parent entry name) (bindTable parent scope entry name label)
  | .subqueryRef query label => bindSubquery v parent scope block entry query label
  | other => Checking.fail (.notAQuery entry.text other.kind)

/-- The columns with those of one entry of a SELECT list. -/
def itemColumns (v : Visit.On σ) (scope : ScopeId) (columns : Columns) (place : Nat) :
    SelectItem → Checking σ Columns
  | .star => do
    let s ← Host.noting (.search scope) Checking.state
    let bindings := ((s.scopes.get? scope).map (·.bindings)).getD []
    return columns.addBindings s.sources bindings
  | .expression id label => do
    let type ← v.expression scope id
    let node ← Host.lift (Validation.node id)
    return columns.add (baseName label node place) type

/-- The columns with those of the entries from `place` on. -/
def selectColumns (v : Visit.On σ) (scope : ScopeId) (columns : Columns) (place : Nat) :
    List SelectItem → Checking σ Columns
  | [] => pure columns
  | item :: rest => do
    selectColumns v scope (← itemColumns v scope columns place item) (place + 1) rest

/-- A SELECT after its FROM list: the condition, if there is one, and the columns. -/
def selectTail (v : Visit.On σ) (scope : ScopeId) (block : SelectBlock) : Checking σ DataType := do
  match block.condition with
  | some condition => let _ ← v.expression scope condition
  | none => pure ()
  return .row (← selectColumns v scope [] 0 block.items)

/-- The row type of a SELECT. -/
def selectRow (v : Visit.On σ) (parent : ScopeId) (id : NodeId) (block : SelectBlock) :
    Checking σ DataType := do
  -- FROM entries first, as the condition and the SELECT list refer to them.
  let scope ← Host.lift (Validation.onScopes (·.newBlock parent (some id)))
  block.sources.forM (bindSource v parent scope id)
  selectTail v scope block

omit [Host σ] in
/-- The row type of a set operation. -/
def setOperationRow (v : Visit.On σ) (scope : ScopeId) (operation : SetOperation) :
    Checking σ DataType := do
  let left ← v.query scope operation.left
  let right ← v.query scope operation.right
  Checking.ofExcept (unionRow operation.name left right)

/-- The row type of a recursive WITH item. Its first input is validated where the item is not yet
    visible and gives the row type of the item inside its body; then the whole body is validated
    with the item visible. -/
def recursiveRow (v : Visit.On σ) (parent : ScopeId) (id : NodeId) (name : String) (item : WithItem) :
    Checking σ DataType := do
  match ← Host.lift (Validation.node item.query) with
  | .setOperation operation =>
    let view ← Host.lift (Validation.selfView id)
    -- Validated from `parent`, the anchor cannot see the item.
    let anchor ← v.query parent operation.left
    let row ← Checking.ofExcept (renamed name item.columns anchor)
    Host.lift (Validation.setRow view row)
    let scope ← Host.lift (Validation.onScopes (·.newRecursiveItem parent id name))
    -- The whole body, the anchor once more: its names may now mean the item.
    v.query scope item.query
  | _ => Checking.fail (.noAnchor name)

/-- Shows a WITH item whose query has come to the row type `body`; the result is the scope that shows it. -/
def showItem (parent : ScopeId) (id : NodeId) (item : WithItem) (source : SourceId) (body : DataType) :
    Validation ScopeId := do
  let row ← Checking.ofExcept (renamed (qualifiedName item.name) item.columns body)
  Validation.setRow source row
  Validation.record id row
  Validation.onScopes (·.newWithItem parent id (qualifiedName item.name))

/-- Validates a WITH item; the result is the scope that shows it. -/
def bindWithItem (v : Visit.On σ) (parent : ScopeId) (id : NodeId) : Checking σ ScopeId := do
  match ← Host.lift (Validation.node id) with
  | .withItem item =>
    let source ← Host.lift (Validation.register id .withItem none)
    let body ←
      if item.recursive then recursiveRow v parent id (qualifiedName item.name) item
      else v.query parent item.query
    Host.lift (showItem parent id item source body)
  | other => Checking.fail (.notAQuery id.text other.kind)

/-- The row type of a WITH query: each item sees the ones before it, the body sees all. -/
def withRow (v : Visit.On σ) (scope : ScopeId) (body : NodeId) : List NodeId → Checking σ DataType
  | [] => v.query scope body
  | item :: rest => do
    withRow v (← bindWithItem v scope item) body rest

/-- The row type of a query. -/
def queryRow (v : Visit.On σ) (scope : ScopeId) (id : NodeId) : Node → Checking σ DataType
  | .select block => selectRow v scope id block
  | .setOperation operation => setOperationRow v scope operation
  | .withQuery items body => withRow v scope body items
  | other => Checking.fail (.notAQuery id.text other.kind)

/-- Validates a query and records its row type. -/
def queryStep (v : Visit.On σ) (scope : ScopeId) (id : NodeId) : Checking σ DataType := do
  let row ← queryRow v scope id (← Host.lift (Validation.node id))
  Host.noting (.result scope id row) (Validation.record id row)
  return row

/-! ### Expressions -/

/-- The type of an expression that is no cast. -/
def expressionType (v : Visit.On σ) (scope : ScopeId) (id : NodeId) : Node → Checking σ DataType
  | .literal value => pure value.type
  | .identifier names => Host.noting (.search scope) do
    Checking.ofExcept ((← Checking.state).referenceType scope names)
  | .call name operands => callType v scope id name operands
  | .cursor query => do
    let _ ← v.query scope query
    return .cursor
  | .default => pure .any
  -- Taking off as many casts as there are nodes still left one: they go round.
  | .cast .. => Checking.fail (.cyclicNode id.text)
  | other => Checking.fail (.notAnExpression id.text other.kind)

/-- Records the types of the casts around an expression of type `type`, innermost first; the result
    is the type of the outermost one. A cast is nullable when its operand is. -/
def recordCasts (type : DataType) : List (NodeId × CastTarget) → Validation DataType
  | [] => pure type
  | (id, target) :: inner => do
    let operand ← recordCasts type inner
    let result := DataType.ofTarget target operand.nullable
    Validation.record id result
    return result

/-- Validates an expression with the casts around it and records their types. -/
def expressionStep (v : Visit.On σ) (scope : ScopeId) (id : NodeId) : Checking σ DataType := do
  let tree := (Host.session (← Checking.state)).tree
  let (casts, core) := tree.peelCasts tree.size id
  let type ← expressionType v scope core (← Host.lift (Validation.node core))
  Host.lift (Validation.record core type)
  Host.lift (recordCasts type casts)

/-! ### Recursion -/

/-- Validation on a host, down to `depth` nodes below each other, casts not counted. A deeper node is
    refused: it can only lie below itself. -/
def visitOn (σ : Type) [Host σ] : Nat → Visit.On σ
  | 0 =>
    { query := fun _ id => Checking.fail (.cyclicNode id.text)
      expression := fun _ id => Checking.fail (.cyclicNode id.text) }
  | depth + 1 =>
    { query := queryStep (visitOn σ depth)
      expression := expressionStep (visitOn σ depth) }

/-- Validation on a session. -/
abbrev visitAt : Nat → Visit := visitOn Session

namespace Session

/-- The depth that no tree without cycles exceeds, with one more for a placeholder. -/
def maxDepth (s : Session) : Nat := s.tree.size + 1

/-- Validates a query in a scope. -/
def validateQueryIn (scope : ScopeId) (query : NodeId) : Validation DataType := fun s =>
  (visitAt s.maxDepth).query scope query s

/-- Validates a query at the top of a statement; the result is its row type. -/
def validateQuery (query : NodeId) : Validation DataType :=
  validateQueryIn ScopeTree.rootId query

/-- The type of an expression in a scope. -/
def deriveType (scope : ScopeId) (expression : NodeId) : Validation DataType := fun s =>
  (visitAt s.maxDepth).expression scope expression s

end Session

end SqlTyping
