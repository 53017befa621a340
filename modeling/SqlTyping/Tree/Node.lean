import SqlTyping.Literal

namespace SqlTyping

/-!
# Nodes of a statement

A statement is a forest of nodes that refer to each other by number:

* `NodeId` — the number of a node in its tree;
* `Node` — one constructor per kind of node, `Node.kind` its name in messages;
* `Node.children` — the nodes directly below a node, in the order they are written;
* `qualifiedName` — a name of several parts joined by points.
-/

/-- The number of a node in its tree. -/
structure NodeId where
  index : Nat
  deriving DecidableEq, Repr, Inhabited

/-- The number as shown in messages. -/
def NodeId.text (id : NodeId) : String := s!"#{id.index}"

/-- The parts of a name joined by points. -/
def qualifiedName (parts : List String) : String := ".".intercalate parts

/-- One entry of a SELECT list. -/
inductive SelectItem where
  /-- Every column of every FROM entry. -/
  | star
  | expression (node : NodeId) (label : Option String)
  deriving DecidableEq, Repr

/-- A SELECT with its FROM entries and its WHERE condition. -/
structure SelectBlock where
  items : List SelectItem
  sources : List NodeId
  condition : Option NodeId
  deriving DecidableEq, Repr

/-- The kind of a set operation. -/
inductive SetOperator where
  | union
  | intersect
  | except
  deriving DecidableEq, Repr

/-- The keyword of a set operation. -/
def SetOperator.keyword : SetOperator → String
  | union => "UNION"
  | intersect => "INTERSECT"
  | except => "EXCEPT"

/-- A set operation on two queries. -/
structure SetOperation where
  operator : SetOperator
  all : Bool
  left : NodeId
  right : NodeId
  deriving DecidableEq, Repr

/-- The set operation as written, with ALL where it applies. -/
def SetOperation.name (s : SetOperation) : String :=
  if s.all then s.operator.keyword ++ " ALL" else s.operator.keyword

/-- A named query of a WITH clause. -/
structure WithItem where
  name : List String
  columns : Option (List String)
  query : NodeId
  /-- The item may refer to itself. -/
  recursive : Bool
  deriving DecidableEq, Repr

/-- A node of a statement. -/
inductive Node where
  | literal (value : Literal)
  /-- A column, possibly qualified. -/
  | identifier (names : List String)
  | call (operator : String) (operands : List NodeId)
  /-- A conversion, written or inserted. -/
  | cast (operand : NodeId) (target : CastTarget) (implicit : Bool)
  /-- A query handed over as an operand. -/
  | cursor (query : NodeId)
  /-- The placeholder for an omitted operand. -/
  | default
  | select (block : SelectBlock)
  | setOperation (operation : SetOperation)
  | withQuery (items : List NodeId) (body : NodeId)
  | withItem (item : WithItem)
  /-- A table in a FROM list. -/
  | tableRef (name : List String) (label : Option String)
  /-- A query in a FROM list. -/
  | subqueryRef (query : NodeId) (label : String)
  deriving DecidableEq, Repr

namespace Node

/-- The kind of the node as shown in messages. -/
def kind : Node → String
  | literal _ => "literal"
  | identifier _ => "identifier"
  | call .. => "call"
  | cast .. => "cast"
  | cursor _ => "cursor"
  | default => "default"
  | select _ => "select"
  | setOperation _ => "set operation"
  | withQuery .. => "with"
  | withItem _ => "with item"
  | tableRef .. => "table reference"
  | subqueryRef .. => "subquery"

/-- Whether the node can stand where a query is expected. -/
def isQuery : Node → Bool
  | select _ | setOperation _ | withQuery .. => true
  | _ => false

/-- Whether the node is the NULL literal. -/
def isNullLiteral : Node → Bool
  | literal value => value.isNull
  | _ => false

/-- Whether the node is the placeholder for an omitted operand. -/
def isDefault : Node → Bool
  | default => true
  | _ => false

theorem isDefault_iff {node : Node} : node.isDefault = true ↔ node = .default := by
  cases node <;> simp [isDefault]

/-- The operands of a call. -/
def operands? : Node → Option (List NodeId)
  | call _ operands => some operands
  | _ => none

/-- Whether two nodes are equal, literals being compared by value. -/
def sameValue : Node → Node → Bool
  | literal a, literal b => a.sameValue b
  | a, b => a == b

/-- The node of a SELECT item, if it has one. -/
def itemChild : SelectItem → List NodeId
  | .star => []
  | .expression node _ => [node]

/-- The nodes directly below a node. -/
def children : Node → List NodeId
  | literal _ | identifier _ | default | tableRef .. => []
  | call _ operands => operands
  | cast operand _ _ => [operand]
  | cursor query => [query]
  | select block => block.items.flatMap itemChild ++ block.sources ++ block.condition.toList
  | setOperation s => [s.left, s.right]
  | withQuery items body => items ++ [body]
  | withItem item => [item.query]
  | subqueryRef query _ => [query]

end Node

/-- The name under which a table in a FROM list is visible: its label, else the last part of its
    name. -/
def exposedName? (name : List String) (label : Option String) : Option String :=
  label <|> name.getLast?

/-- The single part of a one-part name. -/
def simpleName? : List String → Option String
  | [name] => some name
  | _ => none

end SqlTyping
