import SqlTyping.Call
import SqlTyping.Operator.Standard
import SqlTyping.Scope.Lookup
import SqlTyping.Tree

namespace SqlTyping

/-!
# Validation sessions

* `Settings` — whether operands may be converted implicitly, and whether names are case-sensitive;
* `Session` — the statement, the operators and the engine, and everything validation has found so
  far: scopes, row sources, types, references to recursive items, requests to the engine;
* `Validation` — a check on a session, with the elementary changes that validation makes;
* `Host` — states that hold a session and on which the steps of validation run.
-/

/-- The settings of a session. -/
structure Settings where
  /-- Operands may be converted implicitly. -/
  coercion : Bool := true
  /-- Upper and lower case of names differ. -/
  caseSensitive : Bool := true
  deriving DecidableEq, Repr

/-- How names are compared. -/
def Settings.matching (s : Settings) : NameMatching := .ofCaseSensitive s.caseSensitive

/-- A statement under validation. -/
structure Session where
  settings : Settings := {}
  tree : Tree := {}
  operators : OperatorTable := .standard
  engine : CoercionEngine := .implicitCasts
  scopes : ScopeTree := {}
  sources : RowSources := {}
  /-- The types found so far, by node. -/
  types : OrderedMap NodeId DataType := {}
  /-- The FROM entries that stand for a recursive WITH item inside its own body, with the source
      each stands for, oldest first. -/
  selfReferences : List (NodeId × SourceId) := []
  /-- The requests to the engine, oldest first. -/
  requests : List CoercionRequest := []

/-- A check on a session. -/
abbrev Validation (α : Type) : Type := Checking Session α

namespace Session

/-- Adds a catalog table, visible from every scope. -/
def addTable (s : Session) (names : List String) (row : DataType) :
    Except Fault (SourceId × Session) :=
  let (id, sources) := s.sources.registerTable names row
  match s.scopes.addBinding ScopeTree.rootId { names, source := id, nullable := false } with
  | .error e => .error e
  | .ok scopes => .ok (id, { s with sources, scopes })

/-- Adds a node to the statement. -/
def addNode (s : Session) (node : Node) (span : Span := .synthetic) : NodeId × Session :=
  (s.tree.nextId, { s with tree := s.tree.push node span })

/-- The type found for a node. -/
def typeOf? (s : Session) (node : NodeId) : Option DataType := s.types.get? node

/-- The diagnostic of a fault, placed at a node when the node was written in the text. -/
def diagnostic (s : Session) (fault : Fault) (node : Option NodeId) (text : String) :
    Diagnostic :=
  -- Nodes that were not written have an empty span and give no place.
  fault.diagnostic ((node.bind s.tree.span?).filter fun span => !span.isEmpty) text

end Session

namespace Validation

/-- The node with the given number; the tree must have it. -/
def node (id : NodeId) : Validation Node := fun s =>
  match s.tree.node? id with
  | some n => (.ok n, s)
  | none => (.error (.internal s!"unknown node {id.text}"), s)

/-- Records the type of a node. -/
def record (id : NodeId) (type : DataType) : Validation Unit :=
  Checking.update fun s => { s with types := s.types.put id type }

/-- Changes the scopes. -/
def onScopes {α : Type} (change : ScopeTree → Except Fault (α × ScopeTree)) : Validation α :=
  fun s =>
    match change s.scopes with
    | .ok (a, scopes) => (.ok a, { s with scopes })
    | .error e => (.error e, s)

/-- Binds a one-part name in a scope. -/
def bindName (scope : ScopeId) (name : String) (source : SourceId) : Validation Unit :=
  onScopes fun t =>
    (t.addBinding scope { names := [name], source, nullable := false }).map fun t' => ((), t')

/-- Registers the row source that a node introduces. -/
def register (node : NodeId) (kind : SourceKind) (enclosing : Option NodeId) :
    Validation SourceId := fun s =>
  match s.sources.register node kind enclosing with
  | (id, sources) => (.ok id, { s with sources })

/-- The view of a recursive WITH item from inside its body. -/
def selfView (item : NodeId) : Validation SourceId := fun s =>
  match s.sources.selfView item with
  | .ok (id, sources) => (.ok id, { s with sources })
  | .error e => (.error e, s)

/-- Sets the row type of a source. -/
def setRow (id : SourceId) (row : DataType) : Validation Unit := fun s =>
  match s.sources.setRow id row with
  | .ok sources => (.ok (), { s with sources })
  | .error e => (.error e, s)

end Validation

/-- What a step means to the validation that takes it, for a host that keeps a record. -/
inductive Moment where
  /-- A table of a FROM list is bound; its name is looked up from the scope `parent`. -/
  | binding (parent : ScopeId) (entry : NodeId) (name : List String)
  /-- Columns are looked up from a scope. -/
  | search (scope : ScopeId)
  /-- A query has come to a row type. -/
  | result (scope : ScopeId) (query : NodeId) (row : DataType)

/-- States that hold a session under validation. The steps of validation are written once, for any host: a
    session by itself, or one with a record of what has happened to it. -/
class Host (σ : Type) where
  session : σ → Session
  /-- A step on the session. -/
  lift : {α : Type} → Validation α → Checking σ α
  /-- A step on the session that the host may keep a record of. -/
  noting : {α : Type} → Moment → Validation α → Checking σ α

/-- A session keeps no record. -/
@[default_instance]
instance : Host Session where
  session s := s
  lift x := x
  noting _ x := x

namespace Host

variable {σ α : Type}

theorem session_self (s : Session) : session s = s := rfl

theorem lift_self (x : Validation α) : lift (σ := Session) x = x := rfl

/-- The host after a change of its session. -/
def change [Host σ] (f : Session → Session) (s : σ) : σ := (lift (Checking.update f) s).2

end Host

/-- How the parts below a node are validated on a host: queries to their row types, expressions to their
    types. -/
structure Visit.On (σ : Type) where
  query : ScopeId → NodeId → Checking σ DataType
  expression : ScopeId → NodeId → Checking σ DataType

/-- How the parts below a node are validated on a session. -/
abbrev Visit : Type := Visit.On Session

/-- The type of an expression: the one recorded for it, else the one found by validating it. -/
def Visit.On.recorded {σ : Type} [Host σ] (v : Visit.On σ) (scope : ScopeId) (id : NodeId) :
    Checking σ DataType := do
  match (Host.session (← Checking.state)).types.get? id with
  | some type => return type
  | none => v.expression scope id

end SqlTyping
