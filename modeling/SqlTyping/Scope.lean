import SqlTyping.RowSource

namespace SqlTyping

/-!
# Scopes

Every query block and every WITH item has a scope; scopes form a tree whose root is the catalog. For
`WITH t1 AS (..), t2 AS (..) main` the chain is `main → t2 → t1 → enclosing`.

* `Scope`, `ScopeRole`, `Binding` — a scope, what it is for, and the names it binds;
* `ScopeTree` — the scopes by number; new scopes are added below known ones
  (`ScopeTree.newScope`), bindings at the end of a scope's list (`ScopeTree.addBinding`);
* `ScopeTree.chain` — a scope followed by the scopes around it, up to the root.
-/

/-- The number of a scope. -/
structure ScopeId where
  index : Nat
  deriving DecidableEq, Repr, Inhabited

/-- The number as shown in messages. -/
def ScopeId.text (id : ScopeId) : String := s!"scope{id.index}"

/-- What a scope is for. -/
inductive ScopeRole where
  /-- The root: the tables of the catalog. -/
  | catalog
  /-- A query block: the entries of its FROM list. -/
  | block
  /-- Shows the WITH item `item` under `name`. -/
  | withItem (item : NodeId) (name : String)
  /-- Shows the WITH item `item` to its own body. -/
  | recursiveItem (item : NodeId) (name : String)
  deriving DecidableEq, Repr

namespace ScopeRole

/-- The role as shown. -/
def text : ScopeRole → String
  | catalog => "catalog"
  | block => "base"
  | withItem _ name => s!"with {name}"
  | recursiveItem _ name => s!"with recursive {name}"

/-- The name of the WITH item that the scope shows. -/
def itemName? : ScopeRole → Option String
  | catalog | block => none
  | withItem _ name | recursiveItem _ name => some name

end ScopeRole

/-- A name bound in a scope. -/
structure Binding where
  names : List String
  source : SourceId
  /-- The rows may be missing, as on the outer side of a join. -/
  nullable : Bool
  deriving DecidableEq, Repr

/-- The bound name with its parts joined by points. -/
def Binding.name (b : Binding) : String := qualifiedName b.names

/-- A scope: the scope around it, its role, the node it was made for, its bindings in order, and the
    number of scopes around it. -/
structure Scope where
  parent : Option ScopeId
  role : ScopeRole
  node : Option NodeId
  bindings : List Binding
  depth : Nat
  deriving DecidableEq, Repr

/-- The root scope without tables. -/
def Scope.root : Scope :=
  { parent := none, role := .catalog, node := none, bindings := [], depth := 0 }

/-- The scopes of one validation, by number. -/
structure ScopeTree where
  scopes : Array Scope := #[.root]
  deriving DecidableEq, Repr

namespace ScopeTree

instance : Inhabited ScopeTree := ⟨{}⟩

/-- The number of the catalog scope. -/
def rootId : ScopeId := ⟨0⟩

/-- The number of scopes. -/
def size (t : ScopeTree) : Nat := t.scopes.size

/-- The number the next scope will get. -/
def nextId (t : ScopeTree) : ScopeId := ⟨t.size⟩

/-- The scope with the given number. -/
def get? (t : ScopeTree) (id : ScopeId) : Option Scope := t.scopes[id.index]?

/-- The fault for a number without a scope. -/
def unknown (id : ScopeId) : Fault := .internal s!"unknown scope {id.text}"

/-- Adds a scope below `parent`. -/
def newScope (t : ScopeTree) (parent : ScopeId) (role : ScopeRole) (node : Option NodeId) :
    Except Fault (ScopeId × ScopeTree) :=
  match t.get? parent with
  | none => .error (unknown parent)
  | some s =>
    let scope := { parent := some parent, role, node, bindings := [], depth := s.depth + 1 }
    .ok (t.nextId, ⟨t.scopes.push scope⟩)

/-- Adds the scope of a query block. -/
def newBlock (t : ScopeTree) (parent : ScopeId) (node : Option NodeId) :
    Except Fault (ScopeId × ScopeTree) :=
  t.newScope parent .block node

/-- Adds a scope that shows a WITH item. -/
def newWithItem (t : ScopeTree) (parent : ScopeId) (item : NodeId) (name : String) :
    Except Fault (ScopeId × ScopeTree) :=
  t.newScope parent (.withItem item name) (some item)

/-- Adds the scope in which the body of a recursive WITH item is validated. -/
def newRecursiveItem (t : ScopeTree) (parent : ScopeId) (item : NodeId) (name : String) :
    Except Fault (ScopeId × ScopeTree) :=
  t.newScope parent (.recursiveItem item name) (some item)

/-- Adds a binding at the end of a scope's list. -/
def addBinding (t : ScopeTree) (id : ScopeId) (binding : Binding) : Except Fault ScopeTree :=
  if id.index < t.size then
    .ok ⟨t.scopes.modify id.index fun s => { s with bindings := s.bindings ++ [binding] }⟩
  else .error (unknown id)

/-- A scope followed by the scopes around it, at most `steps` of them. -/
def chainFrom (t : ScopeTree) : Nat → ScopeId → List ScopeId
  | 0, id => [id]
  | steps + 1, id =>
    match (t.get? id).bind (·.parent) with
    -- The root, or a number without a scope.
    | none => [id]
    | some parent => id :: t.chainFrom steps parent

/-- A scope followed by the scopes around it, up to the root. A scope has as many scopes around it
    as its depth tells. -/
def chain (t : ScopeTree) (id : ScopeId) : List ScopeId :=
  t.chainFrom (((t.get? id).map (·.depth)).getD 0) id

/-! ### Reading back -/

/-- A new scope is found under its number, the others are unchanged. -/
theorem get?_newScope {t t' : ScopeTree} {parent id : ScopeId} {role : ScopeRole}
    {node : Option NodeId} (h : t.newScope parent role node = .ok (id, t')) :
    id = t.nextId ∧ ∃ s, t.get? parent = some s ∧ ∀ other, t'.get? other =
      if other = id then
        some { parent := some parent, role, node, bindings := [], depth := s.depth + 1 }
      else t.get? other := by
  unfold newScope at h
  split at h
  · cases h
  · rename_i s hs
    cases h
    refine ⟨rfl, s, hs, ?_⟩
    rintro ⟨i⟩
    simp [get?, Array.getElem?_push, nextId, size, ScopeId.mk.injEq]

/-- Adding a binding changes the bindings of that scope only. -/
theorem get?_addBinding {t t' : ScopeTree} {id : ScopeId} {binding : Binding}
    (h : t.addBinding id binding = .ok t') (other : ScopeId) :
    t'.get? other =
      if other = id then
        (t.get? id).map fun s => { s with bindings := s.bindings ++ [binding] }
      else t.get? other := by
  unfold addBinding at h
  split at h
  · cases h
    obtain ⟨i⟩ := id
    obtain ⟨j⟩ := other
    simp only [get?, Array.getElem?_modify, ScopeId.mk.injEq]
    by_cases hij : i = j
    · subst hij
      simp
    · simp [hij, Ne.symm hij]
  · cases h

/-- A chain starts with its scope. -/
theorem head?_chain (t : ScopeTree) (id : ScopeId) : (t.chain id).head? = some id := by
  unfold chain
  generalize ((t.get? id).map (·.depth)).getD 0 = steps
  cases steps with
  | zero => rfl
  | succ n =>
    unfold chainFrom
    split <;> rfl

end ScopeTree

end SqlTyping
