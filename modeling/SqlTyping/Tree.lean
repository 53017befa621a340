import SqlTyping.Source
import SqlTyping.Tree.Node

namespace SqlTyping

/-!
# Statement trees

The nodes of one statement with their places in the text. Nodes are added at the end and never
removed, so a number stays valid; a conversion is inserted by adding a cast and pointing an operand
of a call at it.

* `Tree.push`, `Tree.nextId` — add a node (`node?_push`);
* `Tree.replaceOperand?` — point one operand of a call elsewhere (`node?_replaceOperand?_ne`);
* `Tree.pushCast` — a cast keeps the place of its operand.
-/

/-- A node with its place in the text. -/
structure Tree.Entry where
  node : Node
  span : Span
  deriving DecidableEq, Repr

/-- The nodes of one statement, by number. -/
structure Tree where
  entries : Array Tree.Entry := #[]
  deriving DecidableEq, Repr

namespace Tree

instance : Inhabited Tree := ⟨{}⟩

/-- The number of nodes. -/
def size (t : Tree) : Nat := t.entries.size

/-- The number the next node will get. -/
def nextId (t : Tree) : NodeId := ⟨t.size⟩

/-- The node with the given number. -/
def node? (t : Tree) (id : NodeId) : Option Node := t.entries[id.index]?.map (·.node)

/-- The place of the node with the given number. -/
def span? (t : Tree) (id : NodeId) : Option Span := t.entries[id.index]?.map (·.span)

/-- The tree with one more node at the end. -/
def push (t : Tree) (node : Node) (span : Span := .synthetic) : Tree :=
  ⟨t.entries.push ⟨node, span⟩⟩

/-- The tree with the node of the given number replaced; its place stays. An unknown number changes
    nothing. -/
def setNode (t : Tree) (id : NodeId) (node : Node) : Tree :=
  ⟨t.entries.modify id.index fun e => { e with node }⟩

/-- The operands of a call; absent when the node is no call. -/
def operands? (t : Tree) (id : NodeId) : Option (List NodeId) :=
  (t.node? id).bind Node.operands?

/-- The tree in which operand `index` of `call` is `replacement`; absent when the node is no call
    or has no such operand. -/
def replaceOperand? (t : Tree) (call : NodeId) (index : Nat) (replacement : NodeId) :
    Option Tree :=
  match t.node? call with
  | some (.call operator operands) =>
    if index < operands.length then
      some (t.setNode call (.call operator (operands.set index replacement)))
    else none
  | _ => none

/-! ### Reading back -/

@[simp] theorem size_push (t : Tree) (node : Node) (span : Span) :
    (t.push node span).size = t.size + 1 := by
  simp [size, push]

@[simp] theorem size_setNode (t : Tree) (id : NodeId) (node : Node) :
    (t.setNode id node).size = t.size := by
  simp [size, setNode]

/-- A new node is found under its number, the others are unchanged. -/
theorem node?_push (t : Tree) (node : Node) (span : Span) (id : NodeId) :
    (t.push node span).node? id = if id = t.nextId then some node else t.node? id := by
  obtain ⟨i⟩ := id
  simp only [node?, push, Array.getElem?_push, nextId, size, NodeId.mk.injEq]
  split <;> rfl

/-- A replaced node is found under its number, the others are unchanged. -/
theorem node?_setNode (t : Tree) (id other : NodeId) (node : Node) :
    (t.setNode id node).node? other =
      if other = id then (t.node? id).map fun _ => node else t.node? other := by
  obtain ⟨i⟩ := id
  obtain ⟨j⟩ := other
  simp only [node?, setNode, Array.getElem?_modify, NodeId.mk.injEq]
  by_cases h : i = j
  · subst h
    simp [Function.comp_def]
  · simp [h, Ne.symm h]

/-- Pointing an operand elsewhere leaves every other node as it was. -/
theorem node?_replaceOperand?_ne {t t' : Tree} {call : NodeId} {index : Nat}
    {replacement : NodeId} (h : t.replaceOperand? call index replacement = some t')
    {id : NodeId} (hid : id ≠ call) : t'.node? id = t.node? id := by
  unfold replaceOperand? at h
  split at h
  · split at h
    · obtain rfl := Option.some.inj h
      simp [node?_setNode, hid]
    · simp at h
  · simp at h

/-- Pointing an operand elsewhere replaces it in the call's list. -/
theorem operands?_replaceOperand? {t t' : Tree} {call : NodeId} {index : Nat}
    {replacement : NodeId} (h : t.replaceOperand? call index replacement = some t') :
    t'.operands? call = (t.operands? call).map (·.set index replacement) := by
  unfold replaceOperand? at h
  split at h
  · rename_i operator operands hn
    split at h
    · obtain rfl := Option.some.inj h
      simp [operands?, node?_setNode, hn, Node.operands?]
    · simp at h
  · simp at h

/-! ### Nodes that take their form from their place -/

/-- The tree with a cast of `operand` at the end, placed where the operand is. -/
def pushCast (t : Tree) (operand : NodeId) (target : CastTarget) (implicit : Bool) : Tree :=
  t.push (.cast operand target implicit) ((t.span? operand).getD .synthetic)

/-- The tree with `left UNION ALL right` at the end. -/
def pushUnionAll (t : Tree) (left right : NodeId) : Tree :=
  t.push (.setOperation { operator := .union, all := true, left, right })

/-- The casts around a node, outermost first, and the node under them; at most `fuel` casts are
    taken off. -/
def peelCasts (t : Tree) : Nat → NodeId → List (NodeId × CastTarget) × NodeId
  | 0, id => ([], id)
  | fuel + 1, id =>
    match t.node? id with
    -- Written casts and inserted ones are taken off alike.
    | some (.cast operand target _) =>
      let (casts, core) := t.peelCasts fuel operand
      ((id, target) :: casts, core)
    | _ => ([], id)

end Tree

end SqlTyping
