import Mathlib.Data.Option.Defs
import SqlTyping.Proofs.Tree.Ranks

namespace SqlTyping

/-!
# Statements under other numbers

A node that is added gets the next number, so a validation adds its nodes under other numbers when
others have been added before:

* `Shift` — numbers from one on are moved;
* `Node.renumber` — a node that refers to the same nodes under other numbers;
* `Tree.Mirrors f own t t'` — the nodes `own` of the tree `t`, and all that have been added to it, are
  in the tree `t'` under their new numbers;
* `Tree.Mirrors.push`, `Tree.Mirrors.replaceOperand?` — this stays when both trees are changed alike;
* `Tree.Mirrors.peelCasts` — taking casts off leads to the same.
-/

/-- Numbers from `start` on are moved. -/
structure Shift where
  start : Nat
  distance : Nat

namespace Shift

variable {f : Shift} {i j : Nat}

/-- Where a number is moved to. -/
def apply (f : Shift) (i : Nat) : Nat := if i < f.start then i else i + f.distance

theorem apply_of_lt (h : i < f.start) : f.apply i = i := if_pos h

theorem apply_of_le (h : f.start ≤ i) : f.apply i = i + f.distance := if_neg (Nat.not_lt.mpr h)

@[simp] theorem apply_inj : f.apply i = f.apply j ↔ i = j := by
  unfold apply
  split <;> split <;> omega

/-- The number of a node is moved. -/
def node (f : Shift) (id : NodeId) : NodeId := ⟨f.apply id.index⟩

@[simp] theorem node_inj {a b : NodeId} : f.node a = f.node b ↔ a = b := by
  obtain ⟨i⟩ := a
  obtain ⟨j⟩ := b
  simp [node]

theorem node_of_lt {id : NodeId} (h : id.index < f.start) : f.node id = id := by
  simp [node, apply_of_lt h]

/-- Numbers may be moved nowhere. -/
theorem node_of_distance_zero (h : f.distance = 0) (id : NodeId) : f.node id = id := by
  simp [node, apply, h]

end Shift

/-! ### Nodes -/

/-- An entry of a SELECT list that refers to its node under another number. -/
def SelectItem.renumber (f : NodeId → NodeId) : SelectItem → SelectItem
  | star => star
  | expression node label => expression (f node) label

namespace Node

variable {f : NodeId → NodeId}

/-- A node that refers to the same nodes under other numbers. -/
def renumber (f : NodeId → NodeId) : Node → Node
  | call name operands => call name (operands.map f)
  | cast operand target implicit => cast (f operand) target implicit
  | cursor query => cursor (f query)
  | select block => select
    { items := block.items.map (·.renumber f)
      sources := block.sources.map f
      condition := block.condition.map f }
  | setOperation operation =>
    setOperation { operation with left := f operation.left, right := f operation.right }
  | withQuery items body => withQuery (items.map f) (f body)
  | withItem item => withItem { item with query := f item.query }
  | subqueryRef query label => subqueryRef (f query) label
  | node => node

@[simp] theorem isNullLiteral_renumber (n : Node) :
    (n.renumber f).isNullLiteral = n.isNullLiteral := by
  cases n <;> rfl

@[simp] theorem isDefault_renumber (n : Node) : (n.renumber f).isDefault = n.isDefault := by
  cases n <;> rfl

@[simp] theorem operands?_renumber (n : Node) :
    (n.renumber f).operands? = n.operands?.map (·.map f) := by
  cases n <;> rfl

/-- A node is renumbered through its children only. -/
theorem renumber_eq_self {n : Node} (h : ∀ c ∈ n.children, f c = c) : n.renumber f = n := by
  have hmap : ∀ l : List NodeId, (∀ c ∈ l, f c = c) → l.map f = l := fun l hl =>
    (List.map_congr_left hl).trans (List.map_id l)
  cases n with
  | select block =>
    obtain ⟨items, sources, condition⟩ := block
    simp only [children, List.mem_append, List.mem_flatMap, Option.mem_toList] at h
    have hitems : items.map (·.renumber f) = items := by
      refine (List.map_congr_left fun item hitem => ?_).trans (List.map_id items)
      cases item with
      | star => rfl
      | expression c label =>
        exact congrArg (SelectItem.expression · label)
          (h c (.inl (.inl ⟨_, hitem, by simp [itemChild]⟩)))
    have hcondition : condition.map f = condition := by
      cases condition with
      | none => rfl
      | some c => exact congrArg some (h c (.inr rfl))
    simp only [renumber, hitems, hmap sources fun c hc => h c (.inl (.inr hc)), hcondition]
  | call name operands => exact congrArg (Node.call name) (hmap operands h)
  | withQuery items body =>
    simp only [children, List.mem_append, List.mem_singleton] at h
    simp only [renumber, hmap items fun c hc => h c (.inl hc), h body (.inr rfl)]
  | setOperation operation =>
    simp only [children, List.mem_cons, List.not_mem_nil, or_false, forall_eq_or_imp,
      forall_eq] at h
    simp only [renumber, h.1, h.2]
  | _ => simp_all [renumber, children]

end Node

/-! ### Trees -/

namespace Tree

/-- The nodes `own` of `t`, and those that have been added to it, are in `t'` under their new
    numbers. -/
structure Mirrors (f : Shift) (own : NodeId → Prop) (t t' : Tree) : Prop where
  start_le : f.start ≤ t.size
  size : t'.size = t.size + f.distance
  node? : ∀ id, own id ∨ f.start ≤ id.index →
    t'.node? (f.node id) = (t.node? id).map (Node.renumber f.node)

namespace Mirrors

variable {f : Shift} {own : NodeId → Prop} {t t' : Tree}

/-- Nothing has been added to one of the trees yet, and the nodes `own` of the other one are the same. -/
theorem of_kept (hown : t.IsClosed own) (hsize : t.size ≤ t'.size)
    (hsame : ∀ id, own id → t'.node? id = t.node? id) :
    Mirrors ⟨t.size, t'.size - t.size⟩ own t t' where
  start_le := Nat.le_refl _
  size := (Nat.add_sub_of_le hsize).symm
  node? id hid := by
    rcases hid with hid | hnew
    · have hlt := hown.lt_size id hid
      rw [Shift.node_of_lt hlt, hsame id hid]
      cases hn : t.node? id with
      | none => rfl
      | some n =>
        refine congrArg some (Node.renumber_eq_self fun c hc => ?_).symm
        exact Shift.node_of_lt (hown.lt_size c (hown.child id c hid ⟨n, hn, hc⟩))
    -- Nothing has been added on either side.
    · have hnone : t.node? id = none := by
        rw [← Option.not_isSome_iff_eq_none, Tree.isSome_node?_iff]
        exact Nat.not_lt.mpr hnew
      rw [hnone, Option.map_none, ← Option.not_isSome_iff_eq_none, Tree.isSome_node?_iff]
      have hmoved : ((Shift.mk t.size (t'.size - t.size)).node id).index =
          id.index + (t'.size - t.size) := Shift.apply_of_le hnew
      have hle : t.size ≤ id.index := hnew
      omega

theorem refl (hown : t.IsClosed own) : Mirrors ⟨t.size, 0⟩ own t t := by
  have hmirrors := of_kept hown (Nat.le_refl t.size) fun _ _ => rfl
  rwa [Nat.sub_self] at hmirrors

/-- The next node gets corresponding numbers in both trees. -/
theorem nextId (h : Mirrors f own t t') : f.node t.nextId = t'.nextId := by
  unfold Shift.node Tree.nextId
  rw [Shift.apply_of_le h.start_le, h.size]

theorem push (h : Mirrors f own t t') (node : Node) (span span' : Span) :
    Mirrors f own (t.push node span) (t'.push (node.renumber f.node) span') where
  start_le := by
    have := h.start_le
    rw [size_push]
    omega
  size := by
    have := h.size
    rw [size_push, size_push]
    omega
  node? id hid := by
    simp only [node?_push, ← h.nextId, Shift.node_inj]
    split
    · rfl
    · exact h.node? id hid

theorem setNode (h : Mirrors f own t t') {id : NodeId} (hid : own id ∨ f.start ≤ id.index)
    (node : Node) :
    Mirrors f own (t.setNode id node) (t'.setNode (f.node id) (node.renumber f.node)) where
  start_le := by
    rw [size_setNode]
    exact h.start_le
  size := by
    rw [size_setNode, size_setNode]
    exact h.size
  node? other hother := by
    simp only [node?_setNode, Shift.node_inj]
    split
    · rw [h.node? id hid]
      cases t.node? id <;> rfl
    · exact h.node? other hother

/-- The operands of a call have other numbers. -/
theorem operands? (h : Mirrors f own t t') {id : NodeId} (hid : own id ∨ f.start ≤ id.index) :
    t'.operands? (f.node id) = (t.operands? id).map (·.map f.node) := by
  unfold Tree.operands?
  rw [h.node? id hid]
  cases t.node? id with
  | none => rfl
  | some node => exact Node.operands?_renumber node

/-- An operand is pointed elsewhere in both trees or in none. -/
theorem replaceOperand? (h : Mirrors f own t t') {call : NodeId}
    (hcall : own call ∨ f.start ≤ call.index) (index : Nat) (replacement : NodeId) :
    Option.Rel (Mirrors f own) (t.replaceOperand? call index replacement)
      (t'.replaceOperand? (f.node call) index (f.node replacement)) := by
  unfold Tree.replaceOperand?
  rw [h.node? call hcall]
  cases hn : t.node? call with
  | none => exact .none
  | some node =>
    cases node with
    | call name operands =>
      simp only [Option.map_some, Node.renumber, List.length_map]
      split
      · refine .some ?_
        have hset : (Node.call name (operands.set index replacement)).renumber f.node =
            .call name ((operands.map f.node).set index (f.node replacement)) := by
          simp [Node.renumber, List.map_set]
        rw [← hset]
        exact h.setNode hcall _
      · exact .none
    | _ => exact .none

/-- Taking off casts leads to the same, with at least as many steps. -/
theorem peelCasts (h : Mirrors f own t t') {within : NodeId → Prop}
    (hwithin : ∀ id, within id → own id ∨ f.start ≤ id.index)
    (hcast : ∀ id operand target implicit, within id →
      t.node? id = some (.cast operand target implicit) → within operand)
    {fuel fuel' : Nat} (hfuel : fuel ≤ fuel') {id core : NodeId} {casts : List (NodeId × CastTarget)}
    (hid : within id) (hpeel : t.peelCasts fuel id = (casts, core))
    (hcore : ∀ operand target implicit, t.node? core ≠ some (.cast operand target implicit)) :
    t'.peelCasts fuel' (f.node id) = (casts.map fun z => (f.node z.1, z.2), f.node core) := by
  -- What is no cast in one tree is none in the other.
  have hends : ∀ fuel' x, within x → (∀ operand target implicit,
      t.node? x ≠ some (.cast operand target implicit)) →
        t'.peelCasts fuel' (f.node x) = ([], f.node x) := by
    intro fuel' x hx hno
    refine peelCasts_of_not_cast (fun operand target implicit hn => ?_) fuel'
    rw [h.node? x (hwithin x hx)] at hn
    obtain ⟨node, hnode, hrenumber⟩ := Option.map_eq_some_iff.mp hn
    cases node with
    | cast => exact hno _ _ _ hnode
    | _ => cases hrenumber
  induction fuel generalizing fuel' id casts with
  | zero =>
    cases hpeel
    exact hends fuel' _ hid hcore
  | succ fuel ih =>
    unfold Tree.peelCasts at hpeel
    split at hpeel
    · rename_i operand target implicit hn
      obtain ⟨inner, core', hinner⟩ : ∃ inner core', t.peelCasts fuel operand = (inner, core') :=
        ⟨_, _, rfl⟩
      simp only [hinner, Prod.mk.injEq] at hpeel
      obtain ⟨rfl, rfl⟩ := hpeel
      obtain ⟨fuel', rfl⟩ := Nat.exists_eq_add_of_le' (Nat.one_le_of_lt hfuel)
      have hn' := h.node? id (hwithin id hid)
      rw [hn] at hn'
      have hrest := ih (Nat.le_of_succ_le_succ hfuel) (hcast id _ _ _ hid hn) hinner
      unfold Tree.peelCasts
      simp only [hn', Option.map_some, Node.renumber, hrest, List.map_cons]
    · cases hpeel
      exact hends fuel' _ hid hcore

end Mirrors

end Tree

end SqlTyping
