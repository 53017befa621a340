import Mathlib.Data.List.Forall2
import SqlTyping.Tree

namespace SqlTyping

/-!
# Trees rewritten by inserting casts

* `Tree.NoDangling` — every node that is referred to is in the tree;
* `Tree.Wraps` — a node is another one, or reaches it through implicit casts that were added;
* `Tree.RewrittenFrom` — a tree differs from an earlier one by such casts around operands of calls,
  and by placeholders that nothing refers to;
* `Tree.KeepsAdded` — the nodes added so far stay as they are;
* `Tree.Recast` — one step of such a rewriting, around operands of one call;
* `Tree.Inserts` — the change of the tree in one step, without regard to what it is a rewriting of.
-/

namespace Tree

/-- Every node that is referred to is in the tree. -/
def NoDangling (t : Tree) : Prop :=
  ∀ id node, t.node? id = some node → ∀ child ∈ node.children, (t.node? child).isSome = true

/-- `b` is the node `a`, or an implicit cast added to `t₀` through which, and possibly more of them,
    `a` is reached. -/
inductive Wraps (t₀ t : Tree) (a : NodeId) : NodeId → Prop
  | self : Wraps t₀ t a a
  | cast {id operand : NodeId} {target : CastTarget} (hnew : t₀.size ≤ id.index)
      (hcast : t.node? id = some (.cast operand target true)) (h : Wraps t₀ t a operand) :
      Wraps t₀ t a id

/-- The tree `t` is the tree `t₀` with implicit casts inserted around operands of calls, and with
    placeholders for operands that were left out. -/
structure RewrittenFrom (t₀ t : Tree) : Prop where
  size_le : t₀.size ≤ t.size
  /-- Every node stays at its place in the text. -/
  span : ∀ id, id.index < t₀.size → t.span? id = t₀.span? id
  other : ∀ id node, t₀.node? id = some node → node.operands? = none → t.node? id = some node
  call : ∀ id name operands, t₀.node? id = some (.call name operands) →
    ∃ current, t.node? id = some (.call name current) ∧
      List.Forall₂ (Wraps t₀ t) operands current
  added : ∀ id, t₀.size ≤ id.index → id.index < t.size →
    (∃ operand target, t.node? id = some (.cast operand target true) ∧
      t.span? id = t.span? operand) ∨
    (t.node? id = some .default ∧ ∀ other node, t.node? other = some node → id ∉ node.children)

/-- The nodes that were added to `t₀` by the time of `t` are the same in `t'`. -/
structure KeepsAdded (t₀ t t' : Tree) : Prop where
  size_le : t.size ≤ t'.size
  node? : ∀ id, t₀.size ≤ id.index → id.index < t.size → t'.node? id = t.node? id

/-- No node of `t₀` but the one call may have changed from `t` to `t'`, and what has been added is a
    placeholder or a cast around an operand of the call. -/
structure Recast (t₀ : Tree) (call : NodeId) (t t' : Tree) : Prop where
  keeps : KeepsAdded t₀ t t'
  node? : ∀ id, id.index < t₀.size → id ≠ call → t'.node? id = t.node? id
  added : ∀ id, t.size ≤ id.index → id.index < t'.size → t'.node? id = some .default ∨
    ∃ node a, t₀.node? call = some node ∧ a ∈ node.children ∧ Wraps t₀ t' a id

/-- One change that validation makes to a tree: a placeholder is added, or a cast around one of its
    nodes, to which a call is then pointed if it has such an operand. -/
inductive Inserts (t : Tree) : Tree → Prop
  | placeholder : Inserts t (t.push .default)
  | looseCast (operand : NodeId) (target : CastTarget) (hoperand : (t.node? operand).isSome = true) :
    Inserts t (t.pushCast operand target true)
  | cast (call : NodeId) (index : Nat) (operand : NodeId) (target : CastTarget) {t' : Tree}
    (hoperand : (t.node? operand).isSome = true)
    (ht : (t.pushCast operand target true).replaceOperand? call index t.nextId = some t') :
    Inserts t t'

variable {t₀ t t' : Tree}

/-! ### Nodes and places -/

/-- A node is found exactly under the numbers below the size. -/
theorem isSome_node?_iff {id : NodeId} : (t.node? id).isSome = true ↔ id.index < t.size := by
  simp [node?, size]

/-- That nothing is missing is seen by going through the nodes. -/
theorem noDangling_iff : t.NoDangling ↔
    ∀ e ∈ t.entries.toList, ∀ child ∈ e.node.children, child.index < t.size := by
  constructor
  · intro h e he child hc
    obtain ⟨i, hi, rfl⟩ := List.getElem_of_mem he
    refine isSome_node?_iff.mp (h ⟨i⟩ _ ?_ child hc)
    have hi' : i < t.entries.size := by simpa using hi
    simp [node?, hi']
  · intro h id node hn child hc
    obtain ⟨e, he, rfl⟩ := Option.map_eq_some_iff.mp hn
    exact isSome_node?_iff.mpr (h e (Array.mem_toList_iff.mpr (Array.mem_of_getElem? he)) child hc)

instance (t : Tree) : Decidable t.NoDangling := decidable_of_iff _ noDangling_iff.symm

theorem lt_size_of_node? {id : NodeId} {node : Node} (h : t.node? id = some node) :
    id.index < t.size :=
  isSome_node?_iff.mp (by simp [h])

/-- A new node gets its place, the others keep theirs. -/
theorem span?_push (t : Tree) (node : Node) (span : Span) (id : NodeId) :
    (t.push node span).span? id = if id = t.nextId then some span else t.span? id := by
  obtain ⟨i⟩ := id
  simp only [span?, push, Array.getElem?_push, nextId, size, NodeId.mk.injEq]
  split <;> rfl

/-- Replacing a node keeps all places. -/
theorem span?_setNode (t : Tree) (id other : NodeId) (node : Node) :
    (t.setNode id node).span? other = t.span? other := by
  obtain ⟨i⟩ := id
  obtain ⟨j⟩ := other
  simp only [span?, setNode, Array.getElem?_modify]
  by_cases h : i = j
  · subst h
    simp [Function.comp_def]
  · simp [h]

/-- The number of a new node is no number of a node before it. -/
theorem ne_nextId_of_lt {id : NodeId} (h : id.index < t.size) : id ≠ t.nextId := by
  rintro rfl
  exact Nat.lt_irrefl _ h

/-- Nothing is taken off a node that is no cast. -/
theorem peelCasts_of_not_cast {id : NodeId}
    (h : ∀ operand target implicit, t.node? id ≠ some (.cast operand target implicit))
    (fuel : Nat) : t.peelCasts fuel id = ([], id) := by
  cases fuel with
  | zero => rfl
  | succ fuel =>
    unfold peelCasts
    split
    · rename_i operand target implicit hcast
      exact absurd hcast (h operand target implicit)
    · rfl

/-! ### Casts around a node -/

/-- Casts around a node stay around it as long as the added nodes stay. -/
theorem Wraps.mono {a b : NodeId} (h : Wraps t₀ t a b) (hk : KeepsAdded t₀ t t') :
    Wraps t₀ t' a b := by
  induction h with
  | self => exact .self
  | cast hnew hcast _ ih =>
    exact .cast hnew ((hk.node? _ hnew (lt_size_of_node? hcast)).trans hcast) ih

/-- A node of the original tree wraps nothing but itself. -/
theorem Wraps.eq_of_lt {a b : NodeId} (h : Wraps t₀ t a b) (hb : b.index < t₀.size) : a = b := by
  cases h with
  | self => rfl
  | cast hnew => omega

/-- What wraps a node of the tree is a node of the tree. -/
theorem Wraps.lt_size {a b : NodeId} (h : Wraps t₀ t a b) (ha : a.index < t.size) :
    b.index < t.size := by
  cases h with
  | self => exact ha
  | cast _ hcast => exact lt_size_of_node? hcast

/-- Casts are around one node of the original tree. -/
theorem Wraps.unique {a a' b : NodeId} (h : Wraps t₀ t a b) (h' : Wraps t₀ t a' b)
    (ha : a.index < t₀.size) (ha' : a'.index < t₀.size) : a = a' := by
  induction h with
  | self => exact (h'.eq_of_lt ha).symm
  | cast hnew hcast _ ih =>
    cases h' with
    | self => omega
    | cast _ hcast' h' =>
      rw [hcast] at hcast'
      cases hcast'
      exact ih h'

theorem KeepsAdded.refl (t₀ t : Tree) : KeepsAdded t₀ t t :=
  ⟨Nat.le_refl _, fun _ _ _ => rfl⟩

theorem KeepsAdded.trans {t'' : Tree} (h : KeepsAdded t₀ t t') (h' : KeepsAdded t₀ t' t'') :
    KeepsAdded t₀ t t'' where
  size_le := Nat.le_trans h.size_le h'.size_le
  node? id hnew hid :=
    (h'.node? id hnew (Nat.lt_of_lt_of_le hid h.size_le)).trans (h.node? id hnew hid)

/-- A new node leaves the earlier ones as they are. -/
theorem keepsAdded_push (node : Node) (span : Span) : KeepsAdded t₀ t (t.push node span) where
  size_le := by simp
  node? _ _ hid := by rw [node?_push, if_neg (ne_nextId_of_lt hid)]

/-- Replacing a node of the original tree leaves the added ones as they are. -/
theorem keepsAdded_setNode {id : NodeId} (hid : id.index < t₀.size) (node : Node) :
    KeepsAdded t₀ t (t.setNode id node) where
  size_le := by simp
  node? other hnew _ := by
    have hne : other ≠ id := by
      rintro rfl
      omega
    rw [node?_setNode, if_neg hne]

/-! ### Nodes that are referred to -/

/-- A new node that refers to nodes of the tree leaves nothing missing. -/
theorem NoDangling.push {node : Node} {span : Span} (hd : t.NoDangling)
    (hchild : ∀ child ∈ node.children, (t.node? child).isSome = true) :
    (t.push node span).NoDangling := by
  have hgrow : ∀ child, (t.node? child).isSome = true →
      ((t.push node span).node? child).isSome = true := by
    intro child hc
    rw [isSome_node?_iff] at hc ⊢
    simp
    omega
  intro id n hn child hmem
  rw [node?_push] at hn
  split at hn
  · cases hn
    exact hgrow child (hchild child hmem)
  · exact hgrow child (hd id n hn child hmem)

/-- Pointing an operand at a node of the tree leaves nothing missing. -/
theorem NoDangling.setOperand {call replacement : NodeId} {name : String} {current : List NodeId}
    {index : Nat} (hd : t.NoDangling) (hcurrent : t.node? call = some (.call name current))
    (hr : (t.node? replacement).isSome = true) :
    (t.setNode call (.call name (current.set index replacement))).NoDangling := by
  have hkeep : ∀ child, (t.node? child).isSome = true →
      ((t.setNode call (.call name (current.set index replacement))).node? child).isSome = true := by
    intro child hc
    rw [isSome_node?_iff] at hc ⊢
    simpa using hc
  intro id n hn child hmem
  rw [node?_setNode] at hn
  split at hn
  · rw [hcurrent] at hn
    cases hn
    rcases List.mem_or_eq_of_mem_set hmem with hmem | rfl
    · exact hkeep child (hd call _ hcurrent child hmem)
    · exact hkeep child hr
  · exact hkeep child (hd id n hn child hmem)

/-! ### Nodes that have been added -/

/-- An implicit cast where its operand is, or a placeholder that no node refers to. -/
def Inserted (t : Tree) (id : NodeId) : Prop :=
  (∃ operand target, t.node? id = some (.cast operand target true) ∧
    t.span? id = t.span? operand) ∨
  (t.node? id = some .default ∧ ∀ other node, t.node? other = some node → id ∉ node.children)

/-- The node that is added next. -/
theorem inserted_nextId {node : Node} {span : Span} (hd : t.NoDangling)
    (hchild : ∀ child ∈ node.children, (t.node? child).isSome = true)
    (hnode : (∃ operand target, node = .cast operand target true ∧ t.span? operand = some span) ∨
      node = .default) : (t.push node span).Inserted t.nextId := by
  unfold Inserted
  rw [node?_push, if_pos rfl]
  rcases hnode with ⟨operand, target, rfl, hs⟩ | rfl
  · have hop := hchild operand (by simp [Node.children])
    refine .inl ⟨operand, target, rfl, ?_⟩
    rw [span?_push, span?_push, if_pos rfl, if_neg (ne_nextId_of_lt (isSome_node?_iff.mp hop)), hs]
  · refine .inr ⟨rfl, fun other n hn hmem => ?_⟩
    rw [node?_push] at hn
    split at hn
    · cases hn
      simp [Node.children] at hmem
    · exact Nat.lt_irrefl _ (isSome_node?_iff.mp (hd other n hn _ hmem))

/-- Adding another node that refers to no placeholder leaves it so. -/
theorem Inserted.push {node : Node} {span : Span} {id : NodeId} (h : t.Inserted id)
    (hd : t.NoDangling) (hid : id.index < t.size)
    (hchild : ∀ child ∈ node.children, t.node? child ≠ some .default) :
    (t.push node span).Inserted id := by
  unfold Inserted
  rw [node?_push, if_neg (ne_nextId_of_lt hid)]
  rcases h with ⟨operand, target, hc, hs⟩ | ⟨hc, hfree⟩
  · refine .inl ⟨operand, target, hc, ?_⟩
    have hop := hd id _ hc operand (by simp [Node.children])
    rw [span?_push, span?_push, if_neg (ne_nextId_of_lt hid),
      if_neg (ne_nextId_of_lt (isSome_node?_iff.mp hop))]
    exact hs
  · refine .inr ⟨hc, fun other n hn hmem => ?_⟩
    rw [node?_push] at hn
    split at hn
    · cases hn
      exact hchild id hmem hc
    · exact hfree other n hn hmem

/-- So does pointing an operand of a call at a node that is no placeholder. -/
theorem Inserted.setOperand {call replacement id : NodeId} {name : String} {current : List NodeId}
    {index : Nat} (h : t.Inserted id) (hne : id ≠ call)
    (hcurrent : t.node? call = some (.call name current))
    (hdefault : t.node? replacement ≠ some .default) :
    (t.setNode call (.call name (current.set index replacement))).Inserted id := by
  unfold Inserted
  rw [node?_setNode, if_neg hne, span?_setNode]
  simp only [span?_setNode]
  rcases h with hc | ⟨hc, hfree⟩
  · exact .inl hc
  · refine .inr ⟨hc, fun other n hn hmem => ?_⟩
    rw [node?_setNode] at hn
    split at hn
    · rw [hcurrent] at hn
      cases hn
      rcases List.mem_or_eq_of_mem_set hmem with hmem | rfl
      · exact hfree call _ hcurrent hmem
      · exact hdefault hc
    · exact hfree other n hn hmem

/-- One operand of a call is replaced by a node that wraps what is written there. -/
theorem wraps_set {operands current : List NodeId} {replacement : NodeId} {index : Nat}
    (hws : List.Forall₂ (Wraps t₀ t) operands current)
    (hw : ∀ a, operands[index]? = some a → Wraps t₀ t a replacement) :
    List.Forall₂ (Wraps t₀ t) operands (current.set index replacement) := by
  rw [List.forall₂_iff_get] at hws ⊢
  obtain ⟨hl, hget⟩ := hws
  refine ⟨by simpa using hl, fun i h₁ h₂ => ?_⟩
  simp only [List.get_eq_getElem, List.getElem_set]
  split
  · rename_i hi
    subst hi
    exact hw _ (List.getElem?_eq_getElem h₁)
  · exact hget i h₁ (by simpa using h₂)

/-! ### Steps of a rewriting -/

namespace RewrittenFrom

/-- Every tree is rewritten from itself, without a change. -/
theorem refl (t : Tree) : RewrittenFrom t t where
  size_le := Nat.le_refl _
  span _ _ := rfl
  other _ _ h _ := h
  call _ _ operands h := ⟨operands, h, List.forall₂_same.mpr fun _ _ => .self⟩
  added _ h h' := absurd h' (Nat.not_lt.mpr h)

/-- A call of the rewritten tree is a call of the original one. -/
theorem call_of_call {id : NodeId} {name : String} {operands : List NodeId}
    (h : RewrittenFrom t₀ t) (hn : t.node? id = some (.call name operands)) :
    ∃ written, t₀.node? id = some (.call name written) ∧
      List.Forall₂ (Wraps t₀ t) written operands := by
  by_cases hid : id.index < t₀.size
  · obtain ⟨n, hn₀⟩ := Option.isSome_iff_exists.mp (isSome_node?_iff.mpr hid)
    cases n with
    | call name' written' =>
      obtain ⟨current, hc, hw⟩ := h.call id name' written' hn₀
      rw [hn] at hc
      cases hc
      exact ⟨written', hn₀, hw⟩
    | _ =>
      have hsame := h.other id _ hn₀ rfl
      rw [hn] at hsame
      cases hsame
  -- The nodes that were added are no calls.
  · rcases h.added id (by omega) (lt_size_of_node? hn) with ⟨_, _, hc, -⟩ | ⟨hc, -⟩
    · rw [hn] at hc
      cases hc
    · rw [hn] at hc
      cases hc

/-- A node of the rewritten tree that is no call is the same in the original one. -/
theorem node?_eq {id : NodeId} {node : Node} (h : RewrittenFrom t₀ t) (hid : id.index < t₀.size)
    (hn : t.node? id = some node) (ho : node.operands? = none) : t₀.node? id = some node := by
  obtain ⟨n, hn₀⟩ := Option.isSome_iff_exists.mp (isSome_node?_iff.mpr hid)
  cases n with
  | call name operands =>
    obtain ⟨current, hc, -⟩ := h.call id name operands hn₀
    rw [hn] at hc
    cases hc
    cases ho
  | _ =>
    have hsame := h.other id _ hn₀ rfl
    rw [hn] at hsame
    cases hsame
    exact hn₀

/-- A node is added: a placeholder, or an implicit cast of a node that is no placeholder, placed
    where that node is. Nothing can refer to the new node yet. -/
theorem push {node : Node} {span : Span} (h : RewrittenFrom t₀ t) (hd : t.NoDangling)
    (hchild : ∀ child ∈ node.children,
      (t.node? child).isSome = true ∧ t.node? child ≠ some .default)
    (hnode : (∃ operand target, node = .cast operand target true ∧ t.span? operand = some span) ∨
      node = .default) :
    RewrittenFrom t₀ (t.push node span) where
  size_le := by
    have := h.size_le
    simp
    omega
  span id hid := by
    have := h.size_le
    rw [span?_push, if_neg (ne_nextId_of_lt (by omega)), h.span id hid]
  other id n hn ho := by
    have hn' := h.other id n hn ho
    rw [node?_push, if_neg (ne_nextId_of_lt (lt_size_of_node? hn'))]
    exact hn'
  call id name operands hn := by
    obtain ⟨current, hc, hw⟩ := h.call id name operands hn
    refine ⟨current, ?_, hw.imp fun _ _ hab => hab.mono (keepsAdded_push _ _)⟩
    rw [node?_push, if_neg (ne_nextId_of_lt (lt_size_of_node? hc))]
    exact hc
  added id hnew hid := by
    by_cases hlast : id = t.nextId
    · exact hlast ▸ inserted_nextId hd (fun child hc => (hchild child hc).1) hnode
    · have hlt : id.index < t.size := by
        have hne : id.index ≠ t.size := fun h => hlast (by cases id; simp_all [nextId])
        simp at hid
        omega
      have hinserted : t.Inserted id := h.added id hnew hlt
      exact hinserted.push hd hlt fun child hc => (hchild child hc).2

/-- A placeholder is added. -/
theorem push_default (h : RewrittenFrom t₀ t) (hd : t.NoDangling) :
    RewrittenFrom t₀ (t.push .default) ∧ (t.push .default).NoDangling :=
  ⟨h.push hd (by simp [Node.children]) (.inr rfl), hd.push (by simp [Node.children])⟩

/-- An operand of a call is replaced by a node that wraps it. -/
theorem setOperand {call replacement : NodeId} {name : String} {operands current : List NodeId}
    {index : Nat} (h : RewrittenFrom t₀ t) (hcall : t₀.node? call = some (.call name operands))
    (hcurrent : t.node? call = some (.call name current))
    (hw : ∀ a, operands[index]? = some a → Wraps t₀ t a replacement)
    (hdefault : t.node? replacement ≠ some .default) :
    RewrittenFrom t₀ (t.setNode call (.call name (current.set index replacement))) where
  size_le := by simpa using h.size_le
  span id hid := by rw [span?_setNode, h.span id hid]
  other id n hn ho := by
    have hne : id ≠ call := by
      rintro rfl
      rw [hcall] at hn
      cases hn
      simp [Node.operands?] at ho
    rw [node?_setNode, if_neg hne]
    exact h.other id n hn ho
  call id name' operands' hn := by
    have hkeep := keepsAdded_setNode (t := t) (lt_size_of_node? hcall)
      (.call name (current.set index replacement))
    obtain ⟨current', hc, hws⟩ := h.call id name' operands' hn
    by_cases hid : id = call
    · subst hid
      rw [hcall] at hn
      cases hn
      rw [hcurrent] at hc
      cases hc
      refine ⟨current.set index replacement, by rw [node?_setNode, if_pos rfl, hcurrent]; rfl, ?_⟩
      exact (wraps_set hws hw).imp fun _ _ hab => hab.mono hkeep
    · refine ⟨current', ?_, hws.imp fun _ _ hab => hab.mono hkeep⟩
      rw [node?_setNode, if_neg hid]
      exact hc
  added id hnew hid := by
    have hinserted : t.Inserted id := h.added id hnew (by simpa using hid)
    refine hinserted.setOperand ?_ hcurrent hdefault
    rintro rfl
    have := lt_size_of_node? hcall
    omega

end RewrittenFrom

/-! ### Inserting a cast -/

section

variable {current : NodeId} {target : CastTarget}

/-- A new cast of a node that is no placeholder is a rewriting, wherever it is used. -/
theorem RewrittenFrom.pushCast (target : CastTarget) (h : RewrittenFrom t₀ t) (hd : t.NoDangling)
    (hc : (t.node? current).isSome = true) (hne : t.node? current ≠ some .default) :
    RewrittenFrom t₀ (t.pushCast current target true) ∧
      (t.pushCast current target true).NoDangling := by
  have hchild : ∀ child ∈ (Node.cast current target true).children,
      (t.node? child).isSome = true ∧ t.node? child ≠ some .default := by
    simpa [Node.children] using And.intro hc hne
  obtain ⟨n, hn⟩ := Option.isSome_iff_exists.mp hc
  have hspan : t.span? current = some ((t.span? current).getD .synthetic) := by
    have hlt := lt_size_of_node? hn
    simp only [size] at hlt
    simp [span?, hlt]
  exact ⟨h.push hd hchild (.inl ⟨current, target, rfl, hspan⟩),
    hd.push fun child hmem => (hchild child hmem).1⟩

/-- A new cast is found under its number. -/
theorem node?_pushCast_nextId (current : NodeId) (target : CastTarget) (t : Tree) :
    (t.pushCast current target true).node? t.nextId = some (.cast current target true) := by
  rw [Tree.pushCast, node?_push, if_pos rfl]

/-- A new cast leaves the nodes before it as they are. -/
theorem node?_pushCast_of_lt {id : NodeId} (hid : id.index < t.size) :
    (t.pushCast current target true).node? id = t.node? id := by
  rw [Tree.pushCast, node?_push, if_neg (ne_nextId_of_lt hid)]

/-- A call can be pointed at a cast of an operand that it has. -/
theorem exists_insertCast {call : NodeId} {name : String} {operands : List NodeId} {index : Nat}
    (hcall : t.node? call = some (.call name operands)) (hi : index < operands.length) :
    ∃ t', (t.pushCast current target true).replaceOperand? call index t.nextId = some t' := by
  unfold replaceOperand?
  rw [node?_pushCast_of_lt (lt_size_of_node? hcall), hcall]
  simp only [if_pos hi]
  exact ⟨_, rfl⟩

/-- The call has the cast at the place of the operand then. -/
theorem node?_insertCast {call : NodeId} {name : String} {operands : List NodeId} {index : Nat}
    (hcall : t.node? call = some (.call name operands))
    (ht : (t.pushCast current target true).replaceOperand? call index t.nextId = some t') :
    t'.node? call = some (.call name (operands.set index t.nextId)) := by
  have hpushed : (t.pushCast current target true).node? call = t.node? call :=
    node?_pushCast_of_lt (lt_size_of_node? hcall)
  rw [hcall] at hpushed
  unfold replaceOperand? at ht
  rw [hpushed] at ht
  simp only [Option.ite_none_right_eq_some, Option.some.injEq] at ht
  obtain ⟨-, rfl⟩ := ht
  rw [node?_setNode, if_pos rfl, hpushed]
  rfl

/-- A call is pointed at a new cast around what wraps its operand. -/
theorem RewrittenFrom.insertCast {call a : NodeId} {name : String} {written : List NodeId}
    {index : Nat} (h : RewrittenFrom t₀ t) (hd : t.NoDangling)
    (hcall : t₀.node? call = some (.call name written)) (ha : written[index]? = some a)
    (hw : Wraps t₀ t a current) (hc : (t.node? current).isSome = true)
    (hne : t.node? current ≠ some .default)
    (ht : (t.pushCast current target true).replaceOperand? call index t.nextId = some t') :
    RewrittenFrom t₀ t' ∧ t'.NoDangling ∧ KeepsAdded t₀ t t' ∧ Wraps t₀ t' a t.nextId ∧
      t'.node? t.nextId = some (.cast current target true) := by
  obtain ⟨hgrown, hclosed⟩ := h.pushCast target hd hc hne
  obtain ⟨operands, hoperands, -⟩ := hgrown.call call name written hcall
  have hself := node?_pushCast_nextId current target t
  -- Pushing the cast, then pointing the call at it.
  have hpush : KeepsAdded t₀ t (t.pushCast current target true) := keepsAdded_push _ _
  have hwrap : Wraps t₀ (t.pushCast current target true) a t.nextId :=
    .cast h.size_le hself (hw.mono hpush)
  unfold replaceOperand? at ht
  rw [hoperands] at ht
  simp only [Option.ite_none_right_eq_some, Option.some.injEq] at ht
  obtain ⟨-, rfl⟩ := ht
  have hset := keepsAdded_setNode (t := t.pushCast current target true) (lt_size_of_node? hcall)
    (.call name (operands.set index t.nextId))
  have hnew : t₀.size ≤ t.nextId.index := h.size_le
  refine ⟨hgrown.setOperand hcall hoperands ?_ ?_, hclosed.setOperand hoperands ?_,
    hpush.trans hset, hwrap.mono hset, ?_⟩
  · intro b hb
    rw [ha] at hb
    cases hb
    exact hwrap
  · rw [hself]
    simp
  · rw [hself]
    rfl
  · rw [hset.node? _ hnew (lt_size_of_node? hself), hself]

/-- One node more is one step, when it is a placeholder or a cast around an operand of the call. -/
theorem recast_push (hsize : t₀.size ≤ t.size) {call : NodeId} {node : Node} {span : Span}
    (h : node = .default ∨ ∃ n a, t₀.node? call = some n ∧ a ∈ n.children ∧
      Wraps t₀ (t.push node span) a t.nextId) :
    Recast t₀ call t (t.push node span) where
  keeps := keepsAdded_push _ _
  node? id hid _ := by
    rw [node?_push, if_neg (ne_nextId_of_lt (Nat.lt_of_lt_of_le hid hsize))]
  added id hnew hid := by
    obtain ⟨i⟩ := id
    rw [size_push] at hid
    obtain rfl : i = t.size := by
      simp only at hnew hid
      omega
    rcases h with rfl | h
    · exact .inl ((node?_push _ _ _ _).trans (if_pos rfl))
    · exact .inr h

/-- Pointing the call at a node does not change the others. -/
theorem Recast.replaceOperand {t'' : Tree} {call replacement : NodeId} {index : Nat}
    (h : Recast t₀ call t t') (hsize : t₀.size ≤ t.size) (hcall : call.index < t₀.size)
    (ht : t'.replaceOperand? call index replacement = some t'') : Recast t₀ call t t'' := by
  obtain ⟨node, rfl⟩ : ∃ node, t'' = t'.setNode call node := by
    unfold replaceOperand? at ht
    split at ht
    · split at ht
      · exact ⟨_, (Option.some.inj ht).symm⟩
      · cases ht
    · cases ht
  have hset := keepsAdded_setNode (t := t') hcall node
  refine ⟨h.keeps.trans hset, fun id hid hne => ?_, fun id hnew hid => ?_⟩
  · rw [node?_setNode, if_neg hne, h.node? id hid hne]
  · rw [size_setNode] at hid
    have hold : t₀.size ≤ id.index := Nat.le_trans hsize hnew
    rcases h.added id hnew hid with hd | ⟨n, a, hn, ha, hw⟩
    · exact .inl ((hset.node? id hold hid).trans hd)
    · exact .inr ⟨n, a, hn, ha, hw.mono hset⟩

end

end Tree

end SqlTyping
