import Mathlib.Data.List.Nodup
import Mathlib.Logic.Relation
import SqlTyping.Operator
import SqlTyping.Proofs.Tree.Rewriting

namespace SqlTyping

/-!
# Forests

A statement as it is written: every node is a child of at most one node and lies below no cycle.

* `Tree.IsForest` — the trees of written statements, `Tree.IsForest.of_ordered` a test for them;
* `Node.visited` — the children that validation looks at, which leaves out keywords;
* `Tree.Below` — a node is reached from another one through such children;
* `Tree.IsForest.siblings_apart` — the parts below two children of a node have no node in common;
* `Tree.RewrittenFrom.below` — validation of a rewritten statement gets to all that it got to before.
-/

/-- The operands of a call that are no keywords for its operator; none when there is no operator. -/
def OperatorTable.visitedOperands (ops : OperatorTable) (name : String) (operands : List NodeId) :
    List NodeId :=
  match ops.lookup? name with
  | none => []
  | some op =>
    (operands.zipIdx.filter fun entry => !op.signature.isKeyword entry.2).map (·.1)

/-- The children of a node that validation looks at. -/
def Node.visited (ops : OperatorTable) : Node → List NodeId
  | .call name operands => ops.visitedOperands name operands
  | node => node.children

/-- An operand is looked at when the operator asks for no keyword in its place. -/
theorem OperatorTable.mem_visitedOperands {ops : OperatorTable} {name : String} {op : Operator}
    {operands : List NodeId} {index : Nat} {operand : NodeId} (hop : ops.lookup? name = some op)
    (hkey : op.signature.isKeyword index = false) (hoperand : operands[index]? = some operand) :
    operand ∈ ops.visitedOperands name operands := by
  unfold OperatorTable.visitedOperands
  rw [hop]
  refine List.mem_map.mpr ⟨(operand, index), List.mem_filter.mpr ⟨?_, by simp [hkey]⟩, rfl⟩
  exact List.mem_zipIdx_iff_getElem?.mpr (by simpa using hoperand)

/-- Every operand that is looked at stands in a place that is no keyword. -/
theorem OperatorTable.exists_of_mem_visitedOperands {ops : OperatorTable} {name : String}
    {operands : List NodeId} {operand : NodeId} (h : operand ∈ ops.visitedOperands name operands) :
    ∃ op index, ops.lookup? name = some op ∧ op.signature.isKeyword index = false ∧
      operands[index]? = some operand := by
  unfold OperatorTable.visitedOperands at h
  cases hop : ops.lookup? name with
  | none => simp [hop] at h
  | some op =>
    rw [hop] at h
    obtain ⟨⟨o, index⟩, hmem, rfl⟩ := List.mem_map.mp h
    obtain ⟨hmem, hkey⟩ := List.mem_filter.mp hmem
    refine ⟨op, index, rfl, by simpa using hkey, ?_⟩
    simpa using List.mem_zipIdx_iff_getElem?.mp hmem

/-- What validation looks at is among the children. -/
theorem Node.mem_children_of_visited {ops : OperatorTable} {node : Node} {child : NodeId}
    (h : child ∈ node.visited ops) : child ∈ node.children := by
  cases node with
  | call name operands =>
    obtain ⟨_, index, -, -, ho⟩ := OperatorTable.exists_of_mem_visitedOperands h
    exact List.mem_of_getElem? ho
  | _ => exact h

namespace Tree

/-- A node is a child of another one. -/
def Child (t : Tree) (p c : NodeId) : Prop := ∃ node, t.node? p = some node ∧ c ∈ node.children

/-- A node is a child of another one and is looked at from there. -/
def Visits (ops : OperatorTable) (t : Tree) (p c : NodeId) : Prop :=
  ∃ node, t.node? p = some node ∧ c ∈ node.visited ops

/-- Validation gets from one node to the other, in any number of steps. -/
def Below (ops : OperatorTable) (t : Tree) : NodeId → NodeId → Prop :=
  Relation.ReflTransGen (t.Visits ops)

/-- The same in at least one step. -/
def StrictlyBelow (ops : OperatorTable) (t : Tree) : NodeId → NodeId → Prop :=
  Relation.TransGen (t.Visits ops)

/-- The tree of a written statement, or of several: the nodes that are referred to are there, none
    of them is referred to twice, and no node lies below itself. -/
structure IsForest (t : Tree) : Prop where
  closed : t.NoDangling
  once : (t.entries.toList.flatMap fun e => e.node.children).Nodup
  acyclic : ∀ id, ¬ Relation.TransGen t.Child id id

variable {ops : OperatorTable} {t : Tree} {p q x y z : NodeId}

theorem Visits.child (h : t.Visits ops p x) : t.Child p x := by
  obtain ⟨node, hn, hmem⟩ := h
  exact ⟨node, hn, Node.mem_children_of_visited hmem⟩

theorem Below.child (h : t.Below ops x z) : Relation.ReflTransGen t.Child x z :=
  Relation.ReflTransGen.mono (fun _ _ => Visits.child) _ _ h

theorem StrictlyBelow.child (h : t.StrictlyBelow ops x z) : Relation.TransGen t.Child x z :=
  Relation.TransGen.mono (fun _ _ => Visits.child) _ _ h

theorem StrictlyBelow.below (h : t.StrictlyBelow ops x z) : t.Below ops x z := h.to_reflTransGen

/-- What holds between the numbers of all nodes and their children, one node after the other. -/
theorem Child.of_entries {R : Nat → Nat → Prop}
    (h : ∀ e ∈ t.entries.toList.zipIdx, ∀ c ∈ e.1.node.children, R e.2 c.index)
    (hc : t.Child p x) : R p.index x.index := by
  obtain ⟨node, hn, hmem⟩ := hc
  obtain ⟨e, he, rfl⟩ := Option.map_eq_some_iff.mp hn
  refine h (e, p.index) (List.mem_zipIdx_iff_getElem?.mpr ?_) x hmem
  simpa using he

/-- A node that comes after its children is not below itself. -/
theorem acyclic_of_ordered
    (horder : ∀ e ∈ t.entries.toList.zipIdx, ∀ c ∈ e.1.node.children, c.index < e.2) (id : NodeId) :
    ¬ Relation.TransGen t.Child id id := by
  have hstep : ∀ p c, t.Child p c → c.index < p.index := fun _ _ =>
    Child.of_entries (R := fun p c => c < p) horder
  have hchain : ∀ p c, Relation.TransGen t.Child p c → c.index < p.index := by
    intro p c h
    induction h with
    | single h => exact hstep _ _ h
    | tail _ h ih => exact Nat.lt_trans (hstep _ _ h) ih
  exact fun h => Nat.lt_irrefl _ (hchain id id h)

/-- A statement in which every node comes after its children is a forest when no node is referred
    to twice. -/
theorem IsForest.of_ordered (hclosed : t.NoDangling)
    (honce : (t.entries.toList.flatMap fun e => e.node.children).Nodup)
    (horder : ∀ e ∈ t.entries.toList.zipIdx, ∀ c ∈ e.1.node.children, c.index < e.2) :
    t.IsForest :=
  ⟨hclosed, honce, acyclic_of_ordered horder⟩

namespace IsForest

/-- Children are nodes of the tree. -/
theorem lt_size_of_child (h : t.IsForest) (hc : t.Child p x) : x.index < t.size := by
  obtain ⟨node, hn, hmem⟩ := hc
  exact isSome_node?_iff.mp (h.closed p node hn x hmem)

/-- Everything below a node of the tree is a node of the tree. -/
theorem lt_size_of_reach (h : t.IsForest) (hp : p.index < t.size)
    (hb : Relation.ReflTransGen t.Child p x) : x.index < t.size := by
  rcases Relation.ReflTransGen.cases_tail hb with rfl | ⟨c, -, hc⟩
  · exact hp
  · exact h.lt_size_of_child hc

theorem lt_size_of_below (h : t.IsForest) (hp : p.index < t.size) (hb : t.Below ops p x) :
    x.index < t.size :=
  h.lt_size_of_reach hp hb.child

/-- The children of a node are different. -/
theorem nodup_children (h : t.IsForest) {node : Node} (hn : t.node? p = some node) :
    node.children.Nodup := by
  obtain ⟨e, he, rfl⟩ := Option.map_eq_some_iff.mp hn
  exact (List.nodup_flatMap.mp h.once).1 e (Array.mem_toList_iff.mpr (Array.mem_of_getElem? he))

/-- A node has one parent. -/
theorem parent_unique (h : t.IsForest) (hp : t.Child p x) (hq : t.Child q x) : p = q := by
  obtain ⟨m, hm, hxm⟩ := hp
  obtain ⟨n, hn, hxn⟩ := hq
  obtain ⟨e, he, rfl⟩ := Option.map_eq_some_iff.mp hm
  obtain ⟨f, hf, rfl⟩ := Option.map_eq_some_iff.mp hn
  -- Two parents would list the node in two places.
  have hpair := (List.nodup_flatMap.mp h.once).2
  rw [List.pairwise_iff_getElem] at hpair
  obtain ⟨hi, hei⟩ := Array.getElem?_eq_some_iff.mp he
  obtain ⟨hj, hfj⟩ := Array.getElem?_eq_some_iff.mp hf
  have hij : p.index = q.index := by
    rcases Nat.lt_trichotomy p.index q.index with hlt | heq | hlt
    · have := hpair p.index q.index (by simpa using hi) (by simpa using hj) hlt
      simp only [Array.getElem_toList, hei, hfj] at this
      exact absurd hxn (List.disjoint_left.mp this hxm)
    · exact heq
    · have := hpair q.index p.index (by simpa using hj) (by simpa using hi) hlt
      simp only [Array.getElem_toList, hei, hfj] at this
      exact absurd hxm (List.disjoint_left.mp this hxn)
  cases p
  cases q
  simp_all

/-- Two nodes above the same node lie one above the other. -/
theorem comparable (h : t.IsForest) (hx : Relation.ReflTransGen t.Child x z)
    (hy : Relation.ReflTransGen t.Child y z) :
    Relation.ReflTransGen t.Child x y ∨ Relation.ReflTransGen t.Child y x := by
  induction hx with
  | refl => exact .inr hy
  | tail hxb hbc ih =>
    rcases Relation.ReflTransGen.cases_tail hy with rfl | ⟨d, hyd, hdc⟩
    · exact .inl (hxb.tail hbc)
    · rw [h.parent_unique hdc hbc] at hyd
      exact ih hyd

/-- A node above a child of `p`, and not that child, lies above `p`. -/
theorem above_parent (h : t.IsForest) (hp : t.Child p x) (hy : Relation.ReflTransGen t.Child y x)
    (hne : y ≠ x) : Relation.ReflTransGen t.Child y p := by
  rcases Relation.ReflTransGen.cases_tail hy with rfl | ⟨d, hyd, hdx⟩
  · exact absurd rfl hne
  · rwa [h.parent_unique hdx hp] at hyd

/-- A parent does not lie below its child. -/
theorem not_above_parent (h : t.IsForest) (hp : t.Child p x) :
    ¬ Relation.ReflTransGen t.Child x p := by
  intro hb
  exact h.acyclic p (Relation.TransGen.head' hp hb)

/-- No node lies below two different children of a node. -/
theorem siblings_apart (h : t.IsForest) (hx : t.Child p x) (hy : t.Child p y) (hne : x ≠ y)
    (hxz : Relation.ReflTransGen t.Child x z) : ¬ Relation.ReflTransGen t.Child y z := by
  intro hyz
  rcases h.comparable hxz hyz with hxy | hyx
  · exact h.not_above_parent hx (h.above_parent hy hxy hne)
  · exact h.not_above_parent hy (h.above_parent hx hyx (Ne.symm hne))

end IsForest

/-! ### Rewritten trees -/

section

variable {t₀ : Tree}

/-- Validation gets from what wraps a node to the node. -/
theorem below_of_wraps (h : Wraps t₀ t x z) : t.Below ops z x := by
  induction h with
  | self => exact .refl
  | cast _ hcast _ ih => exact .head ⟨_, hcast, by simp [Node.visited, Node.children]⟩ ih

/-- What validation gets to in a statement, it gets to after the statement has been rewritten. -/
theorem RewrittenFrom.below (h : RewrittenFrom t₀ t) (hb : t₀.Below ops x z) : t.Below ops x z := by
  induction hb with
  | refl => exact .refl
  | tail _ hc ih =>
    obtain ⟨node, hn, hmem⟩ := hc
    apply ih.trans
    cases node with
    | call name operands =>
      obtain ⟨current, hcall, hw⟩ := h.call _ name operands hn
      obtain ⟨op, index, hop, hkey, ho⟩ := OperatorTable.exists_of_mem_visitedOperands hmem
      obtain ⟨hi, rfl⟩ := List.getElem?_eq_some_iff.mp ho
      have hi' : index < current.length := by
        rw [← hw.length_eq]
        exact hi
      have hvisits := OperatorTable.mem_visitedOperands hop hkey (List.getElem?_eq_getElem hi')
      exact .head ⟨_, hcall, hvisits⟩ (below_of_wraps (hw.get hi hi'))
    | _ => exact .single ⟨_, h.other _ _ hn rfl, hmem⟩

end

/-! ### Casts around an expression -/

/-- What lies under the casts around `e`, and around which nodes below `e` they are: taking off the
    casts of a rewritten tree leads from `e` to `core`. -/
structure Peeled (ops : OperatorTable) (t₀ t : Tree) (e : NodeId) (casts : List (NodeId × CastTarget))
    (core : NodeId) : Prop where
  lt_size : core.index < t₀.size
  below : t₀.Below ops e core
  wraps : ∀ z ∈ casts, ∃ a, a.index < t₀.size ∧ Wraps t₀ t a z.1 ∧ t₀.Below ops e a ∧
    t₀.Below ops a core
  rest : ∀ x, t₀.Below ops e x → t₀.Below ops core x ∨
    ∃ operand target implicit, t₀.node? x = some (.cast operand target implicit)

variable {t₀ : Tree} {e current core : NodeId} {casts : List (NodeId × CastTarget)}

/-- Without casts only the expression itself is left. -/
theorem Peeled.of_wraps (hw : Wraps t₀ t e current) (he : e.index < t₀.size)
    (hcore : ∀ operand target implicit,
      t.node? current ≠ some (.cast operand target implicit)) :
    Peeled ops t₀ t e [] current := by
  cases hw with
  | self => exact ⟨he, .refl, by simp, fun _ h => .inl h⟩
  | cast _ hcast _ => exact absurd hcast (hcore _ _ _)

/-- The casts that are taken off are around nodes between the expression and what is left. -/
theorem peeled_of_peelCasts (h : RewrittenFrom t₀ t) (hclosed : t₀.NoDangling) {fuel : Nat}
    (hw : Wraps t₀ t e current) (he : e.index < t₀.size)
    (hpeel : t.peelCasts fuel current = (casts, core))
    (hcore : ∀ operand target implicit, t.node? core ≠ some (.cast operand target implicit)) :
    Peeled ops t₀ t e casts core := by
  induction fuel generalizing e current casts with
  | zero =>
    cases hpeel
    exact .of_wraps hw he hcore
  | succ fuel ih =>
    unfold peelCasts at hpeel
    split at hpeel
    · rename_i operand target implicit hcast
      obtain ⟨inner, core', hinner⟩ : ∃ inner core', t.peelCasts fuel operand = (inner, core') :=
        ⟨_, _, rfl⟩
      simp only [hinner, Prod.mk.injEq] at hpeel
      obtain ⟨rfl, rfl⟩ := hpeel
      cases hw with
      -- A cast as written: what is left is below its operand.
      | self =>
        have hsame := h.node?_eq he hcast rfl
        have hvisits : t₀.Visits ops e operand := ⟨_, hsame, by simp [Node.visited, Node.children]⟩
        have hoperand : operand.index < t₀.size :=
          isSome_node?_iff.mp (hclosed e _ hsame operand (by simp [Node.children]))
        have hp := ih .self hoperand hinner
        refine ⟨hp.lt_size, .head hvisits hp.below, ?_, ?_⟩
        · intro z hz
          rcases List.mem_cons.mp hz with rfl | hz
          · exact ⟨e, he, .self, .refl, .head hvisits hp.below⟩
          · obtain ⟨a, ha, hwa, hb, hc⟩ := hp.wraps z hz
            exact ⟨a, ha, hwa, .head hvisits hb, hc⟩
        · intro x hx
          rcases Relation.ReflTransGen.cases_head hx with rfl | ⟨y, ⟨n, hn, hy⟩, hyx⟩
          · exact .inr ⟨_, _, _, hsame⟩
          · rw [hsame] at hn
            cases hn
            obtain rfl := List.mem_singleton.mp hy
            exact hp.rest x hyx
      -- An inserted one: it is around the same expression.
      | cast hnew hcast' hw' =>
        rw [hcast] at hcast'
        cases hcast'
        have hp := ih hw' he hinner
        refine ⟨hp.lt_size, hp.below, ?_, hp.rest⟩
        intro z hz
        rcases List.mem_cons.mp hz with rfl | hz
        · exact ⟨e, he, .cast hnew hcast hw', .refl, hp.below⟩
        · exact hp.wraps z hz
    · cases hpeel
      exact .of_wraps hw he hcore

/-- The first cast that is taken off is the outermost node. -/
theorem head?_peelCasts (t : Tree) (fuel : Nat) (id : NodeId) :
    ((t.peelCasts fuel id).1.map (·.1) ++ [(t.peelCasts fuel id).2]).head? = some id := by
  cases fuel with
  | zero => rfl
  | succ fuel =>
    unfold peelCasts
    split
    · rfl
    · rfl

end Tree

end SqlTyping
