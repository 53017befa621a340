import SqlTyping.Proofs.Session.CallCoupling

namespace SqlTyping

/-!
# Keywords are not looked at

What stands in the place of a keyword of a call has no influence on what validation finds:

* `Tree.DiffersUnder` — two statements that differ in nothing but what stands there;
* `Hiding` — such statements, the operand being a keyword of the call and no placeholder;
* `Hiding.Trees`, `Hiding.Types` — the statements while they are validated, and the types found in them:
  nodes outside are the same but for the numbers of casts that are added, and what stands in the place of
  the keyword is left alone;
* `Hiding.coupling` — this is a way in which two statements are looked at alike;
* `keyword_not_looked_at` — so a query around the call ends alike in both.
-/

namespace Tree

/-- The node is one of the tree and is not reached from `o`. -/
def Outside (t : Tree) (o id : NodeId) : Prop :=
  id.index < t.size ∧ ¬ Relation.ReflTransGen t.Child o id

/-- Two statements differ only below an operand of a call, which is `o` in the one and `o'` in the other. -/
structure DiffersUnder (t t' : Tree) (call : NodeId) (name : String) (index : Nat) (o o' : NodeId) :
    Prop where
  forest : t.IsForest
  forest' : t'.IsForest
  operand : ∃ operands, t.node? call = some (.call name operands) ∧ operands[index]? = some o ∧
    t'.node? call = some (.call name (operands.set index o'))
  same : ∀ id, id ≠ call → ¬ Relation.ReflTransGen t.Child o id →
    ¬ Relation.ReflTransGen t'.Child o' id → t'.node? id = t.node? id

namespace DiffersUnder

variable {t t' : Tree} {call o o' : NodeId} {name : String} {index : Nat}

/-- It does not matter which of the statements is the first one. -/
theorem symm (h : t.DiffersUnder t' call name index o o') : t'.DiffersUnder t call name index o' o := by
  obtain ⟨operands, hcall, ho, hcall'⟩ := h.operand
  obtain ⟨hi, rfl⟩ := List.getElem?_eq_some_iff.mp ho
  refine ⟨h.forest', h.forest, ⟨_, hcall', List.getElem?_set_self hi, ?_⟩, fun id hne hid hid' =>
    (h.same id hne hid' hid).symm⟩
  rw [List.set_set, List.set_getElem_self]
  exact hcall

variable (h : t.DiffersUnder t' call name index o o')

include h

/-- The operand is a child of the call. -/
theorem child : t.Child call o := by
  obtain ⟨operands, hcall, ho, -⟩ := h.operand
  exact ⟨_, hcall, List.mem_of_getElem? ho⟩

/-- What is around the call is outside. -/
theorem outside {id : NodeId} (hid : Relation.ReflTransGen t.Child id call) : t.Outside o id := by
  have hcall := h.forest.not_above_parent h.child
  refine ⟨?_, fun ho => hcall (ho.trans hid)⟩
  obtain ⟨operands, hn, -⟩ := h.operand
  rcases Relation.ReflTransGen.cases_head hid with rfl | ⟨_, ⟨_, hn, -⟩, -⟩
  · exact lt_size_of_node? hn
  · exact lt_size_of_node? hn

/-- A child of a node outside is outside, if it is not the operand itself. -/
theorem outside_child {p x : NodeId} (hp : t.Outside o p) (hc : t.Child p x) (hne : x ≠ o) :
    t.Outside o x :=
  ⟨h.forest.lt_size_of_child hc, fun hx => hp.2 (h.forest.above_parent hc hx (Ne.symm hne))⟩

/-- The operand stands in one place only. -/
theorem place_eq {operands : List NodeId} {place : Nat}
    (hcall : t.node? call = some (.call name operands)) (ho : operands[place]? = some o) :
    place = index := by
  obtain ⟨operands', hcall', ho', -⟩ := h.operand
  rw [hcall] at hcall'
  cases hcall'
  have hnodup : operands.Nodup := h.forest.nodup_children hcall
  obtain ⟨hi, hplace⟩ := List.getElem?_eq_some_iff.mp ho
  obtain ⟨hj, hindex⟩ := List.getElem?_eq_some_iff.mp ho'
  exact hnodup.getElem_inj_iff.mp (hplace.trans hindex.symm)

end DiffersUnder

end Tree

/-- Two statements that differ only in what stands in the place of a keyword of a call. The second one has
    at least as many nodes. -/
structure Hiding where
  before : Tree
  other : Tree
  operators : OperatorTable
  call : NodeId
  name : String
  op : Operator
  index : Nat
  o : NodeId
  o' : NodeId
  differs : before.DiffersUnder other call name index o o'
  lookup : operators.lookup? name = some op
  keyword : op.signature.isKeyword index = true
  written : before.node? o ≠ some .default
  written' : other.node? o' ≠ some .default
  size_le : before.size ≤ other.size

namespace Hiding

variable (d : Hiding)

/-- Nodes that are added get numbers with this distance. -/
def shift : Shift := ⟨d.before.size, d.other.size - d.before.size⟩

/-- The node stands outside in both statements. -/
def Seen (id : NodeId) : Prop := d.before.Outside d.o id ∧ d.other.Outside d.o' id

/-- What stands in the same place as a keyword. -/
def Spare (operand operand' : NodeId) : Prop :=
  (operand = d.o ∧ operand' = d.o') ∨ (d.Seen operand ∧ operand' = operand)

variable {d} {id : NodeId}

theorem Seen.node_eq (h : d.Seen id) : d.shift.node id = id := Shift.node_of_lt h.1.1

theorem call_seen (d : Hiding) : d.Seen d.call := ⟨d.differs.outside .refl, d.differs.symm.outside .refl⟩

/-- The children of a node outside are outside, but for the operand. -/
theorem Seen.child {p x : NodeId} (hp : d.Seen p) (hc : d.before.Child p x) (hne : x ≠ d.o) :
    d.Seen x := by
  have hout := d.differs.outside_child hp.1 hc hne
  -- The child is one in the other statement too, and is not the operand there.
  have hchild' : d.other.Child p x ∧ x ≠ d.o' := by
    obtain ⟨node, hn, hx⟩ := hc
    by_cases hcall : p = d.call
    · obtain ⟨operands, hcalled, ho, hcalled'⟩ := d.differs.operand
      subst hcall
      rw [hcalled] at hn
      cases hn
      obtain ⟨i, hi⟩ : ∃ i : Nat, operands[i]? = some x := List.mem_iff_getElem?.mp hx
      have hplace : i ≠ d.index := by
        rintro rfl
        exact hne (Option.some.inj (hi.symm.trans ho))
      have hi' : (operands.set d.index d.o')[i]? = some x := by
        rw [List.getElem?_set_ne (Ne.symm hplace), hi]
      refine ⟨⟨_, hcalled', List.mem_of_getElem? hi'⟩, ?_⟩
      rintro rfl
      exact hplace (d.differs.symm.place_eq hcalled' hi')
    · have hn' := (d.differs.same p hcall hp.1.2 hp.2.2).trans hn
      refine ⟨⟨node, hn', hx⟩, ?_⟩
      rintro rfl
      exact hcall (d.differs.forest'.parent_unique ⟨node, hn', hx⟩ d.differs.symm.child)
  exact ⟨hout, d.differs.symm.outside_child hp.2 hchild'.1 hchild'.2⟩

/-- The operand is not looked at. -/
theorem Seen.visits {p x : NodeId} (hp : d.Seen p) (hv : d.before.Visits d.operators p x) : d.Seen x := by
  refine hp.child hv.child ?_
  rintro rfl
  obtain rfl := d.differs.forest.parent_unique hv.child d.differs.child
  obtain ⟨node, hn, hx⟩ := hv
  obtain ⟨operands, hcall, -, -⟩ := d.differs.operand
  rw [hcall] at hn
  cases hn
  obtain ⟨op, index, hop, hkey, ho⟩ := OperatorTable.exists_of_mem_visitedOperands hx
  rw [d.lookup] at hop
  cases hop
  rw [d.differs.place_eq hcall ho, d.keyword] at hkey
  cases hkey

/-! ### Statements -/

/-- The statements after the same casts have been put into them outside. -/
structure Trees (d : Hiding) (u u' : Tree) : Prop where
  grown : d.before.size ≤ u.size
  size : u'.size = u.size + (d.other.size - d.before.size)
  node : ∀ id, d.Seen id ∨ d.before.size ≤ id.index →
    Option.Rel (Node.Couples d.operators d.shift.node d.Spare) (u.node? id) (u'.node? (d.shift.node id))
  hidden : (u.node? d.o).any Node.isDefault = false
  hidden' : (u'.node? d.o').any Node.isDefault = false

theorem isDefault_eq_false {t : Tree} (h : t.node? id ≠ some .default) :
    (t.node? id).any Node.isDefault = false := by
  rw [Option.any_eq_false]
  intro node hn
  rw [← Bool.not_eq_true, Node.isDefault_iff]
  rintro rfl
  exact h hn

/-- What is written outside is the same in both statements. -/
theorem written_couples (hid : d.Seen id) :
    Option.Rel (Node.Couples d.operators d.shift.node d.Spare) (d.before.node? id)
      (d.other.node? id) := by
  obtain ⟨n, hn⟩ := Option.isSome_iff_exists.mp (Tree.isSome_node?_iff.mpr hid.1.1)
  obtain ⟨written, hcall, ho, hcall'⟩ := d.differs.operand
  by_cases hne : id = d.call
  · subst hne
    rw [hcall, hcall']
    refine .some (.call (List.length_set ..) (fun op hop index a a' ha ha' hkey => ?_)
      fun op hop index a a' ha ha' hkey => ?_)
    · have hindex : d.index ≠ index := by
        rintro rfl
        rw [d.lookup] at hop
        cases hop
        rw [d.keyword] at hkey
        cases hkey
      rw [List.getElem?_set_ne hindex, ha] at ha'
      obtain rfl := Option.some.inj ha'
      have hseen := hid.visits (x := a) ⟨_, hcall, OperatorTable.mem_visitedOperands hop hkey ha⟩
      exact hseen.node_eq.symm
    · by_cases hindex : d.index = index
      · subst hindex
        obtain ⟨hi, -⟩ := List.getElem?_eq_some_iff.mp ho
        rw [List.getElem?_set_self hi] at ha'
        exact .inl ⟨Option.some.inj (ha.symm.trans ho), (Option.some.inj ha').symm⟩
      · rw [List.getElem?_set_ne hindex, ha] at ha'
        obtain rfl := Option.some.inj ha'
        refine .inr ⟨hid.child ⟨_, hcall, List.mem_of_getElem? ha⟩ ?_, rfl⟩
        rintro rfl
        exact hindex (d.differs.place_eq hcall ha).symm
  · have hchild : ∀ x ∈ n.children, d.Seen x := fun x hx => by
      refine hid.child ⟨n, hn, hx⟩ ?_
      rintro rfl
      exact hne (d.differs.forest.parent_unique ⟨n, hn, hx⟩ d.differs.child)
    rw [d.differs.same id hne hid.1.2 hid.2.2, hn]
    exact .some (.refl (fun x hx => (hchild x hx).node_eq) fun x hx => .inr ⟨hchild x hx, rfl⟩)

/-- Nothing has been put into the statements yet. -/
theorem Trees.start (d : Hiding) : d.Trees d.before d.other where
  grown := Nat.le_refl _
  size := by
    have := d.size_le
    omega
  node id hid := by
    rcases hid with hid | hnew
    · rw [hid.node_eq]
      exact written_couples hid
    · have hmoved : (d.shift.node id).index = id.index + (d.other.size - d.before.size) :=
        Shift.apply_of_le hnew
      have hnone : ∀ {t : Tree} {x : NodeId}, t.size ≤ x.index → t.node? x = none := fun hx => by
        rw [← Option.not_isSome_iff_eq_none, Tree.isSome_node?_iff]
        exact Nat.not_lt.mpr hx
      rw [hnone hnew, hnone (t := d.other) (by omega)]
      exact .none
  hidden := isDefault_eq_false d.written
  hidden' := isDefault_eq_false d.written'

section

variable {u u' : Tree} (h : d.Trees u u')

include h

theorem Trees.nextId : d.shift.node u.nextId = u'.nextId := by
  unfold Shift.node Tree.nextId
  rw [Shift.apply_of_le (f := d.shift) h.grown, h.size]
  rfl

/-- The operands are old nodes. -/
theorem Trees.lt_size : d.o.index < u.size ∧ d.o'.index < u'.size := by
  have ho := d.differs.forest.lt_size_of_child d.differs.child
  have ho' := d.differs.forest'.lt_size_of_child d.differs.symm.child
  have := h.grown
  have := h.size
  have := d.size_le
  omega

/-- A node that is no call is added to both. -/
theorem Trees.push {n : Node} (hn : n.operands? = none) (span span' : Span) :
    d.Trees (u.push n span) (u'.push (n.renumber d.shift.node) span') where
  grown := by
    have := h.grown
    rw [Tree.size_push]
    omega
  size := by
    have := h.size
    rw [Tree.size_push, Tree.size_push]
    omega
  node id hid := by
    simp only [Tree.node?_push, ← h.nextId, Shift.node_inj]
    split
    · exact .some (.other hn)
    · exact h.node id hid
  hidden := by
    rw [Tree.node?_push, if_neg (Tree.ne_nextId_of_lt h.lt_size.1)]
    exact h.hidden
  hidden' := by
    rw [Tree.node?_push, if_neg (Tree.ne_nextId_of_lt h.lt_size.2)]
    exact h.hidden'

/-- A node outside is replaced in both. -/
theorem Trees.setNode {n n' : Node} (hid : d.Seen id)
    (hn : Node.Couples d.operators d.shift.node d.Spare n n') :
    d.Trees (u.setNode id n) (u'.setNode id n') where
  grown := by
    rw [Tree.size_setNode]
    exact h.grown
  size := by
    rw [Tree.size_setNode, Tree.size_setNode]
    exact h.size
  node x hx := by
    have hmoved : d.shift.node x = id ↔ x = id := by
      rw [← Shift.node_inj (f := d.shift) (a := x), hid.node_eq]
    simp only [Tree.node?_setNode, hmoved]
    split
    · have hold := h.node id (.inl hid)
      rw [hid.node_eq] at hold
      generalize u.node? id = m, u'.node? id = m' at hold
      cases hold with
      | none => exact .none
      | some => exact .some hn
    · exact h.node x hx
  hidden := by
    have hne : d.o ≠ id := fun he => hid.1.2 (he ▸ .refl)
    rw [Tree.node?_setNode, if_neg hne]
    exact h.hidden
  hidden' := by
    have hne : d.o' ≠ id := fun he => hid.2.2 (he ▸ .refl)
    rw [Tree.node?_setNode, if_neg hne]
    exact h.hidden'

/-- A call outside is pointed at casts that are new in both. -/
theorem Trees.insertCast {call : NodeId} {name : String} {operands : List NodeId} {op : Operator}
    {index : Nat} {tree : Tree} (operand : NodeId) (target : CastTarget) (hcall : d.Seen call)
    (hn : u.node? call = some (.call name operands)) (hop : d.operators.lookup? name = some op)
    (hkey : op.signature.isKeyword index = false)
    (ht : (u.pushCast operand target true).replaceOperand? call index u.nextId = some tree) :
    ∃ tree', (u'.pushCast (d.shift.node operand) target true).replaceOperand? call index u'.nextId =
      some tree' ∧ d.Trees tree tree' := by
  have hpush : d.Trees (u.pushCast operand target true) (u'.pushCast (d.shift.node operand) target true) :=
    h.push (n := .cast operand target true) rfl _ _
  have hnode := hpush.node call (.inl hcall)
  have hold : (u.pushCast operand target true).node? call = some (.call name operands) :=
    (Tree.node?_pushCast_of_lt (Tree.lt_size_of_node? hn)).trans hn
  unfold Tree.replaceOperand? at ht ⊢
  rw [hcall.node_eq] at hnode
  rw [hold] at hnode ht
  generalize (u'.pushCast (d.shift.node operand) target true).node? call = n' at hnode
  cases hnode with
  | some hcouples =>
  cases hcouples with
  | other hother => cases hother
  | call hlength hseen hspare =>
    simp only [Option.ite_none_right_eq_some, Option.some.injEq] at ht
    obtain ⟨hi, rfl⟩ := ht
    refine ⟨_, if_pos (by omega), hpush.setNode hcall (.call (by simpa using hlength) ?_ ?_)⟩
    · intro op' hop' i a a' ha ha' hkey'
      rw [List.getElem?_set] at ha ha'
      split at ha
      · rename_i heq
        rw [if_pos heq] at ha'
        simp only [hi, hlength, if_true] at ha ha'
        cases ha
        cases ha'
        exact h.nextId.symm
      · rename_i hne
        rw [if_neg hne] at ha'
        exact hseen op' hop' i a a' ha ha' hkey'
    · intro op' hop' i a a' ha ha' hkey'
      -- The operand that is cast is no keyword.
      have hne : index ≠ i := by
        rintro rfl
        rw [hop] at hop'
        cases hop'
        rw [hkey] at hkey'
        cases hkey'
      rw [List.getElem?_set_ne hne] at ha ha'
      exact hspare op' hop' i a a' ha ha' hkey'

end

/-! ### Types -/

/-- The types that have been found in both, none of them for what stands in the place of the keyword. -/
structure Types (d : Hiding) (m m' : OrderedMap NodeId DataType) : Prop where
  get? : ∀ id, d.Seen id ∨ d.before.size ≤ id.index → m'.get? (d.shift.node id) = m.get? id
  hidden : ∀ id, Relation.ReflTransGen d.before.Child d.o id → m.get? id = none
  hidden' : ∀ id, Relation.ReflTransGen d.other.Child d.o' id → m'.get? id = none

/-- No type is recorded for what stands in the place of the keyword. -/
theorem Types.put {m m' : OrderedMap NodeId DataType} (h : d.Types m m') (type : DataType)
    (hid : d.Seen id ∨ d.before.size ≤ id.index) :
    d.Types (m.put id type) (m'.put (d.shift.node id) type) where
  get? x hx := by
    simp only [OrderedMap.get?_put, Shift.node_inj]
    split
    · rfl
    · exact h.get? x hx
  hidden x hx := by
    have hlt := d.differs.forest.lt_size_of_reach
      (d.differs.forest.lt_size_of_child d.differs.child) hx
    have hne : x ≠ id := by
      rintro rfl
      rcases hid with hid | hnew
      · exact hid.1.2 hx
      · omega
    exact (OrderedMap.get?_put ..).trans ((if_neg hne).trans (h.hidden x hx))
  hidden' x hx := by
    have hlt := d.differs.forest'.lt_size_of_reach
      (d.differs.forest'.lt_size_of_child d.differs.symm.child) hx
    have hne : x ≠ d.shift.node id := by
      rintro rfl
      rcases hid with hid | hnew
      · rw [hid.node_eq] at hx
        exact hid.2.2 hx
      · have hmoved : (d.shift.node id).index = id.index + (d.other.size - d.before.size) :=
          Shift.apply_of_le hnew
        omega
    exact (OrderedMap.get?_put ..).trans ((if_neg hne).trans (h.hidden' x hx))

/-! ### Both validations -/

/-- The statements are looked at alike. -/
def coupling (d : Hiding) (rank : NodeId → Nat)
    (hrank : ∀ p a, d.before.Child p a → rank a < rank p) : Coupling where
  before := d.before
  operators := d.operators
  sees := d.Seen
  rank := rank
  shift := d.shift
  spare := d.Spare
  trees := d.Trees
  types := d.Types
  closed := d.differs.forest.closed
  acyclic := d.differs.forest.acyclic
  rank_lt := hrank
  start := rfl
  lt_size _ h := h.1.1
  visits _ _ := Seen.visits
  nextId := Trees.nextId
  size_le h := by
    rw [h.size]
    exact Nat.le_add_right _ _
  node h hid := h.node _ hid
  isDefault_spare := by
    rintro u u' _ operand h (⟨rfl, rfl⟩ | ⟨hseen, rfl⟩)
    · rw [h.hidden, h.hidden']
    · have hnode := h.node operand (.inl hseen)
      rw [hseen.node_eq] at hnode
      generalize u.node? operand = n, u'.node? operand = n' at hnode
      cases hnode with
      | none => rfl
      | some hcouples =>
        cases hcouples with
        | other => exact Node.isDefault_renumber _
        | call => rfl
  push_default h := h.push rfl _ _
  insertCast operand target h hcall hn hop hkey ht := h.insertCast operand target hcall hn hop hkey ht
  get? h hid := h.get? _ hid
  put type h hid := h.put type hid

/-- Nothing has been recorded but for nodes outside. -/
theorem Types.start {m : OrderedMap NodeId DataType}
    (h : ∀ id, (m.get? id).isSome = true → d.Seen id) : d.Types m m := by
  have hnone : ∀ id, ¬ d.Seen id → m.get? id = none := fun id hid =>
    Option.not_isSome_iff_eq_none.mp fun hsome => hid (h id hsome)
  refine ⟨fun id hid => ?_, fun id hid => hnone id fun hseen => hseen.1.2 hid,
    fun id hid => hnone id fun hseen => hseen.2.2 hid⟩
  rcases hid with hid | hnew
  · rw [hid.node_eq]
  · have hmoved : (d.shift.node id).index = id.index + (d.other.size - d.before.size) :=
      Shift.apply_of_le hnew
    rw [hnone id fun hseen => Nat.not_lt.mpr hnew hseen.1.1, hnone _ fun hseen => ?_]
    have := hseen.2.1
    omega

variable {s : Session} {query : NodeId}

/-- Two sessions after validation of the statements. -/
structure Sessions (d : Hiding) (s s' : Session) : Prop where
  trees : d.Trees s.tree s'.tree
  types : d.Types s.types s'.types
  requests : s'.requests = s.requests
  rewritten : Tree.RewrittenFrom d.before s.tree

/-- A query outside is validated alike in both statements. -/
theorem endAlike (d : Hiding) (htree : s.tree = d.before) (hoperators : s.operators = d.operators)
    (hengine : s.engine = .implicitCasts) (htypes : ∀ id, (s.types.get? id).isSome = true → d.Seen id)
    (hseen : d.Seen query) (scope : ScopeId) :
    Checking.EndAlike d.Sessions Eq s { s with tree := d.other }
      (Session.validateQueryIn scope query) (Session.validateQueryIn scope query) := by
  obtain ⟨rank, hrank, hbound⟩ := d.differs.forest.closed.exists_rank d.differs.forest.acyclic
  have hstart : s.Couples (d.coupling rank hrank) d.before { s with tree := d.other } := by
    refine ⟨rfl, hoperators, hoperators, hengine, hengine, rfl, rfl, rfl, rfl, ?_, .start htypes, ?_⟩
    · exact htree ▸ .start d
    · have hclosed := d.differs.forest.closed
      exact ⟨⟨htree ▸ .refl _, htree ▸ hclosed⟩, htree ▸ .refl _ _⟩
  have hroom : (d.coupling rank hrank).HasRoom s.maxDepth query := by
    have hless : rank query < d.before.size := hbound query hseen.1.1
    refine ⟨hseen, ?_⟩
    rw [Session.maxDepth, htree]
    exact Nat.succ_le_succ hless
  have hend := (visitAt_couples (d.coupling rank hrank) (visitAt 0) s.maxDepth
    (d.other.size - d.before.size)).query scope query hstart hroom
  have hdepth : s.maxDepth + (d.other.size - d.before.size) =
      Session.maxDepth { s with tree := d.other } := by
    have := d.size_le
    unfold Session.maxDepth
    rw [htree]
    show d.before.size + 1 + (d.other.size - d.before.size) = d.other.size + 1
    omega
  rw [hdepth, ← visitAt_eq_over] at hend
  have hquery : Checking.EndAlike (Session.Couples (d.coupling rank hrank) d.before) Eq s
      { s with tree := d.other } (Session.validateQueryIn scope query)
      (Session.validateQueryIn scope query) := hend.of_apply rfl rfl
  exact hquery.imp fun h => ⟨h.trees, h.types, h.requests, h.rewrites.rewritten⟩

/-- The operands in the place of the keyword are still those that were written. -/
theorem Sessions.operand {s s' : Session} (h : d.Sessions s s') :
    (∃ current, s.tree.node? d.call = some (.call d.name current) ∧ current[d.index]? = some d.o) ∧
      ∃ current, s'.tree.node? d.call = some (.call d.name current) ∧ current[d.index]? = some d.o' := by
  obtain ⟨written, hcall, ho, -⟩ := d.differs.operand
  obtain ⟨hi, hwritten⟩ := List.getElem?_eq_some_iff.mp ho
  obtain ⟨current, hcurrent, hwraps⟩ := h.rewritten.call d.call d.name written hcall
  have hi' : d.index < current.length := hwraps.length_eq ▸ hi
  have hnode := h.trees.node d.call (.inl d.call_seen)
  rw [d.call_seen.node_eq, hcurrent] at hnode
  generalize s'.tree.node? d.call = n' at hnode ⊢
  cases hnode with
  | some hcouples =>
  cases hcouples with
  | other hother => cases hother
  | @call _ _ current' hlength hseen hspare =>
    have hi'' : d.index < current'.length := hlength ▸ hi'
    have hplace := hspare d.op d.lookup d.index _ _ (List.getElem?_eq_getElem hi')
      (List.getElem?_eq_getElem hi'') d.keyword
    have hwrap : Tree.Wraps d.before s.tree d.o current[d.index] := hwritten ▸ hwraps.get hi hi'
    rcases hplace with ⟨hsame, hsame'⟩ | ⟨hsame, -⟩
    · refine ⟨⟨current, hcurrent, ?_⟩, current', rfl, ?_⟩
      · rw [List.getElem?_eq_getElem hi', hsame]
      · rw [List.getElem?_eq_getElem hi'', hsame']
    -- Nothing outside is around the operand.
    · have heq := hwrap.eq_of_lt hsame.1.1
      exact absurd .refl (heq ▸ hsame.1.2)

end Hiding

/-- What stands as the operand `o` of a call has been left alone from `s` to `s'`: it is still the operand,
    and no type has been recorded for any node of it. -/
structure Session.LeavesOperand (s s' : Session) (call : NodeId) (name : String) (index : Nat)
    (o : NodeId) : Prop where
  operand : ∃ current, s'.tree.node? call = some (.call name current) ∧ current[index]? = some o
  types : ∀ id, Relation.ReflTransGen s.tree.Child o id → s'.types.get? id = none

/-- A validation comes to the same in `s` and with the other statement, and leaves the operand alone in
    both. -/
structure Validation.Ignores {α : Type} (x : Validation α) (s : Session) (other : Tree) (call : NodeId)
    (name : String) (index : Nat) (o o' : NodeId) : Prop where
  result : (x s).1 = (x { s with tree := other }).1
  requests : (x s).2.requests = (x { s with tree := other }).2.requests
  left : s.LeavesOperand (x s).2 call name index o
  left' : Session.LeavesOperand { s with tree := other } (x { s with tree := other }).2 call name index o'

/-- It does not matter which of the statements is the first one. -/
theorem Validation.Ignores.symm {α : Type} {x : Validation α} {s : Session} {other : Tree}
    {call o o' : NodeId} {name : String} {index : Nat}
    (h : x.Ignores { s with tree := other } s.tree call name index o' o) :
    x.Ignores s other call name index o o' :=
  ⟨h.result.symm, h.requests.symm, h.left', h.left⟩

/-- What stands in the place of a keyword of a call is not looked at: whatever else stands there, a query
    around the call has the same result. Of what stands there, no types may be recorded beforehand. -/
theorem keyword_not_looked_at {s : Session} {other : Tree} {call o o' query : NodeId} {name : String}
    {op : Operator} {index : Nat} (hengine : s.engine = .implicitCasts)
    (hdiffers : s.tree.DiffersUnder other call name index o o')
    (hop : s.operators.lookup? name = some op) (hkey : op.signature.isKeyword index = true)
    (ho : s.tree.node? o ≠ some .default) (ho' : other.node? o' ≠ some .default)
    (htypes : ∀ id, (s.types.get? id).isSome = true → s.tree.Outside o id ∧ other.Outside o' id)
    (hquery : Relation.ReflTransGen s.tree.Child query call)
    (hquery' : Relation.ReflTransGen other.Child query call) (scope : ScopeId) :
    (Session.validateQueryIn scope query).Ignores s other call name index o o' := by
  -- The statement with fewer nodes comes first.
  have hordered : ∀ (d : Hiding) (s : Session), s.tree = d.before → s.operators = d.operators →
      s.engine = .implicitCasts → (∀ id, (s.types.get? id).isSome = true → d.Seen id) → d.Seen query →
        (Session.validateQueryIn scope query).Ignores s d.other d.call d.name d.index d.o d.o' := by
    intro d s htree hoperators hengine htypes hseen
    have hend := d.endAlike htree hoperators hengine htypes hseen scope
    have hsessions := hend.rel
    exact ⟨hend.answer_eq.symm, hsessions.requests.symm,
      ⟨hsessions.operand.1, fun id hid => hsessions.types.hidden id (htree ▸ hid)⟩,
      ⟨hsessions.operand.2, hsessions.types.hidden'⟩⟩
  have hout := hdiffers.outside hquery
  have hout' := hdiffers.symm.outside hquery'
  rcases Nat.le_total s.tree.size other.size with hsize | hsize
  · exact hordered ⟨s.tree, other, s.operators, call, name, op, index, o, o', hdiffers, hop, hkey, ho, ho',
      hsize⟩ s rfl rfl hengine htypes ⟨hout, hout'⟩
  · refine Validation.Ignores.symm ?_
    exact hordered ⟨other, s.tree, s.operators, call, name, op, index, o', o, hdiffers.symm, hop, hkey, ho',
      ho, hsize⟩ { s with tree := other } rfl rfl hengine (fun id hid => (htypes id hid).symm)
      ⟨hout', hout⟩

/-- `SELECT DATEDIFF(.., '2024-01-01', '2024-02-01')`, with `unit` in the place of the keyword. -/
def differenceOfDates (unit : Node) : Tree :=
  ⟨#[⟨.literal (.integer 7), .synthetic⟩, ⟨unit, .synthetic⟩,
    ⟨.literal (.string "2024-01-01"), .synthetic⟩, ⟨.literal (.string "2024-02-01"), .synthetic⟩,
    ⟨.call "DATEDIFF" [⟨1⟩, ⟨2⟩, ⟨3⟩], .synthetic⟩,
    ⟨.select { items := [.expression ⟨4⟩ none], sources := [], condition := none }, .synthetic⟩]⟩

/-- The keyword `DAY`, and a call of a function that does not exist in its place. -/
theorem differsUnder_differenceOfDates :
    (differenceOfDates (.identifier ["DAY"])).DiffersUnder
      (differenceOfDates (.call "NO_SUCH_UNIT" [⟨0⟩])) ⟨4⟩ "DATEDIFF" 0 ⟨1⟩ ⟨1⟩ := by
  refine ⟨.of_ordered (by decide) (by decide) (by decide),
    .of_ordered (by decide) (by decide) (by decide), ⟨_, rfl, rfl, rfl⟩, fun ⟨id⟩ _ hid _ => ?_⟩
  match id with
  | 1 => exact absurd .refl hid
  | 0 | 2 | 3 | 4 | 5 | _ + 6 => rfl

/-- The call of the function that does not exist does no harm. -/
theorem keyword_not_looked_at_differenceOfDates :
    (Session.validateQueryIn ScopeTree.rootId ⟨5⟩).Ignores
      { tree := differenceOfDates (.identifier ["DAY"]) }
      (differenceOfDates (.call "NO_SUCH_UNIT" [⟨0⟩])) ⟨4⟩ "DATEDIFF" 0 ⟨1⟩ ⟨1⟩ := by
  have hquery : ∀ unit, Relation.ReflTransGen (differenceOfDates unit).Child ⟨5⟩ ⟨4⟩ := fun unit =>
    .single ⟨_, rfl, List.mem_singleton.mpr rfl⟩
  have htypes : ∀ id : NodeId, (({} : OrderedMap NodeId DataType).get? id).isSome = true →
      (differenceOfDates (.identifier ["DAY"])).Outside ⟨1⟩ id ∧
        (differenceOfDates (.call "NO_SUCH_UNIT" [⟨0⟩])).Outside ⟨1⟩ id := fun _ h =>
    absurd h Bool.false_ne_true
  exact keyword_not_looked_at rfl differsUnder_differenceOfDates rfl (by decide) (by decide)
    (by decide) htypes (hquery _) (hquery _) ScopeTree.rootId

end SqlTyping
