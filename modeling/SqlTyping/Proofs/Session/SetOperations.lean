import SqlTyping.Proofs.Session.ColumnNames
import SqlTyping.Proofs.Session.Recursion
import SqlTyping.Proofs.Session.Siblings
import SqlTyping.Proofs.Tree.Pruning

namespace SqlTyping

/-!
# Set operations on many queries

How set operations are put together does not matter for their type, only which queries they are on.

* `SetTree` — set operations on queries, in any shape, with the row types of the queries;
* `SetTree.evaluate` — the type of such a tree, made pair by pair as `unionRow` makes it;
* `SetTree.Combines`, `SetTree.FailsAt` — what it is and where it fails, said of all queries at once;
  `SetTree.outcome_evaluate` is that it is so, by induction on the tree, and by `SetTree.evaluate_unique`
  trees on the same row types have the same type;
* `SetTree.ValidInTurn` — the run of a validation comes to the row type of each query in its turn, so
  that it comes to the type of the tree (`SetTree.ValidInTurn.answer_eq`);
* `SetTree.ValidAlone` — each query of a tree is validated by itself, in a scope that is clear of the
  tree; then it is validated in turn too (`SetTree.ValidAlone.inTurn`), as no query is influenced by
  those before it;
* `SetTree.validation_combines` — what the validation of set operations comes to.
-/

/-- A column of a set operation may be null when it may be on either side. -/
theorem DataType.nullableAt_unionRow {operation : String} {left right result : DataType} {i : Nat}
    (h : unionRow operation left right = .ok result) :
    result.NullableAt i ↔ left.NullableAt i ∨ right.NullableAt i := by
  obtain ⟨houtline, hcount⟩ := outline_of_unionRow h
  have hlength : left.outline.length = right.outline.length := by
    simpa [outline, fieldCount] using hcount
  simp only [nullableAt_iff, houtline, Outline.union, List.getElem?_zipWith]
  by_cases hi : i < left.outline.length
  · rw [List.getElem?_eq_getElem hi, List.getElem?_eq_getElem (hlength ▸ hi)]
    simp [Prod.ext_iff]
  · rw [List.getElem?_eq_none (by omega), List.getElem?_eq_none (by omega)]
    simp

/-- Set operations on queries, each query with its row type. -/
inductive SetTree where
  | leaf (query : NodeId) (row : DataType)
  | node (id : NodeId) (operation : SetOperation) (left right : SetTree)

/-- A set operation of a tree with its two inputs. -/
structure SetTree.Step where
  operation : SetOperation
  left : SetTree
  right : SetTree

/-- What a set operation comes to, from what its inputs come to one after the other. -/
theorem answer_setOperation {v : Visit} {scope : ScopeId} {id : NodeId} {operation : SetOperation}
    {s t : Session} {left : Except Fault DataType}
    (hn : s.tree.node? id = some (.setOperation operation))
    (hleft : v.query scope operation.left s = (left, t)) :
    (queryStep v scope id s).1 =
      left >>= fun l => (v.query scope operation.right t).1 >>= unionRow operation.name l := by
  rw [answer_queryStep hn]
  show (setOperationRow v scope operation s).1 = _
  unfold setOperationRow
  rw [Checking.bind_apply, hleft]
  cases left with
  | error fault => rfl
  | ok l =>
    show ((v.query scope operation.right >>= fun right =>
      Checking.ofExcept (unionRow operation.name l right)) t).1 =
        (v.query scope operation.right t).1 >>= unionRow operation.name l
    rw [Checking.bind_apply]
    cases v.query scope operation.right t with
    | mk right t' => cases right <;> rfl

namespace SetTree

/-- The query at the root. -/
def root : SetTree → NodeId
  | leaf query _ => query
  | node id _ _ _ => id

/-- The queries with their row types, from left to right. -/
def leaves : SetTree → List (NodeId × DataType)
  | leaf query row => [(query, row)]
  | node _ _ left right => left.leaves ++ right.leaves

/-- The row types of the queries. -/
def rows (tree : SetTree) : List DataType := tree.leaves.map (·.2)

/-- The row type of the first query. -/
def first : SetTree → DataType
  | leaf _ row => row
  | node _ _ left _ => left.first

/-- The set operations in post-order: those of the left input, those of the right one, and then the
    operation itself. -/
def steps : SetTree → List Step
  | leaf .. => []
  | node _ operation left right => left.steps ++ right.steps ++ [⟨operation, left, right⟩]

/-- The tree is part of a statement. -/
def Written (t : Tree) : SetTree → Prop
  | leaf .. => True
  | node id operation left right =>
    t.node? id = some (.setOperation operation) ∧ operation.left = left.root ∧
      operation.right = right.root ∧ left.Written t ∧ right.Written t

/-- The type of the tree, made pair by pair. -/
def evaluate : SetTree → Except Fault DataType
  | leaf _ row => .ok row
  | node _ operation left right => do
    let l ← left.evaluate
    let r ← right.evaluate
    unionRow operation.name l r

/-- All queries have equally many columns. -/
def SameCounts (tree : SetTree) : Prop := ∀ row ∈ tree.rows, row.fieldCount = tree.first.fieldCount

instance (tree : SetTree) : Decidable tree.SameCounts :=
  inferInstanceAs (Decidable (∀ row ∈ tree.rows, _))

/-- The inputs have equally many columns. An input that comes to a row type has as many as its first
    query (`Combines.fieldCount`). -/
def Step.Agrees (step : Step) : Prop := step.left.first.fieldCount = step.right.first.fieldCount

/-- A row type has the columns of the first query, but for nullability; a column may be null when it
    may be in some query. -/
structure Combines (tree : SetTree) (row : DataType) : Prop where
  names : row.fieldNames = tree.first.fieldNames
  types : ∀ (i : Nat) (field : Field DataType), row.fields[i]? = some field →
    ∃ written, tree.first.fields[i]? = some written ∧
      field.type = written.type.withNullable field.type.nullable
  nullable : ∀ i, row.NullableAt i ↔ ∃ r ∈ tree.rows, r.NullableAt i

/-- A fault is about the first set operation, in post-order, on inputs with different numbers of
    columns. -/
def FailsAt (tree : SetTree) (fault : Fault) : Prop :=
  ∃ before step after, tree.steps = before ++ step :: after ∧ (∀ earlier ∈ before, earlier.Agrees) ∧
    ¬ step.Agrees ∧ fault = .setOperationMismatch step.operation.name

variable {tree left right : SetTree} {query id : NodeId} {row : DataType} {operation : SetOperation}

/-! ### Types of trees -/

@[simp] theorem rows_leaf : (leaf query row).rows = [row] := rfl

@[simp] theorem rows_node : (node id operation left right).rows = left.rows ++ right.rows :=
  List.map_append

/-- The row types begin with that of the first query. -/
theorem head?_rows (tree : SetTree) : tree.rows.head? = some tree.first := by
  induction tree with
  | leaf => rfl
  | node id operation left right ihl _ =>
    rw [rows_node, List.head?_append, ihl]
    rfl

theorem first_mem_rows (tree : SetTree) : tree.first ∈ tree.rows :=
  List.mem_of_mem_head? tree.head?_rows

/-- The first queries of the inputs are queries of the tree. -/
theorem first_mem_of_step {step : Step} (h : step ∈ tree.steps) :
    step.left.first ∈ tree.rows ∧ step.right.first ∈ tree.rows := by
  induction tree with
  | leaf => cases h
  | node id operation left right ihl ihr =>
    simp only [steps, List.mem_append, List.mem_singleton] at h
    simp only [rows_node, List.mem_append]
    rcases h with (hleft | hright) | rfl
    · exact ⟨.inl (ihl hleft).1, .inl (ihl hleft).2⟩
    · exact ⟨.inr (ihr hright).1, .inr (ihr hright).2⟩
    · exact ⟨.inl left.first_mem_rows, .inr right.first_mem_rows⟩

/-- Where all queries have equally many columns, so have the inputs of every set operation. -/
theorem SameCounts.agrees (h : tree.SameCounts) : ∀ step ∈ tree.steps, step.Agrees := fun _ hstep =>
  (h _ (first_mem_of_step hstep).1).trans (h _ (first_mem_of_step hstep).2).symm

/-- So nothing fails there. -/
theorem FailsAt.not_sameCounts {fault : Fault} (h : tree.FailsAt fault) : ¬ tree.SameCounts := by
  obtain ⟨before, step, after, hsteps, -, hnot, -⟩ := h
  exact fun hsame => hnot (hsame.agrees step (by rw [hsteps]; simp))

/-- A tree whose inputs have equally many columns throughout. -/
theorem SameCounts.node (hleft : left.SameCounts) (hright : right.SameCounts)
    (hcount : left.first.fieldCount = right.first.fieldCount) :
    (node id operation left right).SameCounts := by
  intro row hrow
  rw [rows_node] at hrow
  rcases List.mem_append.mp hrow with hrow | hrow
  · exact hleft row hrow
  · exact (hright row hrow).trans hcount.symm

/-- A failure in the left input is one of the tree. -/
theorem FailsAt.of_left {fault : Fault} (h : left.FailsAt fault) :
    (node id operation left right).FailsAt fault := by
  obtain ⟨before, step, after, hsteps, hbefore, hnot, hfault⟩ := h
  refine ⟨before, step, after ++ right.steps ++ [⟨operation, left, right⟩], ?_, hbefore, hnot, hfault⟩
  simp [steps, hsteps]

/-- So is one in the right input, if nothing fails in the left one. -/
theorem FailsAt.of_right {fault : Fault} (hleft : left.SameCounts) (h : right.FailsAt fault) :
    (node id operation left right).FailsAt fault := by
  obtain ⟨before, step, after, hsteps, hbefore, hnot, hfault⟩ := h
  refine ⟨left.steps ++ before, step, after ++ [⟨operation, left, right⟩], ?_, ?_, hnot, hfault⟩
  · simp [steps, hsteps]
  · intro earlier hearlier
    rcases List.mem_append.mp hearlier with hearlier | hearlier
    · exact hleft.agrees earlier hearlier
    · exact hbefore earlier hearlier

/-- Otherwise the set operation at the root may fail. -/
theorem FailsAt.of_root (hleft : left.SameCounts) (hright : right.SameCounts)
    (hcount : left.first.fieldCount ≠ right.first.fieldCount) :
    (node id operation left right).FailsAt (.setOperationMismatch operation.name) := by
  refine ⟨left.steps ++ right.steps, ⟨operation, left, right⟩, [], rfl, ?_, hcount, rfl⟩
  intro earlier hearlier
  rcases List.mem_append.mp hearlier with hearlier | hearlier
  · exact hleft.agrees earlier hearlier
  · exact hright.agrees earlier hearlier

theorem Combines.fieldCount (h : tree.Combines row) :
    row.fieldCount = tree.first.fieldCount := by
  have hlength := congrArg List.length h.names
  simpa [DataType.fieldNames, DataType.fieldCount] using hlength

/-- The union of two combined row types is one for the whole tree. -/
theorem Combines.union {l r : DataType} (hl : left.Combines l) (hr : right.Combines r)
    (h : unionRow operation.name l r = .ok row) : (node id operation left right).Combines row := by
  obtain ⟨hnames, hcolumns⟩ := DataType.columns_of_unionRow h
  refine ⟨hnames.trans hl.names, fun i field hfield => ?_, fun i => ?_⟩
  · obtain ⟨fl, fr, hfl, -, htype⟩ := hcolumns i field hfield
    obtain ⟨written, hwritten, hsame⟩ := hl.types i fl hfl
    refine ⟨written, hwritten, ?_⟩
    rw [htype, DataType.orNullable, hsame]
    rfl
  · rw [DataType.nullableAt_unionRow h, hl.nullable, hr.nullable]
    simp [or_and_right, exists_or]

/-- What the type of a tree is: it combines those of the queries when they have equally many columns,
    and otherwise it fails at the first set operation that it can. -/
theorem outcome_evaluate (tree : SetTree) :
    (tree.SameCounts ∧ ∃ row, tree.evaluate = .ok row ∧ tree.Combines row) ∨
      ∃ fault, tree.evaluate = .error fault ∧ tree.FailsAt fault := by
  induction tree with
  | leaf query row =>
    refine .inl ⟨?_, row, rfl, rfl, fun i field hfield => ⟨field, hfield, ?_⟩, fun i => ?_⟩
    · simp [SameCounts, first]
    · exact (DataType.withNullable_self _).symm
    · simp
  | node id operation left right ihl ihr =>
    rcases ihl with ⟨hleft, l, hl, hcl⟩ | ⟨fault, hfault, hfails⟩
    · rcases ihr with ⟨hright, r, hr, hcr⟩ | ⟨fault, hfault, hfails⟩
      · have hunion : (node id operation left right).evaluate = unionRow operation.name l r := by
          rw [evaluate, hl, hr]
          rfl
        rw [hunion]
        by_cases hcount : left.first.fieldCount = right.first.fieldCount
        · have hsame : l.fieldCount = r.fieldCount := by
            rw [hcl.fieldCount, hcr.fieldCount, hcount]
          have hok : unionRow operation.name l r = .ok _ := if_pos hsame
          exact .inl ⟨hleft.node hright hcount, _, hok, hcl.union hcr hok⟩
        · have hdiffer : l.fieldCount ≠ r.fieldCount := by
            rw [hcl.fieldCount, hcr.fieldCount]
            exact hcount
          exact .inr ⟨_, if_neg hdiffer, .of_root hleft hright hcount⟩
      · refine .inr ⟨fault, ?_, hfails.of_right hleft⟩
        rw [evaluate, hl, hfault]
        rfl
    · refine .inr ⟨fault, ?_, hfails.of_left⟩
      rw [evaluate, hfault]
      rfl

/-- Only one list of columns combines those of the queries. -/
theorem Combines.columns_unique {a b : SetTree} {xs ys : Columns} (hrows : a.rows = b.rows)
    (hx : a.Combines (.row xs)) (hy : b.Combines (.row ys)) : xs = ys := by
  have hfirst : a.first = b.first :=
    Option.some.inj (by rw [← head?_rows, ← head?_rows, hrows])
  have hnames : xs.map (·.1) = ys.map (·.1) := by
    have h := hx.names.trans ((congrArg DataType.fieldNames hfirst).trans hy.names.symm)
    simpa [DataType.fieldNames, DataType.row] using h
  have hlength : xs.length = ys.length := by simpa using congrArg List.length hnames
  have hcolumn : ∀ (cs : Columns) i (hi : i < cs.length),
      (DataType.row cs).fields[i]? = some ⟨cs[i].1, i, cs[i].2⟩ := fun cs i hi => by
    rw [DataType.row, DataType.getElem?_numbered, List.getElem?_eq_getElem hi]
    simp
  refine List.ext_getElem hlength fun i hi hi' => ?_
  obtain ⟨w, hw, htype⟩ := hx.types i _ (hcolumn xs i hi)
  obtain ⟨w', hw', htype'⟩ := hy.types i _ (hcolumn ys i hi')
  rw [hfirst, hw'] at hw
  obtain rfl := Option.some.inj hw
  have hname : xs[i].1 = ys[i].1 := by
    simpa [hi, hi'] using congrArg (·[i]?) hnames
  have hnull : xs[i].2.nullable = ys[i].2.nullable := by
    have h := (hx.nullable i).trans (hrows ▸ (hy.nullable i).symm)
    rw [Bool.eq_iff_iff]
    simpa [DataType.NullableAt, hcolumn xs i hi, hcolumn ys i hi'] using h
  have htype : xs[i].2 = w'.type.withNullable xs[i].2.nullable := htype
  have htype' : ys[i].2 = w'.type.withNullable ys[i].2.nullable := htype'
  exact Prod.ext hname (by rw [htype, htype', hnull])

/-- What a tree comes to combines its queries. -/
theorem combines_of_evaluate (h : tree.evaluate = .ok row) : tree.Combines row := by
  rcases tree.outcome_evaluate with ⟨-, row', hrow, hcombines⟩ | ⟨fault, hfault, -⟩
  · exact Except.ok.inj (hrow.symm.trans h) ▸ hcombines
  · cases hfault.symm.trans h

theorem columns_of_evaluate_node (h : (node id operation left right).evaluate = .ok row) :
    ∃ columns, row = .row columns := by
  rw [evaluate] at h
  cases hl : left.evaluate with
  | error fault =>
    rw [hl] at h
    cases h
  | ok l =>
    cases hr : right.evaluate with
    | error fault =>
      rw [hl, hr] at h
      cases h
    | ok r =>
      rw [hl, hr] at h
      have h : unionRow operation.name l r = .ok row := h
      unfold unionRow at h
      split at h
      · exact ⟨_, (Except.ok.inj h).symm⟩
      · cases h

/-- A set operation has at least two queries. -/
theorem rows_node_ne (row : DataType) : (node id operation left right).rows ≠ [row] := by
  intro h
  have hlength := congrArg List.length h
  have hleft := List.length_pos_of_mem left.first_mem_rows
  have hright := List.length_pos_of_mem right.first_mem_rows
  simp only [rows_node, List.length_append, List.length_singleton] at hlength
  omega

/-- How the set operations are put together makes no difference to the type. -/
theorem evaluate_unique {a b : SetTree} {x y : DataType} (hrows : a.rows = b.rows)
    (hx : a.evaluate = .ok x) (hy : b.evaluate = .ok y) : x = y := by
  cases a with
  | leaf query row =>
    cases b with
    | leaf query' row' =>
      obtain rfl : row = row' := by simpa using hrows
      exact Except.ok.inj (hx.symm.trans hy)
    | node => exact absurd hrows.symm (rows_node_ne row)
  | node =>
    cases b with
    | leaf query' row' => exact absurd hrows (rows_node_ne row')
    | node =>
      obtain ⟨xs, rfl⟩ := columns_of_evaluate_node hx
      obtain ⟨ys, rfl⟩ := columns_of_evaluate_node hy
      rw [(combines_of_evaluate hx).columns_unique hrows (combines_of_evaluate hy)]

/-! ### Runs -/

/-- In a run to some depth every query of the tree comes to its row type when its turn comes. -/
inductive ValidInTurn (scope : ScopeId) : Nat → SetTree → Session → Prop
  | leaf {depth query row s} (h : ((visitAt depth).query scope query s).1 = .ok row) :
    ValidInTurn scope depth (.leaf query row) s
  | node {depth id operation left right s} (hleft : ValidInTurn scope depth left s)
    (hright : ∀ l t, (visitAt depth).query scope left.root s = (.ok l, t) →
      ValidInTurn scope depth right t) :
    ValidInTurn scope (depth + 1) (.node id operation left right) s

/-- Validation leaves set operations as they are. -/
theorem Written.retains {t t' : Tree} (h : tree.Written t) (hr : t.Retains t') : tree.Written t' := by
  induction tree with
  | leaf => trivial
  | node id operation left right ihl ihr =>
    obtain ⟨hn, hleft, hright, hwl, hwr⟩ := h
    obtain ⟨node, hn', hsame⟩ := hr id _ hn
    cases hsame
    exact ⟨hn', hleft, hright, ihl hwl, ihr hwr⟩

/-- A run that comes to the row types of the queries comes to the type of the tree. -/
theorem ValidInTurn.answer_eq {scope : ScopeId} {depth : Nat} {s : Session}
    (h : tree.ValidInTurn scope depth s) (hwritten : tree.Written s.tree) :
    ((visitAt depth).query scope tree.root s).1 = tree.evaluate := by
  induction h with
  | leaf h => exact h
  | @node depth id operation left right s hleft hright ihl ihr =>
    obtain ⟨hn, hl, hr, hwl, hwr⟩ := hwritten
    have hfirst := ihl hwl
    cases hrun : (visitAt depth).query scope left.root s with
    | mk answer t =>
      rw [hrun] at hfirst
      show (queryStep (visitAt depth) scope id s).1 = _
      rw [answer_setOperation hn (hl ▸ hrun), hr, evaluate, ← hfirst]
      cases answer with
      | error fault => rfl
      | ok l =>
        have hkept : s.tree.Retains t.tree := by
          have h := (visitAt_retains s.tree depth).query scope left.root s (.refl _)
          rwa [hrun] at h
        show ((visitAt depth).query scope right.root t).1 >>= unionRow operation.name l = _
        rw [ihr l t hrun (hwr.retains hkept)]
        rfl

end SetTree

/-! ### Queries validated alone -/

namespace Session

variable {s t : Session} {scope : ScopeId} {all own own' other : NodeId → Prop}

/-- A smaller part is beside the others as well. -/
theorem Beside.mono {seen : ScopeId → Prop} (h : s.Beside t seen own other)
    (hown : s.tree.IsClosed own') (hsub : ∀ id, own' id → own id) : s.Beside t seen own' other :=
  { h with isClosed := hown, apart := fun id hid => h.apart id (hsub id hid) }

namespace ClearOf

variable (h : s.ClearOf scope all)

include h

/-- At first nothing has been validated. -/
theorem beside_self (hown : s.tree.IsClosed own) :
    s.Beside s (· ∈ s.scopes.chain scope) own fun _ => False :=
  h.beside hown (fun _ _ => not_false) (fun _ hno => hno.elim)
    (.refl h.grounded.continues h.grounded.owned) (.refl _) fun _ _ _ _ _ _ _ he => he

/-- When a query of one part has been validated too, what is left is beside that part as well. -/
theorem next (hbeside : s.Beside t (· ∈ s.scopes.chain scope) own other)
    (hall : ∀ id, own id ∨ other id → all id) (hown : s.tree.IsClosed own')
    (hapart : ∀ id, own' id → ¬ own id ∧ ¬ other id) {query : NodeId} (hquery : own query)
    (depth : Nat) :
    s.Beside ((visitAt depth).query scope query t).2 (· ∈ s.scopes.chain scope) own' fun id =>
      own id ∨ other id := by
  have hc := hbeside.confined
  have hlt : scope.index < t.scopes.size := Nat.lt_of_lt_of_le h.lt_size hc.scopes.size_le
  have hgoes := ((visitAt_confined h.grounded.closed hbeside.isClosed.lt_size
    hbeside.isClosed.child depth).query
      ⟨.refl hc.continues.rewrites, .refl hc.continues hc.owned⟩ hquery hlt).rel
  have happends : t.Appends ((visitAt depth).query scope query t).2 :=
    (t.visitAt_appends depth).query scope query t (.refl t)
  refine h.beside hown (fun id hid hboth => ?_) hall
    ((hc.mono (fun _ => .inr) fun _ => .inr).trans (hgoes.2.mono (fun _ => .inl) fun _ => .inl))
    (hbeside.grows.trans hgoes.1.sources) fun id hmem around haround b hb e he => ?_
  · exact hboth.elim (hapart id hid).1 (hapart id hid).2
  · obtain ⟨e', he', hthere⟩ := hbeside.bound id around b hmem haround hb
    obtain rfl := Option.some.inj (he.symm.trans he')
    refine happends.kept hgoes.2 hc.owned (fun item ho => ?_) hthere
    rw [hc.selfView item (hbeside.apart item ho)]
    exact h.bound id hmem around haround b hb item (hall item (.inl ho))

/-- A query comes to the same beside the others, to any depths that are enough. -/
theorem query_eq {rank : NodeId → Nat} {query : NodeId} {depth depth' : Nat}
    (hbeside : s.Beside t (· ∈ s.scopes.chain scope) own other)
    (hacyclic : ∀ id, own id → ¬ Relation.TransGen s.tree.Child id id)
    (hrank : ∀ p c, own p → s.tree.Child p c → rank c < rank p) (hquery : own query)
    (hdepth : rank query + 2 ≤ depth) (hdepth' : rank query + 2 ≤ depth') :
    ((visitAt depth).query scope query t).1 = ((visitAt depth').query scope query s).1 := by
  have hseen : scope ∈ s.scopes.chain scope := s.scopes.self_mem_chain scope
  have hleast : Tree.HasRoom own rank (rank query + 2) query := ⟨hquery, Nat.le_refl _⟩
  obtain ⟨more, rfl⟩ := Nat.exists_eq_add_of_le hdepth
  obtain ⟨more', rfl⟩ := Nat.exists_eq_add_of_le hdepth'
  have hself := h.beside_self hbeside.isClosed
  rw [hbeside.query_eq hacyclic hrank hseen hleast more,
    hself.query_eq hacyclic hrank hseen hleast more']

end ClearOf

/-- From the top of a statement nothing is seen that changes. -/
theorem Reached.clearOf {settings : Settings} {tree : Tree} {operators : OperatorTable}
    {engine : CoercionEngine} (h : Reached { settings, tree, operators, engine } s)
    (hclosed : tree.NoDangling) (own : NodeId → Prop) : s.ClearOf ScopeTree.rootId own := by
  have hs := h.grounded hclosed
  obtain ⟨root, hroot, hrole, hparent, htables⟩ := hs.root
  have hchain := ScopeTree.chain_of_root hroot hparent
  refine ⟨hs, h.linked hclosed, hs.root_lt, fun id hmem around haround => ?_,
    fun id hmem around haround b hb item _ hview => ?_⟩
  · rw [hchain] at hmem
    obtain rfl := List.mem_singleton.mp hmem
    obtain rfl := Option.some.inj (hroot.symm.trans haround)
    rw [hrole]
    trivial
  -- Names are bound to tables there.
  · rw [hchain] at hmem
    obtain rfl := List.mem_singleton.mp hmem
    obtain rfl := Option.some.inj (hroot.symm.trans haround)
    obtain ⟨e, he, hnode⟩ := htables b hb
    obtain ⟨e', he', hitem⟩ := hs.owned.selfView item b.source hview
    obtain rfl := Option.some.inj (he.symm.trans he')
    cases hnode.symm.trans hitem

end Session

namespace SetTree

variable {tree : SetTree} {s t : Session} {scope : ScopeId}

/-- The tree is written without sharing nodes, and each of its queries by itself is validated to its row
    type, in a scope that is clear of the tree. -/
structure ValidAlone (scope : ScopeId) (s : Session) (tree : SetTree) : Prop where
  isTree : s.tree.IsTreeAt tree.root
  clear : s.ClearOf scope (s.Reach tree.root)
  leaf : ∀ leaf ∈ tree.leaves, (Session.validateQueryIn scope leaf.1 s).1 = .ok leaf.2

section

variable {top : NodeId} {rank : NodeId → Nat} {other : NodeId → Prop} {depth : Nat}
  (htree : s.tree.IsTreeAt top) (hclear : s.ClearOf scope (s.Reach top))
  (hclosed : s.tree.IsClosed (s.Reach top))
  (hrank : ∀ p c, s.Reach top p → s.tree.Child p c → rank c < rank p)
  (hbound : ∀ id, s.Reach top id → rank id < s.tree.size)

include htree hclear hclosed hrank hbound

/-- No query is influenced by those before it, so the queries below `top` are valid in turn when they are
    valid by themselves. -/
theorem validInTurn_of_beside (hwritten : tree.Written s.tree) (hbelow : s.Reach top tree.root)
    (hleaf : ∀ leaf ∈ tree.leaves, (Session.validateQueryIn scope leaf.1 s).1 = .ok leaf.2)
    (hother : ∀ id, other id → s.Reach top id)
    (hbeside : s.Beside t (· ∈ s.scopes.chain scope) (s.Reach tree.root) other)
    (hroom : rank tree.root + 2 ≤ depth) : tree.ValidInTurn scope depth t := by
  induction tree generalizing t other depth with
  | leaf query row =>
    have hmax : rank query + 2 ≤ s.maxDepth := Nat.succ_le_succ (hbound query hbelow)
    have hsame := hclear.query_eq hbeside (fun id hid => htree.acyclic id (hbelow.trans hid))
      (fun p c hp => hrank p c (hbelow.trans hp)) .refl hroom hmax
    exact .leaf (hsame.trans (hleaf (query, row) (List.mem_singleton_self _)))
  | node id operation left right ihl ihr =>
    obtain ⟨hn, hl, hr, hwl, hwr⟩ := hwritten
    have hcl : s.tree.Child id left.root := ⟨_, hn, by simp [Node.children, hl]⟩
    have hcr : s.tree.Child id right.root := ⟨_, hn, by simp [Node.children, hr]⟩
    have hne : left.root ≠ right.root := by
      have hnodup := htree.nodup id _ hbelow hn
      simpa [Node.children, hl, hr] using hnodup
    have hless := hrank _ _ hbelow hcl
    have hless' := hrank _ _ hbelow hcr
    obtain ⟨depth, rfl⟩ : ∃ d, depth = d + 1 := ⟨depth - 1, by omega⟩
    have hroom : rank id + 2 ≤ depth + 1 := hroom
    have hinner : ∀ x, s.Reach left.root x ∨ other x → s.Reach top x := fun x hx =>
      hx.elim (hbelow.tail hcl).trans (hother x)
    have hfirst := hbeside.mono (hclosed.reach (hbelow.tail hcl)) fun x hx => .head hcl hx
    have hapart : ∀ x, s.Reach right.root x → ¬ s.Reach left.root x ∧ ¬ other x := fun x hx =>
      ⟨fun hx' => htree.siblings_apart hclosed hbelow hcl hcr hne hx' hx,
        hbeside.apart x (.head hcr hx)⟩
    refine .node ?_ fun l u hrun => ?_
    · exact ihl hwl (hbelow.tail hcl) (fun leaf hmem => hleaf leaf (List.mem_append_left _ hmem))
        hother hfirst (by omega)
    · have hsecond := hclear.next hfirst hinner (hclosed.reach (hbelow.tail hcr)) hapart .refl depth
      rw [hrun] at hsecond
      exact ihr hwr (hbelow.tail hcr) (fun leaf hmem => hleaf leaf (List.mem_append_right _ hmem))
        hinner hsecond (by omega)

end

/-- A tree whose queries are valid by themselves is valid in turn. -/
theorem ValidAlone.inTurn (h : tree.ValidAlone scope s) (hwritten : tree.Written s.tree) :
    tree.ValidInTurn scope s.maxDepth s := by
  cases tree with
  | leaf query row => exact .leaf (h.leaf (query, row) (List.mem_singleton_self _))
  | node id operation left right =>
    have hclosed := h.clear.grounded.closed.isClosed_reach (Tree.lt_size_of_node? hwritten.1)
    obtain ⟨rank, hrank, hbound⟩ := hclosed.exists_rank h.isTree.acyclic
    exact validInTurn_of_beside h.isTree h.clear hclosed hrank hbound hwritten .refl h.leaf
      (fun _ hno => hno.elim) (h.clear.beside_self hclosed) (Nat.succ_le_succ (hbound id .refl))

/-- Set operations on queries, in whatever shape, come to a row type exactly when all queries have equally
    many columns. Then it has the columns of the first query, and a column may be null when it may be in
    some query. Otherwise the fault is about the first set operation, in post-order, on inputs with
    different numbers of columns. The queries are valid as the run gets to them, or else each by itself. -/
theorem validation_combines (hwritten : tree.Written s.tree)
    (hvalid : tree.ValidInTurn scope s.maxDepth s ∨ tree.ValidAlone scope s) :
    let answer := (Session.validateQueryIn scope tree.root s).1
    ((∃ row, answer = .ok row) ↔ tree.SameCounts) ∧ (∀ row, answer = .ok row → tree.Combines row) ∧
      ∀ fault, answer = .error fault → tree.FailsAt fault := by
  intro answer
  have hturn : tree.ValidInTurn scope s.maxDepth s := hvalid.elim id fun h => h.inTurn hwritten
  have hanswer : answer = tree.evaluate := hturn.answer_eq hwritten
  rw [hanswer]
  rcases tree.outcome_evaluate with ⟨hsame, row, hrow, hcombines⟩ | ⟨fault, hfault, hfails⟩
  · rw [hrow]
    exact ⟨⟨fun _ => hsame, fun _ => ⟨row, rfl⟩⟩, fun _ h => Except.ok.inj h ▸ hcombines, nofun⟩
  · rw [hfault]
    exact ⟨⟨nofun, fun hsame => absurd hsame hfails.not_sameCounts⟩, nofun,
      fun _ h => Except.error.inj h ▸ hfails⟩

/-- The statement `((SELECT 1 AS A UNION SELECT NULL AS B) EXCEPT SELECT 2 AS C) UNION ALL
    (SELECT 3 AS D, 4 AS E INTERSECT SELECT 5 AS F)`. -/
def mixedOperations : Session where
  tree := ⟨#[⟨.literal (.integer 1), ⟨0, 0⟩⟩, ⟨.literal .null, ⟨0, 0⟩⟩, ⟨.literal (.integer 2), ⟨0, 0⟩⟩,
    ⟨.literal (.integer 3), ⟨0, 0⟩⟩, ⟨.literal (.integer 4), ⟨0, 0⟩⟩, ⟨.literal (.integer 5), ⟨0, 0⟩⟩,
    ⟨.select ⟨[.expression ⟨0⟩ (some "A")], [], none⟩, ⟨0, 0⟩⟩,
    ⟨.select ⟨[.expression ⟨1⟩ (some "B")], [], none⟩, ⟨0, 0⟩⟩,
    ⟨.setOperation ⟨.union, false, ⟨6⟩, ⟨7⟩⟩, ⟨0, 0⟩⟩,
    ⟨.select ⟨[.expression ⟨2⟩ (some "C")], [], none⟩, ⟨0, 0⟩⟩,
    ⟨.setOperation ⟨.except, false, ⟨8⟩, ⟨9⟩⟩, ⟨0, 0⟩⟩,
    ⟨.select ⟨[.expression ⟨3⟩ (some "D"), .expression ⟨4⟩ (some "E")], [], none⟩, ⟨0, 0⟩⟩,
    ⟨.select ⟨[.expression ⟨5⟩ (some "F")], [], none⟩, ⟨0, 0⟩⟩,
    ⟨.setOperation ⟨.intersect, false, ⟨11⟩, ⟨12⟩⟩, ⟨0, 0⟩⟩,
    ⟨.setOperation ⟨.union, true, ⟨10⟩, ⟨13⟩⟩, ⟨0, 0⟩⟩]⟩

/-- Its left input. -/
def threeQueries : SetTree :=
  .node ⟨10⟩ ⟨.except, false, ⟨8⟩, ⟨9⟩⟩
    (.node ⟨8⟩ ⟨.union, false, ⟨6⟩, ⟨7⟩⟩ (.leaf ⟨6⟩ (.row [("A", .notNull .integer)]))
      (.leaf ⟨7⟩ (.row [("B", .orNull .null)])))
    (.leaf ⟨9⟩ (.row [("C", .notNull .integer)]))

/-- All of it. -/
def fiveQueries : SetTree :=
  .node ⟨14⟩ ⟨.union, true, ⟨10⟩, ⟨13⟩⟩ threeQueries
    (.node ⟨13⟩ ⟨.intersect, false, ⟨11⟩, ⟨12⟩⟩
      (.leaf ⟨11⟩ (.row [("D", .notNull .integer), ("E", .notNull .integer)]))
      (.leaf ⟨12⟩ (.row [("F", .notNull .integer)])))

/-- The left input has the column of its first query, which may be null by the second one. In the whole the
    INTERSECT fails, and not the UNION ALL, although it comes first in the text. -/
theorem validation_combines_mixed :
    threeQueries.ValidAlone ScopeTree.rootId mixedOperations ∧
      (∃ row, (Session.validateQuery ⟨10⟩ mixedOperations).1 = .ok row ∧ row.fieldNames = ["A"] ∧
        row.NullableAt 0) ∧
      fiveQueries.ValidAlone ScopeTree.rootId mixedOperations ∧
      (Session.validateQuery ⟨14⟩ mixedOperations).1 = .error (.setOperationMismatch "INTERSECT") ∧
        fiveQueries.FailsAt (.setOperationMismatch "INTERSECT") := by
  have hforest : mixedOperations.tree.IsForest := .of_ordered (by decide) (by decide) (by decide)
  have hclear : ∀ own, mixedOperations.ClearOf ScopeTree.rootId own := fun own =>
    Session.Reached.clearOf (s := mixedOperations) .start hforest.closed own
  have hthree : threeQueries.ValidAlone ScopeTree.rootId mixedOperations :=
    ⟨hforest.isTreeAt _, hclear _, by decide +kernel⟩
  have hfive : fiveQueries.ValidAlone ScopeTree.rootId mixedOperations :=
    ⟨hforest.isTreeAt _, hclear _, by decide +kernel⟩
  have hfault : (Session.validateQuery ⟨14⟩ mixedOperations).1 =
      .error (.setOperationMismatch "INTERSECT") := by decide +kernel
  have hwritten : threeQueries.Written mixedOperations.tree :=
    ⟨rfl, rfl, rfl, ⟨rfl, rfl, rfl, trivial, trivial⟩, trivial⟩
  have hwritten' : fiveQueries.Written mixedOperations.tree :=
    ⟨rfl, rfl, rfl, hwritten, ⟨rfl, rfl, rfl, trivial, trivial⟩⟩
  obtain ⟨hok, hcombines, -⟩ := validation_combines hwritten (.inr hthree)
  obtain ⟨-, -, hfails⟩ := validation_combines hwritten' (.inr hfive)
  obtain ⟨row, hrow⟩ := hok.mpr (by decide)
  have hnull : ∃ r ∈ threeQueries.rows, r.NullableAt 0 :=
    ⟨.row [("B", .orNull .null)], by decide, _, rfl, rfl⟩
  exact ⟨hthree, ⟨row, hrow, (hcombines row hrow).names, ((hcombines row hrow).nullable 0).mpr hnull⟩,
    hfive, hfault, hfails _ hfault⟩

end SetTree

end SqlTyping
