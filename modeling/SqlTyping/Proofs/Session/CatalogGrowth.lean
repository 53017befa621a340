import SqlTyping.Proofs.Session.Finding
import SqlTyping.Proofs.Session.Independence

namespace SqlTyping

/-!
# Further tables in the catalog

A table that is added to the catalog behind the others is found only for names for which nothing was
found before. A query that has been accepted has found every table that it asked for, and a column is
never taken from the catalog. So the query is accepted in the same way after tables have been added,
whatever their names:

* `Session.growth` — how what validation adds is numbered when there is one more table;
* `Session.Grounded.mirrors_addTable` — the session with the table mirrors the one without it;
* `Session.Reached.accepted_of_addTable` — a query that is accepted stays accepted.
-/

/-- One more table is numbered before the row sources that validation adds. -/
def Session.growth (s : Session) (names : List String) : Renumbering where
  nodes := ⟨s.tree.size, 0⟩
  scopes := .kept s.scopes.size s.scopes.size (fun i => i = ScopeTree.rootId.index ∧ i < s.scopes.size)
    fun h => ⟨h.2, h.2⟩
  sources := .kept s.sources.size (s.sources.size + 1) (· < s.sources.size)
    fun h => ⟨h, Nat.lt_succ_of_lt h⟩
  items _ := True
  more := [⟨names, s.sources.nextId, false⟩]

namespace Session.Grounded

variable {s t : Session} {names : List String} {row : DataType} {id : SourceId}
  {own : NodeId → Prop}

theorem growth_source_eq {source : SourceId} (h : source.index < s.sources.size) :
    (s.growth names).sources.source source = source := congrArg SourceId.mk (if_pos h)

theorem growth_scope_eq (scope : ScopeId) : (s.growth names).scopes.scope scope = scope := by
  refine congrArg ScopeId.mk ?_
  show (if scope.index < s.scopes.size then scope.index
    else s.scopes.size + (scope.index - s.scopes.size)) = scope.index
  split
  · rfl
  · omega

/-- Nodes are added under the same numbers. -/
theorem growth_renumber_eq : Node.renumber (s.growth names).nodes.node = fun n => n :=
  funext fun _ => Node.renumber_eq_self fun c _ => Shift.node_of_distance_zero rfl c

/-- Sources that are there have the same numbers. -/
theorem mirrors_registerTable (h : s.Grounded) : RowSources.Mirrors (s.growth names).sources
    (s.growth names).items s.sources (s.sources.registerTable names row).2 := by
  have hkept : ∀ {known : Option SourceId} {node : NodeId},
      (∀ id, known = some id → ∃ e, s.sources.get? id = some e ∧ e.node = some node) →
        known = known.map (s.growth names).sources.source ∧
          ∀ id, known = some id → s.sources.Holds (s.growth names).sources id := by
    intro known node hknown
    cases known with
    | none => exact ⟨rfl, nofun⟩
    | some id =>
      obtain ⟨e, he, -⟩ := hknown id rfl
      have hlt : id.index < s.sources.size := (Array.getElem?_eq_some_iff.mp he).1
      refine ⟨congrArg some (growth_source_eq hlt).symm, fun other hother => ?_⟩
      obtain rfl := Option.some.inj hother
      exact ⟨.inl hlt, hlt⟩
  refine ⟨Nat.le_refl _, ?_, fun id hid => ?_, fun node _ => hkept (h.owned.item node),
    fun node _ => hkept (h.owned.selfView node)⟩
  · show (s.sources.registerTable names row).2.size + s.sources.size =
      s.sources.size + (s.sources.size + 1)
    rw [Nat.add_comm]
    exact congrArg _ (RowSources.size_push s.sources _)
  · rw [growth_source_eq hid.lt_size]
    have he : s.sources.get? id = some _ := Array.getElem?_eq_getElem hid.lt_size
    exact ⟨_, _, he, RowSources.Grows.get?_push_of_some he _, rfl, rfl⟩

/-- As far as a part of the statement is concerned, the session with one more table mirrors the one
    without it. -/
theorem mirrors_addTable (h : s.Grounded) (hown : s.tree.IsClosed own)
    (hadd : s.addTable names row = .ok (id, t)) : Session.Mirrors (s.growth names) own s t := by
  have ht := h.addTable hadd
  obtain ⟨scopes, hbound, rfl⟩ := Session.addTable_eq_ok hadd
  obtain ⟨scope, hscope, hrole, hparent, htables⟩ := h.root
  have hsame : ∀ id, (s.growth names).nodes.node id = id := Shift.node_of_distance_zero rfl
  have hroot : ∀ id around, s.scopes.Visible (s.growth names).scopes id →
      s.scopes.get? id = some around → id = ScopeTree.rootId ∧ around = scope := by
    intro id around hvisible haround
    have hindex := hvisible.known.resolve_right (Nat.not_le.mpr hvisible.lt_size)
    obtain rfl : id = ScopeTree.rootId := congrArg ScopeId.mk hindex.1
    exact ⟨rfl, Option.some.inj (haround.symm.trans hscope)⟩
  have hholds : ∀ b ∈ scope.bindings, s.sources.Holds (s.growth names).sources b.source := by
    intro b hb
    obtain ⟨e, he, -⟩ := htables b hb
    have hlt : b.source.index < s.sources.size := (Array.getElem?_eq_some_iff.mp he).1
    exact ⟨.inl hlt, hlt⟩
  refine ⟨rfl, rfl, rfl, .refl hown, fun id _ => by rw [hsame], h.mirrors_registerTable,
    ⟨Nat.le_refl _, ?_, h.nested, ht.nested, fun id around hvisible haround => ?_,
      fun id around hvisible haround => ?_, fun id around b hvisible haround hb => ?_⟩⟩
  · show scopes.size + s.scopes.size = s.scopes.size + s.scopes.size
    rw [ScopeTree.size_addBinding hbound]
  · obtain ⟨rfl, rfl⟩ := hroot id around hvisible haround
    rw [growth_scope_eq]
    have hafter : scopes.get? ScopeTree.rootId = some { around with
        bindings := around.bindings ++ [⟨names, s.sources.nextId, false⟩] } := by
      rw [ScopeTree.get?_addBinding hbound, if_pos rfl, hscope]
      rfl
    refine ⟨_, hafter, rfl, .root h.root_lt hrole hparent hparent ?_⟩
    rw [Binding.map_renumber_eq fun b hb => growth_source_eq (hholds b hb).lt_size]
    rfl
  · obtain ⟨-, rfl⟩ := hroot id around hvisible haround
    rw [hrole]
    trivial
  · obtain ⟨-, rfl⟩ := hroot id around hvisible haround
    exact hholds b hb

/-- The catalog provides its tables. -/
theorem provides (h : s.Grounded) : s.Provides s.naming ScopeTree.rootId [] where
  matching := rfl
  offers names hnames := by
    obtain ⟨scope, hscope, -⟩ := h.root
    obtain ⟨b, hb, hleads⟩ := hnames
    refine .binding hscope ?_ hleads
    have hb : b ∈ ((s.scopes.get? ScopeTree.rootId).map (·.bindings)).getD [] := hb
    rwa [hscope] at hb

/-- And it provides nothing else. -/
theorem providesOnly (h : s.Grounded) : s.ProvidesOnly s.naming ScopeTree.rootId [] := by
  obtain ⟨scope, hscope, hrole, hparent, -⟩ := h.root
  refine ⟨h.nested, ⟨scope, hscope⟩, fun names hnames => ?_⟩
  cases hnames with
  | item hs hshown =>
    obtain rfl := Option.some.inj (hscope.symm.trans hs)
    rw [hrole] at hshown
    rcases hshown with hshown | hshown
    · cases hshown
    · cases hshown
  | @binding _ _ b hs hb hleads =>
    refine ⟨b, ?_, hleads⟩
    show b ∈ ((s.scopes.get? ScopeTree.rootId).map (·.bindings)).getD []
    rwa [hs]
  | around hs hparent' =>
    obtain rfl := Option.some.inj (hscope.symm.trans hs)
    rw [hparent] at hparent'
    cases hparent'

end Session.Grounded

/-- A query that is accepted stays accepted when a table is added to the catalog, whatever its names
    and its row type: the row type of the query is the same, and so is every node of the statement
    afterwards. Whatever has been asked for before, and however it ended, does not matter. -/
theorem Session.Reached.accepted_of_addTable {settings : Settings} {tree : Tree}
    {operators : OperatorTable} {s t : Session} {query : NodeId} {names : List String}
    {table row : DataType} {id : SourceId}
    (h : Session.Reached { settings, tree, operators } s) (hclosed : tree.NoDangling)
    (hquery : query.index < s.tree.size)
    (hacyclic : ∀ id, Relation.ReflTransGen s.tree.Child query id →
      ¬ Relation.TransGen s.tree.Child id id)
    (hadd : s.addTable names table = .ok (id, t))
    (hok : (Session.validateQuery query s).1 = .ok row) :
    (Session.validateQuery query t).1 = .ok row ∧
      ∀ id, (Session.validateQuery query t).2.tree.node? id =
        (Session.validateQuery query s).2.tree.node? id := by
  have hs := h.grounded hclosed
  have ht := hs.addTable hadd
  have hown := hs.closed.isClosed_reach hquery
  obtain ⟨rank, hrank, hbound⟩ := hown.exists_rank hacyclic
  let own := Relation.ReflTransGen s.tree.Child query
  have hm : Session.Mirrors (s.growth names) own s t := hs.mirrors_addTable hown hadd
  have hsuits : (s.growth names).Suits s.tree own rank :=
    ⟨rfl, fun _ _ => trivial, hs.closed, hown, hacyclic, hrank⟩
  -- What has been accepted has found its tables.
  have hresolved : s.naming.Resolved s.operators [] query := by
    refine (visitAt_finds hs.closed hown hacyclic s.maxDepth).query ?_ hs.providesOnly .refl
      (Prod.ext hok rfl)
    exact ⟨.refl hs.continues.rewrites, .refl hs.continues hs.owned⟩
  have hfinds : (s.growth names).FindsBelow s.naming s ScopeTree.rootId query :=
    .inr ⟨(h.setUpAs hclosed).engine, [], hs.provides, hresolved⟩
  have hroom : Tree.HasRoom own rank s.maxDepth query := ⟨.refl, Nat.succ_le_succ (hbound query .refl)⟩
  have hend := (visitAt_mirrors hsuits s.maxDepth 0).query ⟨.refl hs.continues.rewrites, hs.owned⟩ hm
    hroom ⟨.inl ⟨rfl, hs.root_lt⟩, hs.root_lt⟩ hfinds
  rw [Session.Grounded.growth_scope_eq] at hend
  have htree : t.tree = s.tree := by
    obtain ⟨_, -, rfl⟩ := Session.addTable_eq_ok hadd
    rfl
  have hdepth : t.maxDepth = s.maxDepth := congrArg (·.size + 1) htree
  have hrun : Session.validateQuery query t =
      (visitAt s.maxDepth).query ScopeTree.rootId query t := by rw [← hdepth]; rfl
  rw [hrun]
  refine ⟨hend.answer_eq.trans hok, fun id => ?_⟩
  by_cases hid : own id ∨ s.tree.size ≤ id.index
  · have hnode := hend.rel.tree.node? id hid
    rw [Shift.node_of_distance_zero rfl, Session.Grounded.growth_renumber_eq, Option.map_id'] at hnode
    exact hnode
  -- Other nodes of the statement are not touched in either session.
  · obtain ⟨hnot, hlt⟩ := not_or.mp hid
    have hlt : id.index < s.tree.size := Nat.lt_of_not_le hlt
    have hquiet : s.Confined own own s (Session.validateQuery query s).2 := confined_query hs.closed
      hown.lt_size hown.child hs.continues hs.owned .refl hs.root_lt
    have hquiet' : t.Confined own own t ((visitAt s.maxDepth).query ScopeTree.rootId query t).2 :=
      confined_query ht.closed (htree ▸ hown.lt_size) (htree ▸ hown.child) ht.continues ht.owned .refl
        ht.root_lt
    rw [hquiet'.node? id (htree ▸ hlt) hnot, hquiet.node? id hlt hnot, htree]

/-- `SELECT UPPER(A) FROM T`. -/
def Tree.upperFromTable : Tree :=
  (((({} : Tree).push (.identifier ["A"])).push (.call "UPPER" [⟨0⟩])).push (.tableRef ["T"] none)).push
    (.select { items := [.expression ⟨1⟩ none], sources := [⟨2⟩], condition := none })

/-- Names are compared without regard to case, so a second table `t` has the same name as `T`, but
    comes behind it. The query gets its row type and its cast of `A` all the same. -/
theorem Session.Reached.accepted_of_addTable_upperFromTable :
    let start : Session := { settings := { caseSensitive := false }, tree := .upperFromTable }
    let s := ((Session.Request.addTable ["T"] (.row [("A", .notNull .integer)])).perform start).2
    let t := ((Session.Request.addTable ["t"] (.row [("B", .notNull .boolean)])).perform s).2
    (Session.validateQuery ⟨3⟩ s).1 = .ok (.row [("EXPR$0", .notNull .varchar)]) ∧
      (Session.validateQuery ⟨3⟩ s).2.tree.node? ⟨1⟩ = some (.call "UPPER" [⟨4⟩]) ∧
      (Session.validateQuery ⟨3⟩ t).1 = .ok (.row [("EXPR$0", .notNull .varchar)]) ∧
      (Session.validateQuery ⟨3⟩ t).2.tree.node? ⟨1⟩ = some (.call "UPPER" [⟨4⟩]) := by
  intro start s t
  have hforest : Tree.upperFromTable.IsForest := .of_ordered (by decide) (by decide) (by decide)
  have hreached : Session.Reached start s := .request .start trivial
  have htree : s.tree = .upperFromTable := by decide +kernel
  have hadd : s.addTable ["t"] (.row [("B", .notNull .boolean)]) = .ok (⟨1⟩, t) := by rfl
  have hrow : (Session.validateQuery ⟨3⟩ s).1 = .ok (.row [("EXPR$0", .notNull .varchar)]) := by
    decide +kernel
  have hcall : (Session.validateQuery ⟨3⟩ s).2.tree.node? ⟨1⟩ = some (.call "UPPER" [⟨4⟩]) := by
    decide +kernel
  obtain ⟨hanswer, hnodes⟩ := Session.Reached.accepted_of_addTable hreached hforest.closed
    (show (⟨3⟩ : NodeId).index < s.tree.size by rw [htree]; decide)
    (fun id _ => htree ▸ hforest.acyclic id) hadd hrow
  exact ⟨hrow, hcall, hanswer, (hnodes ⟨1⟩).trans hcall⟩

end SqlTyping
