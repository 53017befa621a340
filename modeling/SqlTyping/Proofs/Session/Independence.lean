import SqlTyping.Proofs.Session.Confinement
import SqlTyping.Proofs.Session.ExpressionMirroring
import SqlTyping.Proofs.Session.Requests

namespace SqlTyping

/-!
# Independent queries

Two queries of a session that have no node in common do not influence each other. What validating
the first one leaves behind, with a result or without, is not looked at by the second one; it only
makes that what the second one adds gets later numbers.

* `Session.Grounded` — what holds of a session between two requests;
* `Session.Reached.grounded` — requests keep it, whether they succeed or fail;
* `Session.Beside` — a session has gone on with something else than a part;
* `Session.Beside.mirrors` — as far as the part is concerned, it mirrors the session before;
* `Session.Reached.independent` — so the second query comes to the same.
-/

/-- Between two requests no node is missing in the statement, types belong to its nodes, what is
    registered for nodes is their own, and the catalog has tables only. -/
structure Session.Grounded (s : Session) : Prop where
  closed : s.tree.NoDangling
  recorded : ∀ id, (s.types.get? id).isSome = true → id.index < s.tree.size
  owned : s.sources.Owned
  nested : s.scopes.Nested
  root : ∃ scope, s.scopes.get? ScopeTree.rootId = some scope ∧ scope.role = .catalog ∧
    scope.parent = none ∧ ∀ b ∈ scope.bindings, ∃ e, s.sources.get? b.source = some e ∧ e.node = none

/-- Nodes that are not there have no types. -/
theorem Session.Continues.types_eq_none {b s : Session} (hs : b.Continues s) {id : NodeId}
    (hge : s.tree.size ≤ id.index) : s.types.get? id = none := by
  rw [← Option.not_isSome_iff_eq_none]
  exact fun hsome => Nat.not_lt.mpr hge (hs.recorded id hsome)

/-- What a session with one more table is. -/
theorem Session.addTable_eq_ok {s s' : Session} {names : List String} {row : DataType}
    {id : SourceId} (h : s.addTable names row = .ok (id, s')) :
    ∃ scopes, s.scopes.addBinding ScopeTree.rootId ⟨names, s.sources.nextId, false⟩ = .ok scopes ∧
      s' = { s with sources := (s.sources.registerTable names row).2, scopes } := by
  unfold Session.addTable at h
  simp only [RowSources.registerTable] at h
  split at h
  · cases h
  · rename_i scopes hbound
    cases h
    exact ⟨scopes, hbound, rfl⟩

namespace Session.Grounded

variable {s s' : Session}

theorem start (settings : Settings) {tree : Tree} (operators : OperatorTable)
    (engine : CoercionEngine) (hclosed : tree.NoDangling) :
    Session.Grounded { settings, tree, operators, engine } where
  closed := hclosed
  recorded _ hid := by cases hid
  owned := ⟨nofun, nofun⟩
  nested := ScopeTree.Built.root.nested
  root := ⟨.root, rfl, rfl, rfl, fun _ hb => by cases hb⟩

/-- The catalog is there. -/
theorem root_lt (h : s.Grounded) : ScopeTree.rootId.index < s.scopes.size := by
  obtain ⟨scope, hscope, -⟩ := h.root
  exact (Array.getElem?_eq_some_iff.mp hscope).1

/-- What can be validated from here goes on from here. -/
theorem continues (h : s.Grounded) : s.Continues s := .refl h.closed h.recorded

theorem addTable {names : List String} {row : DataType} {id : SourceId} (h : s.Grounded)
    (hadd : s.addTable names row = .ok (id, s')) : s'.Grounded := by
  obtain ⟨scopes, hbound, rfl⟩ := Session.addTable_eq_ok hadd
  obtain ⟨scope, hscope, hrole, hparent, htables⟩ := h.root
  refine ⟨h.closed, h.recorded, h.owned.of_grows (.registerTable s.sources names row) rfl rfl,
    h.nested.addBinding hbound, { scope with
      bindings := scope.bindings ++ [⟨names, s.sources.nextId, false⟩] }, ?_, hrole, hparent,
    fun b hb => ?_⟩
  · rw [ScopeTree.get?_addBinding hbound, if_pos rfl, hscope]
    rfl
  · rcases List.mem_append.mp hb with hb | hb
    · obtain ⟨e, he, hnode⟩ := htables b hb
      exact ⟨e, RowSources.Grows.get?_push_of_some he _, hnode⟩
    · obtain rfl := List.mem_singleton.mp hb
      exact ⟨_, (RowSources.get?_push _ _ _).trans (if_pos rfl), rfl⟩

/-- Validation, of whatever it be, leaves the catalog alone. -/
theorem of_confined {own : NodeId → Prop} (h : s.Grounded) (hconfined : s.Confined own own s s') :
    s'.Grounded where
  closed := hconfined.continues.rewrites.closed
  recorded := hconfined.continues.recorded
  owned := hconfined.owned
  nested := hconfined.nested h.nested
  root := by
    obtain ⟨scope, hscope, hrole, hparent, htables⟩ := h.root
    refine ⟨scope, hconfined.scopes _ _ hscope, hrole, hparent, fun b hb => ?_⟩
    obtain ⟨e, he, hnode⟩ := htables b hb
    exact ⟨e, hconfined.table he hnode, hnode⟩

end Session.Grounded

/-- What comes of a check does not depend on what is made of its result. -/
theorem Checking.snd_bind_pure {σ α β : Type} (x : Checking σ α) (b : β) (s : σ) :
    ((x >>= fun _ => pure b) s).2 = (x s).2 := by
  rw [bind_apply]
  cases x s with
  | mk r s' => cases r <;> rfl

/-- A request adds a table, or it keeps what validation of the statement keeps. -/
theorem Session.Grounded.perform_upholds {s : Session} (h : s.Grounded) {base : Nat}
    {G : Session → Prop} (hupholds : Session.Upholds s.tree (fun _ => s.tree.Has) base G) (hG : G s)
    {r : Session.Request} (hr : r.Refers s) :
    (∃ names row id, s.addTable names row = .ok (id, (r.perform s).2)) ∨ G (r.perform s).2 := by
  have hs : Session.Goes s.tree G s s := ⟨.refl h.continues.rewrites, hG⟩
  have hguarded := visitAt_guarded hupholds Session.allows_all s.maxDepth
  cases r with
  | addTable names row =>
    simp only [Session.Request.perform]
    cases hadd : s.addTable names row with
    | error e => exact .inr hG
    | ok found => exact .inl ⟨names, row, found.1, hadd⟩
  | validateQuery query =>
    unfold Session.Request.perform
    rw [Checking.snd_bind_pure]
    exact .inr (hguarded.query hs hr h.root_lt).rel.2
  | deriveType scope expression =>
    unfold Session.Request.perform
    rw [Checking.snd_bind_pure]
    exact .inr (hguarded.expression hs (.inl ⟨expression, hr.2, .self⟩) hr.1).rel.2

/-- A request adds a table, or it is confined to the nodes of the statement. -/
theorem Session.Grounded.perform_cases {s : Session} (h : s.Grounded) {r : Session.Request}
    (hr : r.Refers s) : (∃ names row id, s.addTable names row = .ok (id, (r.perform s).2)) ∨
      s.Confined s.tree.Has s.tree.Has s (r.perform s).2 :=
  h.perform_upholds (Session.Confined.upholds h.closed (fun _ ha => ha) h.closed.isClosed.child)
    (.refl h.continues h.owned) hr

section

variable {settings : Settings} {tree : Tree} {operators : OperatorTable} {engine : CoercionEngine}
  {s : Session} (h : Session.Reached { settings, tree, operators, engine } s)
  (hclosed : tree.NoDangling)

include h hclosed

/-- However requests end, they leave a session in which more can be asked for. -/
theorem Session.Reached.grounded : s.Grounded := by
  induction h with
  | start => exact .start settings operators engine hclosed
  | request _ hr ih =>
    rcases ih.perform_cases hr with ⟨names, row, id, hadd⟩ | hconfined
    · exact ih.addTable hadd
    · exact ih.of_confined hconfined

/-- Requests do not change with what a session validates. -/
theorem Session.Reached.setUpAs : Session.SetUpAs { settings, tree, operators, engine } s := by
  induction h with
  | start => exact .refl _
  | request hreached hr ih =>
    rcases (hreached.grounded hclosed).perform_cases hr with ⟨names, row, id, hadd⟩ | hconfined
    · obtain ⟨scopes, -, heq⟩ := Session.addTable_eq_ok hadd
      rw [heq]
      exact ih.trans ⟨rfl, rfl, rfl⟩
    · have hs := hconfined.continues
      exact ih.trans ⟨hs.settings, hs.operators, hs.engine⟩

end

/-! ### Another part -/

/-- From `s` the session has gone on to `s'` with nodes `other`, none of which belongs to the part
    `own`. Of the scopes that were there, `seen` can be seen from where the part is validated: they show no
    item of `other`, and bind names to row sources that have not changed. -/
structure Session.Beside (s s' : Session) (seen : ScopeId → Prop) (own other : NodeId → Prop) :
    Prop where
  grounded : s.Grounded
  isClosed : s.tree.IsClosed own
  apart : ∀ id, own id → ¬ other id
  confined : s.Confined other other s s'
  grows : s.sources.Grows s'.sources
  there : ∀ id, seen id → id.index < s.scopes.size
  parent : ∀ id scope parent, seen id → s.scopes.get? id = some scope → scope.parent = some parent →
    seen parent
  rooted : ∀ id scope, seen id → s.scopes.get? id = some scope → scope.parent = none →
    scope.role = .catalog
  shown : ∀ id scope, seen id → s.scopes.get? id = some scope →
    scope.role.ShowsOnly fun item => ¬ other item
  bound : ∀ id scope b, seen id → s.scopes.get? id = some scope → b ∈ scope.bindings →
    ∃ e, s.sources.get? b.source = some e ∧ s'.sources.get? b.source = some e

namespace Session.Beside

variable {s s' : Session} {seen : ScopeId → Prop} {own other : NodeId → Prop}
  (h : s.Beside s' seen own other)

include h

/-- How the numbers of what is added for the part move. The scopes that are seen stay, and so do the
    sources that have not changed. -/
def renumbering : Renumbering where
  nodes := ⟨s.tree.size, s'.tree.size - s.tree.size⟩
  scopes := .kept s.scopes.size s'.scopes.size (fun i => seen ⟨i⟩) fun hseen =>
    ⟨h.there _ hseen, Nat.lt_of_lt_of_le (h.there _ hseen) h.confined.scopes.size_le⟩
  sources := .kept s.sources.size s'.sources.size (fun i => ∃ e, s.sources.get? ⟨i⟩ = some e ∧
      s'.sources.get? ⟨i⟩ = some e) fun hknown => by
    obtain ⟨e, he, -⟩ := hknown
    have hlt := (Array.getElem?_eq_some_iff.mp he).1
    exact ⟨hlt, Nat.lt_of_lt_of_le hlt h.grows.size_le⟩
  items id := ¬ other id
  more := []

/-- Scopes and sources that were there before keep their numbers. -/
theorem scope_eq {id : ScopeId} (hlt : id.index < s.scopes.size) :
    h.renumbering.scopes.scope id = id := congrArg ScopeId.mk (if_pos hlt)

theorem source_eq {id : SourceId} (hlt : id.index < s.sources.size) :
    h.renumbering.sources.source id = id := congrArg SourceId.mk (if_pos hlt)

/-- A source that has not changed stands for itself. -/
theorem holds {id : SourceId} {e : RowSource} (he : s.sources.get? id = some e)
    (he' : s'.sources.get? id = some e) : s.sources.Holds h.renumbering.sources id :=
  ⟨.inl ⟨e, he, he'⟩, (Array.getElem?_eq_some_iff.mp he).1⟩

theorem mirrors_tree : Tree.Mirrors h.renumbering.nodes own s.tree s'.tree :=
  .of_kept h.isClosed h.confined.added.size_le fun id hid =>
    h.confined.node? id (h.isClosed.lt_size id hid) (h.apart id hid)

theorem mirrors_sources :
    RowSources.Mirrors h.renumbering.sources (fun id => ¬ other id) s.sources s'.sources := by
  -- What is registered for a node is its own, so it has not changed for a node that was left alone.
  have hkept : ∀ {id : SourceId} {node : NodeId}, ¬ other node →
      (∃ e, s.sources.get? id = some e ∧ e.node = some node) →
        s.sources.Holds h.renumbering.sources id := by
    rintro id node hnode ⟨e, he, henode⟩
    refine h.holds he (h.confined.sources id e he fun node' hnode' => ?_)
    rw [henode] at hnode'
    exact Option.some.inj hnode' ▸ hnode
  have hsame : ∀ {known : Option SourceId}, (∀ id, known = some id →
      s.sources.Holds h.renumbering.sources id) →
        known = known.map h.renumbering.sources.source := fun hknown =>
    (Pairing.map_source_eq fun id hid => h.source_eq (hknown id hid).lt_size).symm
  have hitem := fun node hnode id hid => hkept hnode (h.grounded.owned.item node id hid)
  have hview := fun node hnode id hid => hkept hnode (h.grounded.owned.selfView node id hid)
  refine ⟨Nat.le_refl _, Nat.add_comm _ _, fun id hid => ?_,
    fun node hnode => ⟨?_, hitem node hnode⟩, fun node hnode => ⟨?_, hview node hnode⟩⟩
  · rw [h.source_eq hid.lt_size]
    obtain ⟨e, he, he'⟩ := hid.known.resolve_right (Nat.not_le.mpr hid.lt_size)
    exact ⟨e, e, he, he', rfl, rfl⟩
  · rw [h.confined.item node hnode]
    exact hsame (hitem node hnode)
  · rw [h.confined.selfView node hnode]
    exact hsame (hview node hnode)

theorem mirrors_scopes : ScopeTree.Mirrors h.renumbering s.sources s.scopes s'.scopes := by
  -- No scope has been added to `s` yet, so only those that were there are seen.
  have hold : ∀ id, s.scopes.Visible h.renumbering.scopes id → seen id := fun id hvisible =>
    hvisible.known.resolve_right (Nat.not_le.mpr hvisible.lt_size)
  refine ⟨Nat.le_refl _, Nat.add_comm _ _, h.grounded.nested, h.confined.nested h.grounded.nested,
    fun id scope hvisible hscope => ?_, fun id scope hvisible hscope =>
      h.shown id scope (hold id hvisible) hscope, fun id scope b hvisible hscope hb => ?_⟩
  · have hbindings : scope.bindings.map (Binding.renumber h.renumbering) = scope.bindings :=
      Binding.map_renumber_eq fun b hb => by
        obtain ⟨e, he, -⟩ := h.bound id scope b (hold id hvisible) hscope hb
        exact h.source_eq (Array.getElem?_eq_some_iff.mp he).1
    rw [h.scope_eq hvisible.lt_size]
    refine ⟨scope, h.confined.scopes _ _ hscope, rfl, ?_⟩
    cases hparent : scope.parent with
    | none =>
      refine .root hvisible.lt_size (h.rooted id scope (hold id hvisible) hscope hparent) hparent hparent
        ?_
      rw [hbindings]
      exact (List.append_nil _).symm
    | some parent =>
      have hseen := h.parent id scope parent (hold id hvisible) hscope hparent
      have hlt := h.there parent hseen
      refine .inner (.inl hparent) ⟨.inl hseen, hlt⟩ ?_ hbindings.symm
      rw [h.scope_eq hlt]
      exact hparent
  · obtain ⟨e, he, he'⟩ := h.bound id scope b (hold id hvisible) hscope hb
    exact h.holds he he'

/-- As far as the part is concerned, the session mirrors the one before. -/
theorem mirrors : Session.Mirrors h.renumbering own s s' where
  settings := h.confined.continues.settings
  operators := h.confined.continues.operators
  engine := h.confined.continues.engine
  tree := h.mirrors_tree
  types id hid := by
    rcases hid with hid | hnew
    · have hlt := h.isClosed.lt_size id hid
      have hsame : h.renumbering.nodes.node id = id := Shift.node_of_lt hlt
      rw [hsame]
      exact h.confined.types id id hlt (h.apart id hid) .self
    -- Nodes that are not there have no types.
    · have hmoved : (h.renumbering.nodes.node id).index =
          id.index + (s'.tree.size - s.tree.size) := Shift.apply_of_le hnew
      have hge : s.tree.size ≤ id.index := hnew
      have hsize := h.confined.added.size_le
      rw [h.grounded.continues.types_eq_none hge, h.confined.continues.types_eq_none (by omega)]
  sources := h.mirrors_sources
  scopes := h.mirrors_scopes

/-- The part is in place when no node of it lies below itself. -/
theorem suits {rank : NodeId → Nat} (hacyclic : ∀ id, own id → ¬ Relation.TransGen s.tree.Child id id)
    (hrank : ∀ p c, own p → s.tree.Child p c → rank c < rank p) :
    h.renumbering.Suits s.tree own rank :=
  ⟨rfl, h.apart, h.grounded.closed, h.isClosed, hacyclic, hrank⟩

/-- A query of the part comes to what it comes to in the session before, also with more depth. -/
theorem query_eq {rank : NodeId → Nat} {scope : ScopeId} {query : NodeId} {depth : Nat}
    (hacyclic : ∀ id, own id → ¬ Relation.TransGen s.tree.Child id id)
    (hrank : ∀ p c, own p → s.tree.Child p c → rank c < rank p) (hscope : seen scope)
    (hroom : Tree.HasRoom own rank depth query) (more : Nat) :
    ((visitAt (depth + more)).query scope query s').1 = ((visitAt depth).query scope query s).1 := by
  have hρ := h.suits hacyclic hrank
  have hlt := h.there scope hscope
  have hvisible : s.scopes.Visible h.renumbering.scopes scope := ⟨.inl hscope, hlt⟩
  have hend := (visitAt_mirrors (N := ⟨s.tree, [], s.settings.matching⟩) hρ depth more).query
    ⟨.refl h.grounded.continues.rewrites, h.grounded.owned⟩ h.mirrors hroom hvisible (.inl rfl)
  rw [h.scope_eq hlt] at hend
  exact hend.answer_eq

end Session.Beside

/-- From the top of a statement only the catalog is seen. -/
theorem Session.Grounded.beside {s s' : Session} {own other : NodeId → Prop} (h : s.Grounded)
    (hown : s.tree.IsClosed own) (hapart : ∀ id, own id → ¬ other id)
    (hconfined : s.Confined other other s s') (hgrows : s.sources.Grows s'.sources) :
    s.Beside s' (· = ScopeTree.rootId) own other := by
  obtain ⟨root, hroot, hrole, hparent, htables⟩ := h.root
  refine ⟨h, hown, hapart, hconfined, hgrows, ?_, ?_, ?_, ?_, ?_⟩
  · rintro id rfl
    exact h.root_lt
  · rintro id scope parent rfl hscope hsome
    obtain rfl := Option.some.inj (hroot.symm.trans hscope)
    cases hparent.symm.trans hsome
  · rintro id scope rfl hscope -
    obtain rfl := Option.some.inj (hroot.symm.trans hscope)
    exact hrole
  · rintro id scope rfl hscope
    obtain rfl := Option.some.inj (hroot.symm.trans hscope)
    rw [hrole]
    trivial
  · rintro id scope b rfl hscope hb
    obtain rfl := Option.some.inj (hroot.symm.trans hscope)
    obtain ⟨e, he, hnode⟩ := htables b hb
    exact ⟨e, he, hconfined.table he hnode⟩

/-! ### The second query -/

/-- What comes of a query does not depend on whether another one, with no node in common, has been
    validated before, and how that ended: it has the same row type, or stops with the same fault, and
    every node below it, or that it adds, ends up the same. The nodes that it adds have later numbers
    when others have been added before, and references to them are numbered so too. Below the query no
    node lies below itself, as validation would have no end there. -/
theorem Session.Reached.independent {settings : Settings} {tree : Tree} {operators : OperatorTable}
    {engine : CoercionEngine} {s : Session} {first second : NodeId}
    (h : Session.Reached { settings, tree, operators, engine } s) (hclosed : tree.NoDangling)
    (hfirst : first.index < s.tree.size) (hsecond : second.index < s.tree.size)
    (hapart : ∀ id, Relation.ReflTransGen s.tree.Child second id →
      ¬ Relation.ReflTransGen s.tree.Child first id)
    (hacyclic : ∀ id, Relation.ReflTransGen s.tree.Child second id →
      ¬ Relation.TransGen s.tree.Child id id) :
    let s' := (Session.validateQuery first s).2
    let later : Shift := ⟨s.tree.size, s'.tree.size - s.tree.size⟩
    (Session.validateQuery second s').1 = (Session.validateQuery second s).1 ∧
    ∀ id, Relation.ReflTransGen s.tree.Child second id ∨ s.tree.size ≤ id.index →
      (Session.validateQuery second s').2.tree.node? (later.node id) =
        ((Session.validateQuery second s).2.tree.node? id).map (Node.renumber later.node) := by
  intro s' later
  have hs := h.grounded hclosed
  have hown := hs.closed.isClosed_reach hsecond
  obtain ⟨rank, hrank, hbound⟩ := hown.exists_rank hacyclic
  -- The first query is confined to its own part.
  have hother := hs.closed.isClosed_reach hfirst
  have hrun := (visitAt_confined hs.closed hother.lt_size hother.child s.maxDepth).query
    ⟨.refl hs.continues.rewrites, .refl hs.continues hs.owned⟩
    Relation.ReflTransGen.refl hs.root_lt
  have hgoes : Session.Goes s.tree (s.Confined _ _ s) s s' := hrun.rel
  have hbeside := hs.beside hown hapart hgoes.2 hgoes.1.sources
  -- The second query has more depth left in the larger statement.
  have hρ := hbeside.suits hacyclic hrank
  have hdepth : s'.maxDepth = s.maxDepth + (s'.tree.size - s.tree.size) := by
    have hsize := hgoes.2.added.size_le
    unfold Session.maxDepth
    omega
  have hroom : Tree.HasRoom (Relation.ReflTransGen s.tree.Child second) rank s.maxDepth second :=
    ⟨.refl, Nat.succ_le_succ (hbound second .refl)⟩
  have hend := (visitAt_mirrors (N := ⟨s.tree, [], s.settings.matching⟩) hρ s.maxDepth
    (s'.tree.size - s.tree.size)).query ⟨.refl hs.continues.rewrites, hs.owned⟩ hbeside.mirrors hroom
      (show s.scopes.Visible hbeside.renumbering.scopes ScopeTree.rootId from ⟨.inl rfl, hs.root_lt⟩)
      (.inl rfl)
  rw [hbeside.scope_eq hs.root_lt, ← hdepth] at hend
  exact ⟨hend.answer_eq, hend.rel.tree.node?⟩

/-- `SELECT UPPER(1), B`, which is refused after a cast has been added, and `SELECT UPPER(2)`. -/
def Tree.twoQueries : Tree :=
  ((((((({} : Tree).push (.literal (.integer 1))).push (.call "UPPER" [⟨0⟩])).push
    (.identifier ["B"])).push
    (.select { items := [.expression ⟨1⟩ none, .expression ⟨2⟩ none], sources := [], condition := none
      })).push (.literal (.integer 2))).push (.call "UPPER" [⟨4⟩])).push
    (.select { items := [.expression ⟨5⟩ none], sources := [], condition := none })

/-- The second query gets its cast as node 8 instead of node 7, and the same row type. -/
theorem Session.Reached.independent_twoQueries :
    let s : Session := { tree := .twoQueries }
    let s' := (Session.validateQuery ⟨3⟩ s).2
    (Session.validateQuery ⟨3⟩ s).1 = .error (.columnNotFound "B") ∧
      (Session.validateQuery ⟨6⟩ s).1 = .ok (.row [("EXPR$0", .notNull .varchar)]) ∧
      (Session.validateQuery ⟨6⟩ s').1 = .ok (.row [("EXPR$0", .notNull .varchar)]) ∧
      (Session.validateQuery ⟨6⟩ s).2.tree.node? ⟨5⟩ = some (.call "UPPER" [⟨7⟩]) ∧
      (Session.validateQuery ⟨6⟩ s').2.tree.node? ⟨5⟩ = some (.call "UPPER" [⟨8⟩]) := by
  intro s s'
  have hforest : Tree.twoQueries.IsForest := .of_ordered (by decide) (by decide) (by decide)
  -- The nodes of the first query have numbers up to 3, those of the second one later numbers.
  have hfirst : ∀ id, Relation.ReflTransGen s.tree.Child ⟨3⟩ id → id.index ≤ 3 := by
    have hstep : ∀ p c, s.tree.Child p c → p.index ≤ 3 → c.index ≤ 3 := fun _ _ =>
      Tree.Child.of_entries (R := fun p c => p ≤ 3 → c ≤ 3) (by decide)
    intro id h
    induction h with
    | refl => exact Nat.le_refl 3
    | tail _ hc ih => exact hstep _ _ hc ih
  have hsecond : ∀ id, Relation.ReflTransGen s.tree.Child ⟨6⟩ id → 4 ≤ id.index := by
    have hstep : ∀ p c, s.tree.Child p c → 4 ≤ p.index → 4 ≤ c.index := fun _ _ =>
      Tree.Child.of_entries (R := fun p c => 4 ≤ p → 4 ≤ c) (by decide)
    intro id h
    induction h with
    | refl => exact Nat.le_add_left 4 2
    | tail _ hc ih => exact hstep _ _ hc ih
  have hreached : Session.Reached s s := .start
  obtain ⟨hanswer, hnodes⟩ := Session.Reached.independent hreached hforest.closed
    (show (⟨3⟩ : NodeId).index < s.tree.size by decide)
    (show (⟨6⟩ : NodeId).index < s.tree.size by decide)
    (fun id h2 h1 => absurd (hfirst id h1) (Nat.not_le_of_lt (hsecond id h2)))
    fun id _ => hforest.acyclic id
  have hrow : (Session.validateQuery ⟨6⟩ s).1 = .ok (.row [("EXPR$0", .notNull .varchar)]) := by
    decide +kernel
  have hcall : (Session.validateQuery ⟨6⟩ s).2.tree.node? ⟨5⟩ = some (.call "UPPER" [⟨7⟩]) := by
    decide +kernel
  have hfive : (Shift.mk s.tree.size (s'.tree.size - s.tree.size)).node ⟨5⟩ = ⟨5⟩ := by
    decide +kernel
  have hseven : (Shift.mk s.tree.size (s'.tree.size - s.tree.size)).node ⟨7⟩ = ⟨8⟩ := by
    decide +kernel
  refine ⟨by decide +kernel, hrow, hanswer.trans hrow, hcall, ?_⟩
  have hbelow : Relation.ReflTransGen s.tree.Child ⟨6⟩ ⟨5⟩ := .single ⟨_, rfl, by decide⟩
  have hnode := hnodes ⟨5⟩ (.inl hbelow)
  rw [hfive, hcall] at hnode
  rw [hnode, Option.map_some, Node.renumber, List.map_singleton, hseven]

end SqlTyping
