import SqlTyping.Proofs.Scope.Agreement
import SqlTyping.Proofs.Session.Guarding
import SqlTyping.Proofs.Tree.Ranks

namespace SqlTyping

/-!
# Requests to a session

A session is asked for one thing after another: to add tables, to validate queries, to type
expressions. What a failed request leaves behind stays, and later requests meet it:

* `Session.Request`, `Session.Reached` — the requests, and the sessions that come of them;
* `Session.Intact` — what scopes show and names are bound to is registered, and what was added to the
  statement goes back to a node that was written;
* `Session.Intact.upholds`, `Session.Intact.allows` — this survives validation, which then stops with
  faults of the statement only;
* `Session.Reached.not_internal` — so no request meets a broken invariant.
-/

/-- What a session is asked for. -/
inductive Session.Request where
  | addTable (names : List String) (row : DataType)
  | validateQuery (query : NodeId)
  | deriveType (scope : ScopeId) (expression : NodeId)

/-- What a session does about a request. -/
def Session.Request.perform : Session.Request → Validation Unit
  | .addTable names row => fun s =>
    match s.addTable names row with
    | .ok (_, s') => (.ok (), s')
    | .error e => (.error e, s)
  | .validateQuery query => do
    let _ ← Session.validateQuery query
    return ()
  | .deriveType scope expression => do
    let _ ← Session.deriveType scope expression
    return ()

/-- The nodes and scopes that a request names are there. -/
def Session.Request.Refers (s : Session) : Session.Request → Prop
  | .addTable .. => True
  | .validateQuery query => query.index < s.tree.size
  | .deriveType scope expression =>
    scope.index < s.scopes.size ∧ expression.index < s.tree.size

/-- The sessions that come of requests, whether they succeed or fail. -/
inductive Session.Reached (start : Session) : Session → Prop
  | start : Reached start start
  | request {s : Session} {r : Session.Request} (h : Reached start s) (hr : r.Refers s) :
    Reached start (r.perform s).2

/-- An identifier and the name of a table have at least one part. -/
def Node.isNamed : Node → Bool
  | identifier names | tableRef names _ => !names.isEmpty
  | _ => true

/-- All identifiers and names of tables have at least one part. -/
def Tree.IsNamed (t : Tree) : Prop :=
  ∀ id node, t.node? id = some node → node.isNamed = true

/-- Every return rule takes its type from an operand that no admitted call lacks. -/
def OperatorTable.ReturnsOperands (ops : OperatorTable) : Prop :=
  ∀ name op index, ops.lookup? name = some op → op.returns.source? = some index →
    index < op.arity.least

/-- Whatever requests have been made, what scopes show and names are bound to is registered, and what
    has been added to the statement `t₀` is a placeholder or around a node that was written. -/
structure Session.Intact (t₀ : Tree) (s : Session) : Prop where
  engine : s.engine = .implicitCasts
  returns : s.operators.ReturnsOperands
  nested : s.scopes.Nested
  root : 0 < s.scopes.size
  shown : ∀ id scope, s.scopes.get? id = some scope → s.Presents scope.role
  bound : ∀ id scope b, s.scopes.get? id = some scope → b ∈ scope.bindings →
    ∃ e, s.sources.get? b.source = some e
  owned : s.sources.Owned
  added : ∀ id, t₀.size ≤ id.index → id.index < s.tree.size → s.tree.node? id = some .default ∨
    ∃ a, a.index < t₀.size ∧ Tree.Wraps t₀ s.tree a id

/-! ### Names and operators -/

/-- Names are looked at in the tree. -/
theorem Tree.isNamed_of_entries {t : Tree} (h : ∀ e ∈ t.entries.toList, e.node.isNamed = true) :
    t.IsNamed := by
  intro id node hn
  obtain ⟨e, he, rfl⟩ := Option.map_eq_some_iff.mp hn
  exact h e (Array.mem_toList_iff.mpr (Array.mem_of_getElem? he))

namespace OperatorTable

/-- A rule is looked at in the table. -/
theorem returnsOperands_of_entries {ops : OperatorTable}
    (h : ∀ entry ∈ ops.byName.entries, entry.2.returns.source?.all (· < entry.2.arity.least) = true) :
    ops.ReturnsOperands := by
  intro name op index hop hsource
  have hmem : ∀ entries : List (String × Operator), OrderedMap.find? (Text.fold name) entries = some op →
      ∃ key, (key, op) ∈ entries := by
    intro entries hfind
    induction entries with
    | nil => cases hfind
    | cons entry rest ih =>
      unfold OrderedMap.find? at hfind
      split at hfind
      · cases hfind
        exact ⟨entry.1, List.mem_cons_self ..⟩
      · obtain ⟨key, hkey⟩ := ih hfind
        exact ⟨key, List.mem_cons_of_mem _ hkey⟩
  obtain ⟨key, hentry⟩ := hmem _ hop
  have hall := h _ hentry
  rw [hsource] at hall
  simpa using hall

theorem standard_returnsOperands : standard.ReturnsOperands :=
  returnsOperands_of_entries (by decide)

end OperatorTable

/-! ### Lookups -/

namespace ScopeTree

variable {t : ScopeTree} {α : Type}

/-- An answer along scopes that are there is that of one of them. -/
theorem answer_of_firstAlong (ask : ScopeId → Scope → Except Fault (Option α)) {ids : List ScopeId}
    (hids : ∀ id ∈ ids, ∃ scope, t.get? id = some scope) :
    t.firstAlong ask ids = .ok none ∨
      ∃ id scope, t.get? id = some scope ∧ ask id scope = t.firstAlong ask ids := by
  induction ids with
  | nil => exact .inl rfl
  | cons id rest ih =>
    obtain ⟨scope, h⟩ := hids id (List.mem_cons_self ..)
    unfold firstAlong
    rw [h]
    simp only
    split
    · exact ih fun other ho => hids other (List.mem_cons_of_mem _ ho)
    · exact .inr ⟨id, scope, h, rfl⟩

/-- A scope of the catalog or of a block shows no item; others show one that has been registered. -/
theorem itemMatch_ne_error {s : Session} {scope : Scope} (h : s.Presents scope.role)
    (names : List String) (e : Fault) : itemMatch scope names s.sources ≠ .error e := by
  intro hfault
  obtain ⟨item, shown, -, ⟨hrole, hnone⟩ | ⟨hrole, hnone⟩⟩ := itemMatch_eq_error hfault
  · have hsome : (s.sources.ofNode? item).isSome = true := by rwa [hrole] at h
    rw [hnone] at hsome
    cases hsome
  · have hsome : (s.sources.selfViewOf? item).isSome = true := by rwa [hrole] at h
    rw [hnone] at hsome
    cases hsome

/-- What is found along scopes is what one of them has. -/
theorem exists_of_firstAlong {ask : ScopeId → Scope → Except Fault (Option α)} {ids : List ScopeId}
    {a : α} (h : t.firstAlong ask ids = .ok (some a)) :
    ∃ id ∈ ids, ∃ scope, t.get? id = some scope ∧ ask id scope = .ok (some a) := by
  induction ids with
  | nil => cases h
  | cons id rest ih =>
    unfold firstAlong at h
    cases hs : t.get? id with
    | none => simp [hs] at h
    | some scope =>
      simp only [hs] at h
      split at h
      · obtain ⟨other, hmem, hother⟩ := ih h
        exact ⟨other, List.mem_cons_of_mem _ hmem, hother⟩
      · exact ⟨id, List.mem_cons_self .., scope, hs, h⟩

/-- A lookup by leading parts finds what is registered when names are bound to such only. -/
theorem registered_of_lookupTable {sources : RowSources} (howned : sources.Owned)
    (hbound : ∀ id scope b, t.get? id = some scope → b ∈ scope.bindings →
      ∃ e, sources.get? b.source = some e) {scope : ScopeId} {names : List String} {m : NameMatching}
    {path : Path} {found : TableMatch}
    (h : t.lookupTable scope names m path sources = .ok (some found)) :
    ∃ e, sources.get? found.source = some e := by
  obtain ⟨id, -, around, haround, hanswer⟩ := exists_of_firstAlong h
  rcases tableIn_eq_some hanswer with ⟨source, hitem, rfl⟩ | ⟨-, leading, hlead, rfl⟩
  · obtain ⟨item, shown, -, ⟨-, hown⟩ | ⟨-, hview⟩⟩ := itemMatch_eq_some hitem
    · obtain ⟨e, he, -⟩ := howned.item item source hown
      exact ⟨e, he⟩
    · obtain ⟨e, he, -⟩ := howned.selfView item source hview
      exact ⟨e, he⟩
  · exact hbound id around leading.2 haround (Naming.mem_of_leadingBinding? hlead)

end ScopeTree

/-- A source that names may be bound to is registered. -/
theorem Session.Stands.registered {s : Session} {source : SourceId} (h : s.Stands source)
    (howned : s.sources.Owned) (hbound : ∀ id scope b, s.scopes.get? id = some scope →
      b ∈ scope.bindings → ∃ e, s.sources.get? b.source = some e) :
    ∃ e, s.sources.get? source = some e := by
  rcases h with hsome | ⟨scope, names, found, hfound, rfl⟩
  · exact Option.isSome_iff_exists.mp hsome
  exact ScopeTree.registered_of_lookupTable howned hbound (ScopeTree.requireTable_eq_ok_iff.mp hfound)

namespace Session.Intact

variable {t₀ : Tree} {s : Session} {scope : ScopeId}

/-- All scopes around a scope are there. -/
theorem exists_of_mem_chain (h : s.Intact t₀) (hscope : scope.index < s.scopes.size) :
    ∀ id ∈ s.scopes.chain scope, ∃ around, s.scopes.get? id = some around :=
  fun _ hid => h.nested.exists_of_mem_chain (Array.getElem?_eq_getElem hscope) hid

/-- A lookup by leading parts ends, and what it finds is registered. -/
theorem lookupTable (h : s.Intact t₀) (hscope : scope.index < s.scopes.size) (names : List String)
    (m : NameMatching) (path : Path) :
    s.scopes.lookupTable scope names m path s.sources = .ok none ∨
      ∃ found e, s.scopes.lookupTable scope names m path s.sources = .ok (some found) ∧
        s.sources.get? found.source = some e := by
  cases hlooked : s.scopes.lookupTable scope names m path s.sources with
  | ok answer =>
    cases answer with
    | none => exact .inl rfl
    | some found =>
      obtain ⟨e, he⟩ := ScopeTree.registered_of_lookupTable h.owned h.bound hlooked
      exact .inr ⟨found, e, rfl, he⟩
  | error e =>
    rcases ScopeTree.answer_of_firstAlong (ScopeTree.tableIn names m path s.sources)
      (h.exists_of_mem_chain hscope) with hnone | ⟨id, around, haround, hanswer⟩
    · cases hlooked.symm.trans hnone
    · exact absurd (ScopeTree.itemMatch_of_tableIn_eq_error (hanswer.trans hlooked))
        (ScopeTree.itemMatch_ne_error (h.shown id around haround) names _)

/-- A name that stands for nothing is a fault of the statement. -/
theorem requireTable_error (h : s.Intact t₀) (hscope : scope.index < s.scopes.size)
    {names : List String} {m : NameMatching} {e : Fault}
    (he : s.scopes.requireTable scope names m s.sources = .error e) : e.isInternal = false := by
  unfold ScopeTree.requireTable at he
  rcases h.lookupTable hscope names m .empty with hnone | ⟨found, e', hfound, -⟩
  · rw [hnone] at he
    cases he
    rfl
  · rw [hfound] at he
    cases he

/-- A lookup of a column by its name alone only fails when the column is ambiguous. -/
theorem lookupColumn_error (h : s.Intact t₀) (hscope : scope.index < s.scopes.size) {column : String}
    {m : NameMatching} {e : Fault}
    (he : s.scopes.lookupColumn scope column m s.sources = .error e) : e.isInternal = false := by
  unfold ScopeTree.lookupColumn at he
  rcases ScopeTree.answer_of_firstAlong (ScopeTree.columnIn column m s.sources)
    (h.exists_of_mem_chain hscope) with hnone | ⟨id, around, -, hanswer⟩
  · rw [hnone] at he
    cases he
  · rw [← hanswer] at he
    unfold ScopeTree.columnIn at he
    split at he
    · cases he
    · split at he
      · cases he
      · cases he
      · cases he
        rfl

/-- A column of a table that is registered is only missed by the statement. -/
theorem columnType_error {found : TableMatch} {source : RowSource} {names : List String} {e : Fault}
    (hfound : s.sources.get? found.source = some source)
    (he : s.columnType names found = .error e) : e.isInternal = false := by
  have hrow : s.sources.row? found.source = some source.row := RowSources.row?_of_get? hfound
  unfold Session.columnType at he
  rw [hrow] at he
  split at he
  · simp only at he
    split at he
    · cases he
      rfl
    · cases he
  · cases he
    rfl

/-- A reference that has no type is a fault of the statement. -/
theorem referenceType_error (h : s.Intact t₀) (hscope : scope.index < s.scopes.size)
    {names : List String} (hnames : names ≠ []) {e : Fault}
    (he : s.referenceType scope names = .error e) : e.isInternal = false := by
  unfold Session.referenceType at he
  split at he
  · exact absurd rfl hnames
  -- A column by its name alone.
  · split at he
    · rename_i fault hfault
      cases he
      exact h.lookupColumn_error hscope hfault
    · cases he
      rfl
    · cases he
  -- A column with its table.
  · unfold Session.qualifiedType at he
    rcases h.lookupTable hscope names s.settings.matching .empty with hnone | ⟨found, e', hfound, hget⟩
    · simp only [hnone] at he
      cases he
      rfl
    · simp only [hfound] at he
      split at he
      · cases he
        rfl
      · exact columnType_error hget he

/-- Row sources are added, and those of nodes are registered. -/
theorem withSources (h : s.Intact t₀) {sources : RowSources} (hg : s.sources.Grows sources)
    (hitems : ∀ node, (s.sources.ofNode? node).isSome = true → (sources.ofNode? node).isSome = true)
    (howned : sources.Owned) : Session.Intact t₀ { s with sources } where
  engine := h.engine
  returns := h.returns
  nested := h.nested
  root := h.root
  shown id scope hs := (h.shown id scope hs).grows hg hitems
  bound id scope b hs hb := by
    obtain ⟨e, he⟩ := h.bound id scope b hs hb
    obtain ⟨e', he', -⟩ := hg.source _ e he
    exact ⟨e', he'⟩
  owned := howned
  added := h.added

end Session.Intact

/-! ### Validation -/

section

variable {t₀ : Tree} {rank : NodeId → Nat}

/-- What scopes show and names are bound to is registered before, whatever validation does. -/
theorem Session.Intact.upholds (hclosed : t₀.NoDangling)
    (hrank : ∀ p c, t₀.Child p c → rank c < rank p) :
    Session.Upholds t₀ (Tree.HasRoom t₀.Has rank) 0 (Session.Intact t₀) where
  closed := hclosed
  lt_size hp := hp.1
  child hp hc := hp.child hclosed.isClosed (fun p c _ => hrank p c) hc
  below hp hc := hp.below hclosed.isClosed (fun p c _ => hrank p c) hc
  base_le _ := Nat.zero_le _
  view h hid := h.owned.selfView _ _ hid
  record type h _ _ := ⟨h.engine, h.returns, h.nested, h.root, h.shown, h.bound, h.owned, h.added⟩
  newScope := by
    intro s parent role node id scopes h hrole hnew
    obtain ⟨rfl, around, -, hget⟩ := ScopeTree.get?_newScope hnew
    refine ⟨h.engine, h.returns, h.nested.newScope hnew, ?_, fun other scope hs => ?_,
      fun other scope b hs hb => ?_, h.owned, h.added⟩
    · have hroot : s.scopes.get? ScopeTree.rootId = some _ := Array.getElem?_eq_getElem h.root
      exact (Array.getElem?_eq_some_iff.mp (ScopeTree.get?_newScope_of_some hnew hroot)).1
    · rw [hget] at hs
      split at hs
      · cases hs
        exact hrole
      · exact h.shown other scope hs
    · rw [hget] at hs
      split at hs
      · cases hs
        cases hb
      · exact h.bound other scope b hs hb
  addBinding := by
    intro s id binding scopes h _ hbinding hadd
    refine ⟨h.engine, h.returns, h.nested.addBinding hadd, ScopeTree.size_addBinding hadd ▸ h.root,
      fun other scope hs => ?_, fun other scope b hs hb => ?_, h.owned, h.added⟩
    · obtain ⟨old, hold, -, hrole, -⟩ := ScopeTree.exists_of_get?_addBinding hadd hs
      exact hrole ▸ h.shown other old hold
    · obtain ⟨old, hold, -, -, -, hnew⟩ := ScopeTree.exists_of_get?_addBinding hadd hs
      rcases hnew b hb with hb | rfl
      · exact h.bound other old b hold hb
      · exact hbinding.registered h.owned h.bound
  register := by
    intro s depth node kind enclosing h _
    exact h.withSources (.register s.sources node kind enclosing)
      (fun _ => RowSources.isSome_ofNode?_register _ _ _) (h.owned.register node kind enclosing)
  selfView := by
    intro s depth item id sources h _ _ hview
    exact h.withSources (.of_selfView hview)
      (fun _ ho => by rwa [RowSources.ofNode?_of_selfView hview]) (h.owned.of_selfView hview)
  setRow := by
    intro s depth node id e row sources h _ _ _ hset
    exact h.withSources (.of_setRow hset) (fun _ ho => by rwa [RowSources.ofNode?_of_setRow hset])
      (h.owned.of_setRow hset)
  selfReference reference h :=
    ⟨h.engine, h.returns, h.nested, h.root, h.shown, h.bound, h.owned, h.added⟩
  tree := by
    intro s depth call tree h hp _ hcast
    refine ⟨h.engine, h.returns, h.nested, h.root, h.shown, h.bound, h.owned,
      fun id hnew hid => ?_⟩
    by_cases hold : id.index < s.tree.size
    · rcases h.added id hnew hold with hd | ⟨a, ha, hw⟩
      · exact .inl ((hcast.keeps.node? id hnew hold).trans hd)
      · exact .inr ⟨a, ha, hw.mono hcast.keeps⟩
    · rcases hcast.added id (Nat.le_of_not_lt hold) hid with hd | ⟨node, a, hn, ha, hw⟩
      · exact .inl hd
      · exact .inr ⟨a, Tree.isSome_node?_iff.mp (hclosed call node hn a ha), hw⟩
  requests requests h :=
    ⟨h.engine, h.returns, h.nested, h.root, h.shown, h.bound, h.owned, h.added⟩

/-- Where that holds, validation stops with faults of the statement. -/
theorem Session.Intact.allows (hclosed : t₀.NoDangling)
    (hacyclic : ∀ id, ¬ Relation.TransGen t₀.Child id id) (hnamed : t₀.IsNamed) :
    Session.Allows t₀ (Tree.HasRoom t₀.Has rank) (Session.Intact t₀) fun e => e.isInternal = false where
  semantic _ he := he
  deep := by
    rintro depth a text hdepth ⟨-, hroom⟩
    omega
  round := by
    intro depth a id s casts core operand target implicit text _ hs hp hw hpeel hn
    exact absurd hn (hclosed.isClosed.peelCasts_ends hs.rewritten hs.closed (fun a _ => hacyclic a) hp.1
      hw hpeel _ _ _)
  table h hscope he := h.requireTable_error hscope he
  exposed := by
    intro depth a name label text _ hn hnone
    unfold exposedName? at hnone
    cases label with
    | some label => cases hnone
    | none =>
      have hempty : name = [] := by simpa using hnone
      simpa [Node.isNamed, hempty] using hnamed _ _ hn
  reference _ hn h hscope he := by
    refine h.referenceType_error hscope ?_ he
    rintro rfl
    simpa [Node.isNamed] using hnamed _ _ hn
  engine h := .inl h.engine
  infer := by
    intro s name op types e h hop hleast he
    obtain ⟨type, htype⟩ := (ReturnRule.infer_isOk_iff types op.returns).mpr fun index hsource =>
      Nat.lt_of_lt_of_le (h.returns name op index hop hsource) hleast
    rw [he] at htype
    cases htype

end

/-! ### Requests -/

section

variable {t₀ : Tree} {s : Session} {rank : NodeId → Nat}

open Checking

/-- Validation goes deep enough. -/
theorem Session.Rewrites.hasRoom (hs : s.Rewrites t₀)
    (hroom : ∀ a, a.index < t₀.size → rank a < t₀.size) {a : NodeId} (ha : a.index < t₀.size) :
    Tree.HasRoom t₀.Has rank s.maxDepth a := by
  have := hroom a ha
  have := hs.rewritten.size_le
  refine ⟨ha, ?_⟩
  show rank a + 2 ≤ s.tree.size + 1
  omega

/-- Every node belongs to validation, written or added. -/
theorem Session.Intact.isPart (h : s.Intact t₀) (hs : s.Rewrites t₀)
    (hroom : ∀ a, a.index < t₀.size → rank a < t₀.size) {id : NodeId} (hid : id.index < s.tree.size) :
    Tree.IsPart t₀ (Tree.HasRoom t₀.Has rank) s.maxDepth s.tree id := by
  by_cases hold : id.index < t₀.size
  · exact .inl ⟨id, hs.hasRoom hroom hold, .self⟩
  · have hnew := Nat.le_of_not_lt hold
    rcases h.added id hnew hid with hd | ⟨a, ha, hw⟩
    · exact .inr ⟨hnew, hd, fun hzero => absurd hzero (Nat.succ_ne_zero _)⟩
    · exact .inl ⟨a, hs.hasRoom hroom ha, hw⟩

/-- A query that was not written is none. -/
theorem Session.Intact.runs_notWritten (hs : Session.Goes t₀ (Session.Intact t₀) s s) {query : NodeId}
    (hnew : t₀.size ≤ query.index) (hid : query.index < s.tree.size) :
    Runs (Session.Goes t₀ (Session.Intact t₀)) (fun e => e.isInternal = false) s
      (Session.validateQuery query) fun _ _ => True := by
  have hrow : ∀ n, s.tree.node? query = some n → (∀ v scope, queryRow v scope query n =
      Checking.fail (.notAQuery query.text n.kind)) →
        Runs (Session.Goes t₀ (Session.Intact t₀)) (fun e => e.isInternal = false) s
          (Session.validateQuery query) fun _ _ => True := by
    intro n hn hfail
    show Runs _ _ s (queryStep (visitAt s.tree.size) ScopeTree.rootId query) _
    unfold queryStep
    refine .bind_ok (node_of_some hn) ?_
    rw [hfail]
    exact Runs.bind course_goes (Q := fun _ _ => False) (.fail hs rfl) fun _ _ _ hf => hf.elim
  rcases hs.2.added query hnew hid with hd | ⟨a, ha, hw⟩
  · exact hrow _ hd fun _ _ => rfl
  · cases hw with
    | self => omega
    | cast _ hcast => exact hrow _ hcast fun _ _ => rfl

/-- A table is added below the catalog, which is there. -/
theorem Session.Intact.runs_addTable
    (hup : Session.Upholds t₀ (Tree.HasRoom t₀.Has rank) 0 (Session.Intact t₀))
    (hs : Session.Goes t₀ (Session.Intact t₀) s s) (names : List String) (row : DataType) :
    Runs (Session.Goes t₀ (Session.Intact t₀)) (fun e => e.isInternal = false) s
      (Session.Request.addTable names row).perform fun _ _ => True := by
  have h := hs.2
  let sources := (s.sources.registerTable names row).2
  have hg : s.sources.Grows sources := .registerTable s.sources names row
  have hsources : Session.Intact t₀ { s with sources } :=
    h.withSources hg (fun _ ho => ho) (h.owned.of_grows hg rfl rfl)
  obtain ⟨scopes, hadd⟩ : ∃ scopes, s.scopes.addBinding ScopeTree.rootId
      { names, source := s.sources.nextId, nullable := false } = .ok scopes := by
    unfold ScopeTree.addBinding
    rw [if_pos (show ScopeTree.rootId.index < s.scopes.size from h.root)]
    exact ⟨_, rfl⟩
  have hbound : Session.Intact t₀ { s with sources, scopes } :=
    hup.addBinding hsources (Nat.zero_le _)
      (.inl (by simp [sources, RowSources.registerTable, RowSources.get?_push])) hadd
  unfold Runs Session.Request.perform Session.addTable
  simp only [RowSources.registerTable, hadd]
  exact ⟨hs.of_same rfl ⟨rfl, rfl, rfl⟩ (.addBinding hadd) hg (fun _ hn => hn) hbound, trivial⟩

/-- Every request leaves what scopes show and names are bound to registered, and fails with a fault of
    the statement only. -/
theorem Session.Intact.runs_perform (hclosed : t₀.NoDangling)
    (hacyclic : ∀ id, ¬ Relation.TransGen t₀.Child id id) (hnamed : t₀.IsNamed)
    (hs : Session.Goes t₀ (Session.Intact t₀) s s) {r : Session.Request} (hr : r.Refers s) :
    Runs (Session.Goes t₀ (Session.Intact t₀)) (fun e => e.isInternal = false) s r.perform
      fun _ _ => True := by
  have hlt : ∀ p c, t₀.Child p c → c.index < t₀.size := by
    rintro p c ⟨node, hn, hmem⟩
    exact Tree.isSome_node?_iff.mp (hclosed p node hn c hmem)
  obtain ⟨rank, hrank, hroom⟩ := exists_rank hlt hacyclic
  have hup := Session.Intact.upholds hclosed hrank
  have hguarded := visitAt_guarded hup (Session.Intact.allows hclosed hacyclic hnamed) s.maxDepth
  cases r with
  | addTable names row => exact Session.Intact.runs_addTable hup hs names row
  | validateQuery query =>
    refine Runs.bind course_goes (Q := fun _ _ => True) ?_ fun _ t ht _ =>
      .pure (course_goes.stays ht) trivial
    by_cases hold : query.index < t₀.size
    · exact hguarded.query hs (hs.1.rewrites.1.hasRoom hroom hold) hs.2.root
    · exact Session.Intact.runs_notWritten hs (Nat.le_of_not_lt hold) hr
  | deriveType scope expression =>
    refine Runs.bind course_goes (Q := fun _ _ => True) ?_ fun _ t ht _ =>
      .pure (course_goes.stays ht) trivial
    exact hguarded.expression hs (hs.2.isPart hs.1.rewrites.1 hroom hr.2) hr.1

/-- Before the first request. -/
theorem Session.Intact.goes_start {settings : Settings} {operators : OperatorTable}
    (hclosed : t₀.NoDangling) (hreturns : operators.ReturnsOperands) :
    Session.Goes t₀ (Session.Intact t₀) { settings, tree := t₀, operators }
      { settings, tree := t₀, operators } := by
  have hroot : ∀ id scope, ScopeTree.get? {} id = some scope → scope = .root := by
    intro id scope hs
    obtain ⟨_, rfl⟩ := Array.getElem?_eq_some_iff.mp hs
    simp
  refine ⟨.refl ⟨.refl t₀, hclosed⟩, rfl, hreturns, ScopeTree.Built.root.nested, Nat.one_pos,
    fun id scope hs => ?_, fun id scope b hs hb => ?_,
    ⟨(fun _ _ hid => by cases hid), (fun _ _ hid => by cases hid)⟩,
    fun id hnew hid => absurd hid (Nat.not_lt_of_le hnew)⟩
  · rw [hroot id scope hs]
    trivial
  · rw [hroot id scope hs] at hb
    cases hb

/-- No request meets a broken invariant, whatever has been asked for before and however it ended. -/
theorem Session.Reached.not_internal {settings : Settings} {tree : Tree} {operators : OperatorTable}
    {r : Session.Request} {e : Fault} (h : Session.Reached { settings, tree, operators } s)
    (hacyclic : ∀ id, ¬ Relation.TransGen tree.Child id id) (hclosed : tree.NoDangling)
    (hnamed : tree.IsNamed) (hreturns : operators.ReturnsOperands) (hr : r.Refers s)
    (he : (r.perform s).1 = .error e) : e.isInternal = false := by
  have hs : Session.Goes tree (Session.Intact tree) s s := by
    clear hr he
    induction h with
    | start => exact Session.Intact.goes_start hclosed hreturns
    | request _ hr ih =>
      exact course_goes.stays (Session.Intact.runs_perform hclosed hacyclic hnamed ih hr).rel
  exact ((Session.Intact.runs_perform hclosed hacyclic hnamed hs hr).of_error (Prod.ext he rfl)).2

/-- `SELECT A FROM T`. -/
def Tree.oneColumn : Tree :=
  ((({} : Tree).push (.identifier ["A"])).push (.tableRef ["T"] none)).push
    (.select { items := [.expression ⟨0⟩ none], sources := [⟨1⟩], condition := none })

/-- The query is validated, the table that it lacks is added, and the query is validated again. -/
theorem Session.Reached.not_internal_oneColumn :
    ∃ s e, Session.Reached { tree := .oneColumn } s ∧
      ((Session.Request.validateQuery ⟨2⟩).perform s).1 = .error e ∧ e = .columnNotFound "A" ∧
        e.isInternal = false := by
  have hrefers : Session.Request.Refers { tree := .oneColumn } (.validateQuery ⟨2⟩) := by
    show 2 < Tree.oneColumn.size
    decide
  have hfailed := Session.Reached.start.request hrefers
  have hadded := hfailed.request (r := .addTable ["T"] .emptyRow) trivial
  have hforest : Tree.oneColumn.IsForest := .of_ordered (by decide) (by decide) (by decide)
  have hnamed : Tree.oneColumn.IsNamed := Tree.isNamed_of_entries (by decide)
  have hmissing : ((Session.Request.validateQuery ⟨2⟩).perform
      ((Session.Request.addTable ["T"] .emptyRow).perform
        ((Session.Request.validateQuery ⟨2⟩).perform { tree := .oneColumn }).2).2).1 =
          .error (.columnNotFound "A") := by
    decide +kernel
  refine ⟨_, _, hadded, hmissing, rfl, ?_⟩
  refine hadded.not_internal (r := .validateQuery ⟨2⟩) hforest.acyclic hforest.closed hnamed
    OperatorTable.standard_returnsOperands ?_ hmissing
  show 2 < Tree.size _
  decide +kernel

end

end SqlTyping
