import SqlTyping.Proofs.Session.Repeating
import SqlTyping.Proofs.Session.Resolution
import SqlTyping.Proofs.Session.Results

namespace SqlTyping

/-!
# Queries that can be validated again

Given that the parts of a query are settled once they have been validated with a result, so is the
query (`Session.SettlesParts.queryStep`), as long as no WITH item of it is recursive:

* `Session.SettlesParts` — the parts below a node are settled by validation to a given depth;
* `Session.Fills` — the scope of a SELECT that shows some of the FROM list so far;
* `Session.Inside` — the place between two parts of a query, and what is seen from there.
-/

open Checking

/-! ### Row sources of one's own -/

/-- The row type of a source is set, and the other sources stay. -/
theorem RowSources.exists_setRow {sources : RowSources} {id : SourceId} {e : RowSource}
    (h : sources.get? id = some e) (row : DataType) :
    ∃ sources', sources.setRow id row = .ok sources' ∧ sources'.row? id = some row ∧
      (∀ other, other ≠ id → sources'.get? other = sources.get? other) ∧
        sources'.byNode = sources.byNode ∧ sources'.selfViews = sources.selfViews := by
  obtain ⟨hlt, -⟩ := Array.getElem?_eq_some_iff.mp h
  have hset : sources.setRow id row = .ok { sources with
      sources := sources.sources.modify id.index fun e => { e with row } } := if_pos hlt
  refine ⟨_, hset, ?_, fun other hne => ?_, rfl, rfl⟩
  · refine RowSources.row?_of_get? (e := { e with row }) ?_
    rw [RowSources.get?_setRow hset, if_pos rfl, h]
    rfl
  · rw [RowSources.get?_setRow hset, if_neg hne]

namespace Session

variable {b s s' t : Session} {own own' : NodeId → Prop} {view : View} {depth : Nat}

/-- A node gets a row source of its own; its row type is not known yet. -/
theorem exists_register (s : Session) (own : NodeId → Prop) {node : NodeId} (kind : SourceKind)
    (enclosing : Option NodeId) (hown : own node) :
    ∃ source s', Validation.register node kind enclosing s = (.ok source, s') ∧ s.Leaves own s' ∧
      s.sources.get? source = none ∧ (∃ e, s'.sources.get? source = some e) ∧
        s'.sources.ofNode? node = some source ∧ s'.scopes = s.scopes := by
  refine ⟨_, _, rfl, ⟨.refl _, fun id e he => ?_, fun other hother => ?_, fun _ _ => rfl⟩, ?_,
    ⟨_, RowSources.get?_register_self s.sources node kind enclosing⟩, ?_, rfl⟩
  · exact RowSources.Grows.get?_push_of_some he _
  · have hne : other ≠ node := by
      rintro rfl
      exact hother hown
    exact (RowSources.ofNode?_register ..).trans (if_neg hne)
  · exact s.sources.get?_nextId
  · exact (RowSources.ofNode?_register ..).trans (if_pos rfl)

/-- The row type of a source that was not there before is set. -/
theorem exists_setRow {source : SourceId} {e : RowSource} (hleaves : s.Leaves own s')
    (hnew : s.sources.get? source = none) (he : s'.sources.get? source = some e) (row : DataType) :
    ∃ s'', Validation.setRow source row s' = (.ok (), s'') ∧ s.Leaves own s'' ∧
      s''.sources.row? source = some row ∧ s''.sources.byNode = s'.sources.byNode ∧
        s''.scopes = s'.scopes := by
  obtain ⟨sources, hset, hrow, hother, hnodes, hviews⟩ := RowSources.exists_setRow he row
  refine ⟨{ s' with sources }, ?_, ⟨hleaves.scopes, fun id known hknown => ?_, fun node hn => ?_,
    fun node hn => ?_⟩, hrow, hnodes, rfl⟩
  · unfold Validation.setRow
    rw [hset]
  · have hne : id ≠ source := by
      rintro rfl
      rw [hnew] at hknown
      cases hknown
    exact (hother id hne).trans (hleaves.sources id known hknown)
  · have hsame : sources.ofNode? node = s'.sources.ofNode? node := by
      unfold RowSources.ofNode?
      rw [hnodes]
    exact hsame.trans (hleaves.items node hn)
  · have hsame : sources.selfViewOf? node = s'.sources.selfViewOf? node := by
      unfold RowSources.selfViewOf?
      rw [hviews]
    exact hsame.trans (hleaves.selfViews node hn)

/-! ### Scopes of one's own -/

/-- A scope is added below one that is there. -/
theorem exists_newScope (own : NodeId → Prop) {parent : ScopeId} {around : Scope}
    (h : s.scopes.get? parent = some around)
    (role : ScopeRole) (node : Option NodeId) :
    ∃ scope s', Validation.onScopes (·.newScope parent role node) s = (.ok scope, s') ∧
      s.Leaves own s' ∧ s'.sources = s.sources ∧ s.scopes.get? scope = none ∧
        s'.scopes.get? scope = some ⟨some parent, role, node, [], around.depth + 1⟩ := by
  have hnew : s.scopes.newScope parent role node = .ok (s.scopes.nextId,
      ⟨s.scopes.scopes.push ⟨some parent, role, node, [], around.depth + 1⟩⟩) := by
    unfold ScopeTree.newScope
    rw [h]
  obtain ⟨-, found, hfound, hget⟩ := ScopeTree.get?_newScope hnew
  obtain rfl := Option.some.inj (hfound.symm.trans h)
  refine ⟨s.scopes.nextId, { s with scopes := _ }, ?_, ⟨.newScope hnew, fun _ _ h => h,
    fun _ _ => rfl, fun _ _ => rfl⟩, rfl, ?_, ?_⟩
  · unfold Validation.onScopes
    simp only [hnew]
  · refine Option.not_isSome_iff_eq_none.mp fun hsome => ?_
    obtain ⟨scope, hscope⟩ := Option.isSome_iff_exists.mp hsome
    exact ScopeTree.ne_nextId hscope rfl
  · exact (hget _).trans (if_pos rfl)

/-- The scope of a SELECT below `r.1.1`, in a session that goes on from `r.1.2`. It was added since, and
    shows `shown`. -/
structure Fills (own : NodeId → Prop) (view : View) (shown : List Shown)
    (r : (ScopeId × Session) × ScopeId) (s : Session) : Prop where
  leaves : r.1.2.Leaves own s
  around : r.1.2.Sees r.1.1 view
  new : r.1.2.scopes.get? r.2 = none
  scope : ∃ scope around, s.scopes.get? r.2 = some scope ∧ scope.role = .block ∧
    scope.parent = some r.1.1 ∧ r.1.2.scopes.get? r.1.1 = some around ∧
      scope.depth = around.depth + 1 ∧
        List.Forall₂ (Binding.Shows s.sources) scope.bindings shown

variable {shown : List Shown} {r : (ScopeId × Session) × ScopeId}

theorem Fills.sees_around (h : Fills own view shown r s) (hspares : view.Spares own) :
    s.Sees r.1.1 view :=
  h.around.leaves h.leaves hspares

/-- The scope has a view. -/
theorem Fills.sees (h : Fills own view shown r s) (hspares : view.Spares own) :
    s.Sees r.2 (.block shown :: view) := by
  obtain ⟨scope, around, hscope, hrole, hparent, haround, hdepth, hbindings⟩ := h.scope
  exact .inner hscope hparent (h.leaves.scopes _ _ haround) hdepth (.block hrole hbindings)
    (h.sees_around hspares)

theorem Fills.leaves_of (h : Fills own view shown r s) (hleaves : s.Leaves own' s')
    (hown : ∀ id, own' id → own id) : Fills own view shown r s' := by
  obtain ⟨scope, around, hscope, hrole, hparent, haround, hdepth, hbindings⟩ := h.scope
  exact ⟨h.leaves.trans (hleaves.mono hown), h.around, h.new, scope, around,
    hleaves.scopes _ _ hscope, hrole, hparent, haround, hdepth, hleaves.bindings hbindings⟩

/-- One more table is bound, by a name or by a query, whose row source may have been registered just
    before. -/
theorem Fills.bindName (h : Fills own view shown r s) (name : String) {source : SourceId}
    {row : DataType} (hleaves : r.1.2.Leaves own s')
    (hold : ∀ id e, s.sources.get? id = some e → s'.sources.get? id = some e)
    (hscopes : s'.scopes = s.scopes) (hrow : s'.sources.row? source = some row) :
    ∃ s'', Validation.bindName r.2 name source s' = (.ok (), s'') ∧
      Fills own view (shown ++ [⟨[name], false, row⟩]) r s'' := by
  obtain ⟨scope, around, hscope, hrole, hparent, haround, hdepth, hbindings⟩ := h.scope
  have hlt : r.2.index < s.scopes.size := (Array.getElem?_eq_some_iff.mp hscope).1
  obtain ⟨scopes, hadd⟩ : ∃ scopes, s'.scopes.addBinding r.2 ⟨[name], source, false⟩ = .ok scopes :=
    ⟨_, if_pos (by rw [hscopes]; exact hlt)⟩
  have hget := ScopeTree.get?_addBinding hadd
  refine ⟨{ s' with scopes }, Validation.bindName_of_addBinding hadd,
    ⟨fun id found hfound => ?_, hleaves.sources, hleaves.items, hleaves.selfViews⟩, h.around, h.new,
    { scope with bindings := scope.bindings ++ [⟨[name], source, false⟩] }, around, ?_, hrole, hparent,
    haround, hdepth, ?_⟩
  · have hne : id ≠ r.2 := by
      rintro rfl
      rw [h.new] at hfound
      cases hfound
    exact (hget id).trans ((if_neg hne).trans (hleaves.scopes id found hfound))
  · refine (hget r.2).trans ((if_pos rfl).trans ?_)
    rw [hscopes, hscope]
    rfl
  · have hkept : List.Forall₂ (Binding.Shows s'.sources) scope.bindings shown := by
      refine hbindings.imp fun _ _ hb => ⟨hb.names, hb.nullable, ?_⟩
      obtain ⟨e, he, hrow⟩ := Option.map_eq_some_iff.mp hb.row
      rw [RowSources.row?_of_get? (hold _ e he), hrow]
    exact List.rel_append hkept (.cons ⟨rfl, rfl, hrow⟩ .nil)

/-- A place in a query, reached from `r.2`, and what is seen from there. -/
structure Inside (own : NodeId → Prop) (view : View) (r : ScopeId × Session) (s : Session) : Prop where
  leaves : r.2.Leaves own s
  sees : s.Sees r.1 view

theorem Inside.leaves_of {r : ScopeId × Session} (h : Inside own view r s) (hleaves : s.Leaves own' s')
    (hown : ∀ id, own' id → own id) (hspares : view.Spares own') : Inside own view r s' :=
  ⟨h.leaves.trans (hleaves.mono hown), h.sees.leaves hleaves hspares⟩

/-- The source `r.2` of a WITH item below `r.1.1`, in a session that goes on from `r.1.2`. It was
    registered since. -/
structure Opens (b : Session) (item : NodeId) (view : View) (r : (ScopeId × Session) × SourceId)
    (s : Session) : Prop where
  leaves : r.1.2.Leaves (b.Below item) s
  around : r.1.2.Sees r.1.1 view
  new : r.1.2.sources.get? r.2 = none
  here : ∃ e, s.sources.get? r.2 = some e
  item : s.sources.ofNode? item = some r.2

/-! ### Parts -/

/-- No WITH item that validation gets to from `x` is recursive. -/
def Plain (b : Session) (x : NodeId) : Prop :=
  ∀ item w, b.Below x item → b.tree.node? item = some (.withItem w) → w.recursive = false

theorem Plain.below {x y : NodeId} (h : b.Plain x) (hy : b.Below x y) : b.Plain y :=
  fun item w hitem => h item w (hy.trans hitem)

/-- Parts without recursive items are settled by validation to the given depth. -/
structure SettlesParts (b : Session) (depth : Nat) : Prop where
  query : ∀ view q, q.index < b.tree.size → view.Spares (b.Below q) → b.Plain q →
    b.Settles depth view (b.Below q) fun v scope => v.query scope q
  expression : ∀ view e, e.index < b.tree.size → view.Spares (b.Below e) → b.Plain e →
    b.Settles depth view (b.Below e) fun v scope => v.expression scope e

/-- The nodes below one of several. -/
def BelowAny (b : Session) (xs : List NodeId) (id : NodeId) : Prop := ∃ x ∈ xs, b.Below x id

section

variable (hforest : b.tree.IsForest) (hcoercion : b.settings.coercion = true)
  (hparts : b.SettlesParts depth)

include hforest

/-- The nodes below different children of a node are different. -/
theorem below_disjoint {p x y : NodeId} (hx : b.tree.Child p x) (hy : b.tree.Child p y)
    (hne : x ≠ y) (id : NodeId) (hid : b.Below x id) : ¬ b.Below y id :=
  fun hid' => hforest.siblings_apart hx hy hne (Tree.Below.child hid) (Tree.Below.child hid')

theorem belowAny_disjoint {p : NodeId} {xs ys : List NodeId} (hxs : ∀ x ∈ xs, b.tree.Child p x)
    (hys : ∀ y ∈ ys, b.tree.Child p y) (hne : ∀ x ∈ xs, x ∉ ys) (id : NodeId)
    (hid : b.BelowAny xs id) : ¬ b.BelowAny ys id := by
  rintro ⟨y, hy, hyid⟩
  obtain ⟨x, hx, hxid⟩ := hid
  refine below_disjoint hforest (hxs x hx) (hys y hy) ?_ id hxid hyid
  rintro rfl
  exact hne x hx hy

omit hforest in
/-- A node of the statement that is no call is read as it was written. -/
theorem node_bind_of_written {α : Type} {id : NodeId} {n : Node} (hn : b.tree.node? id = some n)
    (ho : n.operands? = none) {s : Session} (hs : s.Rewrites b.tree) (f : Node → Validation α) :
    (Validation.node id >>= f) s = f n s :=
  bind_of_ok (node_of_some (hs.rewritten.other id n hn ho)) f

/-! ### FROM lists -/

omit hforest in
/-- A query of a FROM list is bound once its row type is known. -/
theorem Fills.exists_bindDerived (h : Fills own view shown r s) (block : NodeId) {entry : NodeId}
    (hentry : own entry) (label : String) (row : DataType) :
    ∃ s', bindDerived r.2 block entry label row s = (.ok (), s') ∧
      Fills own view (shown ++ [⟨[label], false, row⟩]) r s' := by
  obtain ⟨source, s₁, hregister, hleaves₁, hnew, ⟨e, he⟩, -, hscopes₁⟩ :=
    s.exists_register own .query (some block) hentry
  obtain ⟨s₂, hset, hleaves₂, hrow, -, hscopes₂⟩ := exists_setRow hleaves₁ hnew he row
  have hleaves : r.1.2.Leaves own { s₂ with types := s₂.types.put entry row } :=
    (h.leaves.trans hleaves₂).trans (.of_same rfl rfl)
  obtain ⟨s', hbind, hfills⟩ := h.bindName label hleaves hleaves₂.sources
    (hscopes₂.trans hscopes₁) hrow
  refine ⟨s', ?_, hfills⟩
  unfold bindDerived
  rw [bind_of_ok hregister, bind_of_ok hset]
  exact hbind

omit hforest in
/-- A table of a FROM list is found once more. -/
theorem repeats_bindTable {entry : NodeId} (hsize : entry.index < b.tree.size)
    (hspares : view.Spares own) (name : List String) (label : Option String) :
    b.Repeats depth (fun _ => False) (Fills own view shown)
      (fun _ r => bindTable r.1.1 r.2 entry name label)
      fun (w : Shown) r _ s => Fills own view (shown ++ [w]) r s := by
  refine .of_quiet (fun r s => Quiet.keeps_bindTable hsize name label) ?_
  rintro r s ⟨⟩ s' hs hfills hok
  -- What the first run has found.
  obtain ⟨found, exposed, hfound, hremaining, hexposed⟩ : ∃ found exposed,
      s.scopes.requireTable r.1.1 name s.settings.matching s.sources = .ok found ∧
        found.remaining = [] ∧ exposedName? name label = some exposed := by
    rcases bindTable_cases r.1.1 r.2 entry name label s with
      ⟨e, he⟩ | ⟨found, hfound, hremaining, ⟨-, -, e, he⟩ | ⟨exposed, types, hexposed, -⟩⟩
    · rw [hok] at he
      cases he
    · rw [hok] at he
      cases he
    · exact ⟨found, exposed, hfound, hremaining, hexposed⟩
  obtain ⟨_, -, halike⟩ := requireTable_of_sees (hfills.sees_around hspares)
    (hfills.sees_around hspares) rfl hfound
  obtain ⟨row, hrow, -⟩ := halike.row
  -- Every run that finds such a table binds it.
  have hbinds : ∀ (r : (ScopeId × Session) × ScopeId) (t : Session) (found : TableMatch),
      Fills own view shown r t →
        t.scopes.requireTable r.1.1 name t.settings.matching t.sources = .ok found →
          found.remaining = [] → t.sources.row? found.source = some row →
            ∃ t', bindTable r.1.1 r.2 entry name label t = (.ok (), t') ∧
              Fills own view (shown ++ [⟨[exposed], false, row⟩]) r t' := by
    intro r t found hfills hfound hremaining hrow
    rw [bindTable_of_found hfound hremaining hexposed]
    exact hfills.bindName exposed (hfills.leaves.trans (.of_same rfl rfl)) (fun _ _ h => h) rfl hrow
  obtain ⟨s₁, hrun, hfills₁⟩ := hbinds r s found hfills hfound hremaining hrow
  rw [hok] at hrun
  cases hrun
  refine ⟨_, hfills₁, fun r' t ht hfills' => ?_⟩
  have hmatching : t.settings.matching = s.settings.matching := by
    rw [ht.matching, hs.settings]
  obtain ⟨found', hfound', halike⟩ := requireTable_of_sees (hfills.sees_around hspares)
    (hfills'.sees_around hspares) hmatching hfound
  obtain ⟨row', hrow₁, hrow₂⟩ := halike.row
  obtain rfl := Option.some.inj (hrow.symm.trans hrow₁)
  obtain ⟨t', hrun, hfills₂⟩ := hbinds r' t found' hfills' hfound'
    (halike.remaining.trans hremaining) hrow₂
  exact ⟨(), t', hrun, hfills₂⟩

include hcoercion hparts

/-- One entry of a FROM list shows the same table each time. -/
theorem repeats_bindSource (shown : List Shown) {q entry : NodeId} {block : SelectBlock}
    (hq : b.tree.node? q = some (.select block))
    (hentry : entry ∈ block.sources) (hspares : view.Spares (b.Below q)) (hplain : b.Plain q) :
    b.Repeats depth (b.Below entry) (Fills (b.Below q) view shown)
      (fun v r => bindSource v r.1.1 r.2 q entry)
      fun (w : Shown) r _ s => Fills (b.Below q) view (shown ++ [w]) r s := by
  have hvisit : b.tree.Visits b.operators q entry :=
    Tree.visits_of_isClause hq rfl (by simp [Node.children, hentry])
  have hsize := hforest.lt_size_of_child hvisit.child
  by_cases htable : ∃ name label, b.tree.node? entry = some (.tableRef name label)
  · obtain ⟨name, label, hn⟩ := htable
    refine Repeats.congr ((repeats_bindTable hsize hspares name label).imp (fun _ h => h.elim)
      (fun _ _ h => h) fun w => ⟨w, fun _ _ _ h => h⟩) fun v r s hs => ?_
    exact node_bind_of_written hn rfl hs _
  by_cases hderived : ∃ query label, b.tree.node? entry = some (.subqueryRef query label)
  · obtain ⟨query, label, hn⟩ := hderived
    have hbelow : b.tree.Visits b.operators entry query :=
      Tree.visits_of_isClause hn rfl (by simp [Node.children])
    have hunder : ∀ id, b.Below query id → b.Below q id := fun id hid => .head hvisit (.head hbelow hid)
    have hquery := hparts.query view query (hforest.lt_size_of_child hbelow.child)
      (hspares.mono hunder) (hplain.below (hunder query .refl))
    have hfirst := hquery.repeats (P := Fills (b.Below q) view shown) (fun r => r.1.1)
      (fun r s h => h.sees_around hspares) fun r s s' h hleaves => h.leaves_of hleaves hunder
    have hboth := hfirst.bind_value (fun _ => False)
      (f := fun _ r row => bindDerived r.2 q entry label row)
      (R := fun (w : Shown) r (_ : Unit) s => Fills (b.Below q) view (shown ++ [w]) r s) ?_
      fun _ _ h => h
    · refine Repeats.congr (hboth.imp ?_ (fun _ _ h => h) fun w => ⟨w, fun _ _ _ h => h⟩)
        fun v r s hs => node_bind_of_written hn rfl hs _
      rintro id (hid | hid)
      · exact .head hbelow hid
      · exact hid.elim
    · intro row
      refine (Repeats.of_total (Q := fun r _ s =>
          Fills (b.Below q) view (shown ++ [⟨[label], false, row⟩]) r s)
        (fun r s => Quiet.keeps_bindDerived hsize label row)
        (fun r s _ hfills => ⟨(), hfills.exists_bindDerived q (.single hvisit) label row⟩)
        hcoercion).imp (fun _ h => h) (fun _ _ h => h) fun _ => ?_
      exact ⟨⟨[label], false, row⟩, fun _ _ _ h => h⟩
  -- Any other entry is refused.
  · refine .of_refused fun v r s a s' hs hok => ?_
    obtain ⟨n, s₁, hnode, hrest⟩ := bind_eq_ok_iff.mp hok
    obtain ⟨rfl, hn⟩ := node_eq_ok hnode
    cases n with
    | tableRef name label =>
      exact htable ⟨name, label, hs.rewrites.node?_of_isClause hn rfl⟩
    | subqueryRef query label =>
      exact hderived ⟨query, label, hs.rewrites.node?_of_isClause hn rfl⟩
    | _ => cases hrest

/-- The entries of a FROM list, one after the other. -/
theorem repeats_sources (shown : List Shown) {q : NodeId} {block : SelectBlock}
    (hq : b.tree.node? q = some (.select block))
    {entries : List NodeId} (hsub : ∀ e ∈ entries, e ∈ block.sources) (hnodup : entries.Nodup)
    (hspares : view.Spares (b.Below q)) (hplain : b.Plain q) :
    b.Repeats depth (b.BelowAny entries) (Fills (b.Below q) view shown)
      (fun v r => entries.forM (bindSource v r.1.1 r.2 q))
      fun (ws : List Shown) r _ s => Fills (b.Below q) view (shown ++ ws) r s := by
  induction entries generalizing shown with
  | nil =>
    refine Repeats.imp (Repeats.pure (a := fun _ => ()) (Q := fun r _ s =>
      Fills (b.Below q) view shown r s) fun r s h => h) (fun _ h => h) (fun _ _ h => h) fun _ => ⟨[], ?_⟩
    intro r _ s h
    rwa [List.append_nil]
  | cons entry rest ih =>
    obtain ⟨hnot, hnodup⟩ := List.nodup_cons.mp hnodup
    have hchild : ∀ e ∈ entry :: rest, b.tree.Child q e := fun e he =>
      ⟨_, hq, by simp [Node.children, hsub e he]⟩
    have hfirst := repeats_bindSource hforest hcoercion hparts shown hq
      (hsub entry (List.mem_cons_self ..)) hspares hplain
    have hall := hfirst.bind (b.BelowAny rest)
      (f := fun v r _ => rest.forM (bindSource v r.1.1 r.2 q))
      (R := fun (ws : List Shown) r (_ : Unit) s => Fills (b.Below q) view (shown ++ ws) r s) ?_ ?_
    · refine hall.imp ?_ (fun _ _ h => h) fun ws => ⟨ws, fun _ _ _ h => h⟩
      rintro id (hid | ⟨x, hx, hid⟩)
      · exact ⟨entry, List.mem_cons_self .., hid⟩
      · exact ⟨x, List.mem_cons_of_mem _ hx, hid⟩
    · intro w
      have hrest := (ih (shown ++ [w]) (fun e he => hsub e (List.mem_cons_of_mem _ he))
        hnodup).comap (Prod.fst : ((ScopeId × Session) × ScopeId) × Unit → _)
      refine hrest.imp (fun _ h => h) (fun _ _ h => h) fun ws => ⟨w :: ws, fun r _ s h => ?_⟩
      rwa [List.append_assoc] at h
    · intro id hid
      have hone : b.BelowAny [entry] id := ⟨entry, by simp, hid⟩
      refine belowAny_disjoint hforest ?_ (fun y hy => hchild y (by simp [hy])) ?_ id hone
      · intro x hx
        obtain rfl := List.mem_singleton.mp hx
        exact hchild x (by simp)
      · intro x hx
        obtain rfl := List.mem_singleton.mp hx
        exact hnot

/-! ### SELECT lists -/

omit hforest hcoercion hparts in
/-- The name of a column does not depend on what has been inserted into the statement. -/
theorem baseName_of_rewrites {id : NodeId} {n n₀ : Node} (hs : s.Rewrites b.tree)
    (hn₀ : b.tree.node? id = some n₀) (hn : s.tree.node? id = some n) (label : Option String)
    (place : Nat) : baseName label n place = baseName label n₀ place := by
  cases n₀ with
  | call name operands =>
    obtain ⟨current, hcall, -⟩ := hs.rewritten.call id name operands hn₀
    obtain rfl := Option.some.inj (hcall.symm.trans hn)
    cases label with
    | none => rfl
    | some l => rfl
  | _ => rw [Option.some.inj ((hs.rewritten.other id _ hn₀ rfl).symm.trans hn)]

omit hcoercion in
/-- An entry of a SELECT list has the same columns each time. -/
theorem repeats_itemColumns (shown : List Shown) {q : NodeId} {block : SelectBlock}
    (hq : b.tree.node? q = some (.select block)) {item : SelectItem} (hitem : item ∈ block.items)
    (hspares : view.Spares (b.Below q)) (hplain : b.Plain q) (columns : Columns) (place : Nat) :
    b.Repeats depth (b.BelowAny (Node.itemChild item)) (Fills (b.Below q) view shown)
      (fun v r => itemColumns v r.2 columns place item)
      fun (columns : Columns) r a s => a = columns ∧ Fills (b.Below q) view shown r s := by
  cases item with
  | star =>
    refine .of_quiet
      (x := fun r : (ScopeId × Session) × ScopeId => itemColumns (visitAt 0) r.2 columns place .star)
      (fun r s => keeps_state.bind fun _ => keeps_pure _) ?_
    rintro r s a s' hs hfills ⟨⟩
    refine ⟨_, ⟨rfl, hfills⟩, fun r' t ht hfills' => ⟨_, t, rfl, ?_, hfills'⟩⟩
    obtain ⟨scope, -, hscope, -, -, -, -, hbindings⟩ := hfills.scope
    obtain ⟨scope', -, hscope', -, -, -, -, hbindings'⟩ := hfills'.scope
    rw [hscope, hscope']
    exact addBindings_of_shows hbindings hbindings' columns
  | expression e label =>
    have hchild : b.tree.Visits b.operators q e := by
      refine Tree.visits_of_isClause hq rfl ?_
      simp only [Node.children, List.mem_append, List.mem_flatMap]
      exact .inl (.inl ⟨_, hitem, by simp [Node.itemChild]⟩)
    have hunder : ∀ id, b.Below e id → b.Below q id := fun id hid => .head hchild hid
    have hsize := hforest.lt_size_of_child hchild.child
    have hfirst := (hparts.expression (.block shown :: view) e hsize
      ((hspares.mono hunder).cons fun _ hitem => by cases hitem)
      (hplain.below (hunder e .refl))).repeats (P := Fills (b.Below q) view shown) (fun r => r.2)
      (fun r s h => h.sees hspares) fun r s s' h hleaves => h.leaves_of hleaves hunder
    · have hboth := hfirst.bind_value (fun _ => False)
        (f := fun _ _ type => do
          let node ← Validation.node e
          return columns.add (baseName label node place) type)
        (R := fun (columns : Columns) r a s => a = columns ∧ Fills (b.Below q) view shown r s) ?_
        fun _ _ h => h
      · refine hboth.imp ?_ (fun _ _ h => h) fun columns => ⟨columns, fun _ _ _ h => h⟩
        rintro id (hid | hid)
        · exact ⟨e, List.mem_singleton.mpr rfl, hid⟩
        · exact hid.elim
      · intro type
        obtain ⟨n₀, hn₀⟩ := Option.isSome_iff_exists.mp (Tree.isSome_node?_iff.mpr hsize)
        refine Repeats.congr ((Repeats.pure (a := fun _ => columns.add (baseName label n₀ place) type)
          (Q := fun r a s => a = columns.add (baseName label n₀ place) type ∧
            Fills (b.Below q) view shown r s) fun r s h => ⟨rfl, h⟩).imp (fun _ h => h)
          (fun _ _ h => h) fun _ => ⟨_, fun _ _ _ h => h⟩) fun v r s hs => ?_
        -- The node is there in every session, and gives the same name.
        obtain ⟨n, hn⟩ := Option.isSome_iff_exists.mp (Tree.isSome_node?_iff.mpr
          (Nat.lt_of_lt_of_le hsize hs.rewritten.size_le))
        rw [bind_of_ok (node_of_some hn), baseName_of_rewrites hs hn₀ hn]

omit hcoercion in
/-- The entries of a SELECT list, one after the other. -/
theorem repeats_selectColumns (shown : List Shown) {q : NodeId} {block : SelectBlock}
    (hq : b.tree.node? q = some (.select block)) {items : List SelectItem}
    (hsub : ∀ item ∈ items, item ∈ block.items) (hnodup : (items.flatMap Node.itemChild).Nodup)
    (hspares : view.Spares (b.Below q)) (hplain : b.Plain q) (columns : Columns) (place : Nat) :
    b.Repeats depth (b.BelowAny (items.flatMap Node.itemChild)) (Fills (b.Below q) view shown)
      (fun v r => selectColumns v r.2 columns place items)
      fun (columns : Columns) r a s => a = columns ∧ Fills (b.Below q) view shown r s := by
  induction items generalizing columns place with
  | nil =>
    exact Repeats.imp (Repeats.pure (a := fun _ => columns) (Q := fun r a s =>
      a = columns ∧ Fills (b.Below q) view shown r s) fun r s h => ⟨rfl, h⟩) (fun _ h => h)
      (fun _ _ h => h) fun _ => ⟨columns, fun _ _ _ h => h⟩
  | cons item rest ih =>
    rw [List.flatMap_cons, List.nodup_append'] at hnodup
    obtain ⟨-, hrestNodup, hdisjoint⟩ := hnodup
    have hchild : ∀ x ∈ (item :: rest).flatMap Node.itemChild, b.tree.Child q x := by
      intro x hx
      obtain ⟨i, hi, hx⟩ := List.mem_flatMap.mp hx
      refine ⟨_, hq, ?_⟩
      simp only [Node.children, List.mem_append, List.mem_flatMap]
      exact .inl (.inl ⟨i, hsub i hi, hx⟩)
    rw [List.flatMap_cons] at hchild ⊢
    have hfirst := repeats_itemColumns hforest hparts shown hq
      (hsub item (List.mem_cons_self ..)) hspares hplain columns place
    have hall := hfirst.bind_value (b.BelowAny (rest.flatMap Node.itemChild))
      (f := fun v r columns => selectColumns v r.2 columns (place + 1) rest)
      (R := fun (columns : Columns) r a s => a = columns ∧ Fills (b.Below q) view shown r s)
      (fun columns => ih (fun i hi => hsub i (List.mem_cons_of_mem _ hi)) hrestNodup columns (place + 1))
      (belowAny_disjoint hforest (fun x hx => hchild x (by simp [hx]))
        (fun y hy => hchild y (by simp [hy])) fun x hx hx' => hdisjoint hx hx')
    refine hall.imp ?_ (fun _ _ h => h) fun columns => ⟨columns, fun _ _ _ h => h⟩
    rintro id (⟨x, hx, hid⟩ | ⟨x, hx, hid⟩)
    · exact ⟨x, List.mem_append_left _ hx, hid⟩
    · exact ⟨x, List.mem_append_right _ hx, hid⟩

omit hforest hparts in
/-- The scope of a SELECT is opened, with nothing in it. -/
theorem repeats_newBlock (depth : Nat) (view : View) (own : NodeId → Prop) (q : NodeId) :
    b.Repeats depth (fun _ => False) (fun (r : ScopeId × Session) s => s = r.2 ∧ s.Sees r.1 view)
      (fun _ r => Validation.onScopes (·.newBlock r.1 (some q)))
      fun (_ : Unit) r scope s => Fills own view [] (r, scope) s := by
  refine .of_total (fun r s => Quiet.keeps_newScope _ _ _) ?_ hcoercion
  rintro ⟨parent, start⟩ s - ⟨rfl, hsees⟩
  obtain ⟨around, haround⟩ := hsees.exists_scope
  obtain ⟨scope, s', hrun, hleaves, -, hnew, hscope⟩ := exists_newScope own haround .block (some q)
  exact ⟨scope, s', hrun, hleaves, hsees, hnew, _, around, hscope, rfl, rfl, haround, rfl, .nil⟩

omit hcoercion in
/-- The condition of a SELECT, if there is one, and its columns. -/
theorem repeats_selectTail (shown : List Shown) {q : NodeId} {block : SelectBlock}
    (hq : b.tree.node? q = some (.select block)) (hspares : view.Spares (b.Below q))
    (hplain : b.Plain q) :
    b.Repeats depth (b.BelowAny (block.condition.toList ++ block.items.flatMap Node.itemChild))
      (Fills (b.Below q) view shown) (fun v r => selectTail v r.2 block)
      fun type r a s => a = type ∧ Fills (b.Below q) view shown r s := by
  have hnodup : (block.items.flatMap Node.itemChild ++ block.sources ++ block.condition.toList).Nodup :=
    hforest.nodup_children hq
  have hchild : ∀ x ∈ block.items.flatMap Node.itemChild ++ block.sources ++ block.condition.toList,
      b.tree.Visits b.operators q x := fun x hx => Tree.visits_of_isClause hq rfl hx
  rw [List.nodup_append', List.nodup_append'] at hnodup
  obtain ⟨⟨hitems, -, -⟩, -, hapart⟩ := hnodup
  have hcolumns := (repeats_selectColumns hforest hparts shown hq (fun _ h => h) hitems
    hspares hplain [] 0).bind_value (fun _ => False)
    (f := fun _ _ columns => Pure.pure (DataType.row columns))
    (R := fun type r a s => a = type ∧ Fills (b.Below q) view shown r s)
    (fun columns => (Repeats.pure (a := fun _ => DataType.row columns)
      (Q := fun r a s => a = DataType.row columns ∧ Fills (b.Below q) view shown r s)
        fun r s h => ⟨rfl, h⟩).imp (fun _ h => h) (fun _ _ h => h) fun _ => ⟨_, fun _ _ _ h => h⟩)
    fun _ _ h => h
  unfold selectTail
  cases hc : block.condition with
  | none =>
    refine Repeats.congr (hcolumns.imp ?_ (fun _ _ h => h) fun type => ⟨type, fun _ _ _ h => h⟩)
      fun v r s _ => rfl
    rintro id (hid | hid)
    · exact hid
    · exact hid.elim
  | some c =>
    rw [hc] at hchild hapart
    have hvisit : b.tree.Visits b.operators q c := hchild c (by simp)
    have hunder : ∀ id, b.Below c id → b.Below q id := fun id hid => .head hvisit hid
    have hfirst := (hparts.expression (.block shown :: view) c (hforest.lt_size_of_child hvisit.child)
      ((hspares.mono hunder).cons fun _ hitem => by cases hitem) (hplain.below (hunder c .refl))).repeats
        (P := Fills (b.Below q) view shown) (fun r => r.2) (fun r s h => h.sees hspares)
        fun r s s' h hleaves => h.leaves_of hleaves hunder
    · have hboth := hfirst.bind_value _ (fun _ => hcolumns) ?_
      · refine hboth.imp ?_ (fun _ _ h => h) fun type => ⟨type, fun _ _ _ h => h⟩
        rintro id (hid | ⟨x, hx, hid⟩ | hid)
        · exact ⟨c, by simp, hid⟩
        · exact ⟨x, List.mem_append_right _ hx, hid⟩
        · exact hid.elim
      · rintro id hid (⟨x, hx, hid'⟩ | hid')
        · refine below_disjoint hforest hvisit.child (hchild x (by simp [hx])).child ?_ id hid hid'
          rintro rfl
          exact hapart (List.mem_append_left _ hx) (by simp)
        · exact hid'

/-- A SELECT has the same columns each time. -/
theorem repeats_selectRow {q : NodeId} {block : SelectBlock}
    (hq : b.tree.node? q = some (.select block)) (hspares : view.Spares (b.Below q))
    (hplain : b.Plain q) :
    b.Repeats depth (b.Below q) (fun (r : ScopeId × Session) s => s = r.2 ∧ s.Sees r.1 view)
      (fun v r => selectRow v r.1 q block)
      fun type r a s => a = type ∧ r.2.Leaves (b.Below q) s := by
  have hnodup : (block.items.flatMap Node.itemChild ++ block.sources ++ block.condition.toList).Nodup :=
    hforest.nodup_children hq
  have hchild : ∀ x ∈ block.items.flatMap Node.itemChild ++ block.sources ++ block.condition.toList,
      b.tree.Visits b.operators q x := fun x hx => Tree.visits_of_isClause hq rfl hx
  rw [List.nodup_append', List.nodup_append'] at hnodup
  obtain ⟨⟨hitems, hsources, hapart⟩, -, hapart'⟩ := hnodup
  have htail := fun shown => (repeats_selectTail hforest hparts shown hq hspares
    hplain).comap (Prod.fst : ((ScopeId × Session) × ScopeId) × Unit → _)
  have hlist := (repeats_sources hforest hcoercion hparts [] hq (fun _ h => h) hsources
    hspares hplain).bind _ (R := fun type r a s => a = type ∧ r.1.2.Leaves (b.Below q) s)
      (f := fun v r _ => selectTail v r.2 block)
      (fun shown => (htail shown).imp (fun _ h => h) (fun _ _ h => h) fun type =>
        ⟨type, fun _ _ _ h => ⟨h.1, h.2.leaves⟩⟩) ?_
  · have hall := (repeats_newBlock hcoercion depth view (b.Below q) q).bind
      (fun id => b.BelowAny block.sources id ∨
        b.BelowAny (block.condition.toList ++ block.items.flatMap Node.itemChild) id)
      (f := fun v r scope => block.sources.forM (bindSource v r.1 scope q) >>= fun _ =>
        selectTail v scope block)
      (R := fun type r a s => a = type ∧ r.2.Leaves (b.Below q) s) (fun _ => ?_) fun _ h => h.elim
    · refine Repeats.congr (hall.imp ?_ (fun _ _ h => h) fun type => ⟨type, fun _ _ _ h => h⟩)
        fun v r s _ => congrFun (selectRow_eq v r.1 q block) s
      rintro id (hid | ⟨x, hx, hid⟩ | ⟨x, hx, hid⟩)
      · exact hid.elim
      · exact .head (hchild x (by simp [hx])) hid
      · refine .head (hchild x ?_) hid
        rcases List.mem_append.mp hx with hx | hx
        · exact List.mem_append_right _ hx
        · exact List.mem_append_left _ (List.mem_append_left _ hx)
    · exact hlist
  · refine belowAny_disjoint hforest (fun x hx => (hchild x (by simp [hx])).child) (fun y hy => ?_) ?_
    · refine (hchild y ?_).child
      rcases List.mem_append.mp hy with hy | hy
      · exact List.mem_append_right _ hy
      · exact List.mem_append_left _ (List.mem_append_left _ hy)
    · intro x hx hx'
      rcases List.mem_append.mp hx' with hx' | hx'
      · exact hapart' (List.mem_append_right _ hx) hx'
      · exact hapart hx' hx

/-! ### Parts that are queries -/

omit hforest hcoercion in
/-- A query below another one has the same row each time. -/
theorem repeats_part {q part : NodeId} (hsize : part.index < b.tree.size)
    (hunder : ∀ id, b.Below part id → b.Below q id) (hspares : view.Spares (b.Below part))
    (hplain : b.Plain q) :
    b.Repeats depth (b.Below part) (Inside (b.Below q) view) (fun v r => v.query r.1 part)
      fun row r a s => a = row ∧ Inside (b.Below q) view r s :=
  (hparts.query view part hsize hspares (hplain.below (hunder part .refl))).repeats
    Prod.fst (fun r s (h : Inside _ _ r s) => h.sees) fun r s _ (h : Inside _ _ r s) hleaves =>
      h.leaves_of hleaves hunder hspares

omit hcoercion in
/-- A set operation has the same columns each time. -/
theorem repeats_setOperationRow {q : NodeId} {operation : SetOperation}
    (hq : b.tree.node? q = some (.setOperation operation)) (hspares : view.Spares (b.Below q))
    (hplain : b.Plain q) :
    b.Repeats depth (b.Below q) (Inside (b.Below q) view)
      (fun v r => setOperationRow v r.1 operation)
      fun row r a s => a = row ∧ Inside (b.Below q) view r s := by
  have hleft : b.tree.Visits b.operators q operation.left :=
    Tree.visits_of_isClause hq rfl (by simp [Node.children])
  have hright : b.tree.Visits b.operators q operation.right :=
    Tree.visits_of_isClause hq rfl (by simp [Node.children])
  have hnodup : [operation.left, operation.right].Nodup := hforest.nodup_children hq
  have hunder : ∀ id, b.Below operation.left id → b.Below q id := fun id hid => .head hleft hid
  have hunder' : ∀ id, b.Below operation.right id → b.Below q id := fun id hid => .head hright hid
  have hboth := (repeats_part hparts (hforest.lt_size_of_child hleft.child) hunder
    (hspares.mono hunder) hplain).bind_value (fun id => b.Below operation.right id ∨ False)
    (f := fun v r left => v.query r.1 operation.right >>= fun right =>
      Checking.ofExcept (unionRow operation.name left right))
    (R := fun row r a s => a = row ∧ Inside (b.Below q) view r s) ?_ ?_
  · refine Repeats.congr (hboth.imp ?_ (fun _ _ h => h) fun row => ⟨row, fun _ _ _ h => h⟩)
      fun v r s _ => rfl
    rintro id (hid | hid | hid)
    · exact hunder id hid
    · exact hunder' id hid
    · exact hid.elim
  · intro left
    exact (repeats_part hparts (hforest.lt_size_of_child hright.child) hunder'
      (hspares.mono hunder') hplain).bind_value (fun _ => False)
      (fun right => Repeats.ofExcept _) fun _ _ h => h
  · rintro id hid (hid' | hid')
    · exact below_disjoint hforest hleft.child hright.child (by simpa using hnodup) id hid hid'
    · exact hid'

/-! ### WITH clauses -/

omit hforest hparts in
/-- The row source of a WITH item is registered; its row type is not known yet. -/
theorem repeats_register (depth : Nat) (view : View) (item : NodeId) :
    b.Repeats depth (fun _ => False) (fun (r : ScopeId × Session) s => s = r.2 ∧ s.Sees r.1 view)
      (fun _ _ => Validation.register item .withItem none)
      fun (_ : Unit) r source s => Opens b item view (r, source) s := by
  refine .of_total (fun r s => Quiet.keeps_register _ _ _) ?_ hcoercion
  rintro ⟨scope, start⟩ s - ⟨rfl, hsees⟩
  obtain ⟨source, s', hrun, hleaves, hnew, hhere, hitem, -⟩ :=
    s.exists_register (b.Below item) .withItem none .refl
  exact ⟨source, s', hrun, hleaves, hsees, hnew, hhere, hitem⟩

omit hforest hcoercion hparts in
/-- A WITH item whose query has been validated is shown in a scope of its own. -/
theorem Opens.exists_newWithItem {item : NodeId} {r : (ScopeId × Session) × SourceId}
    (h : Opens b item view r s) (hspares : view.Spares (b.Below item)) (name : String)
    (row : DataType) :
    ∃ scope s', (do
        Validation.setRow r.2 row
        Validation.record item row
        Validation.onScopes (·.newWithItem r.1.1 item name) : Validation ScopeId) s =
          (.ok scope, s') ∧
      r.1.2.Leaves (b.Below item) s' ∧ s'.Sees scope (.item item name row [] :: view) := by
  obtain ⟨e, he⟩ := h.here
  obtain ⟨s₁, hset, hleaves, hrow, hnodes, hscopes⟩ := exists_setRow h.leaves h.new he row
  have hsees : s₁.Sees r.1.1 view := h.around.leaves hleaves hspares
  obtain ⟨around, haround⟩ := hsees.exists_scope
  have hleaves₁ : s₁.Leaves (b.Below item) { s₁ with types := s₁.types.put item row } :=
    .of_same rfl rfl
  obtain ⟨scope, s', hnew, hleaves₂, hsources, -, hscope⟩ :=
    exists_newScope (b.Below item) (s := { s₁ with types := s₁.types.put item row }) haround
      (.withItem item name) (some item)
  have hafter := hleaves₁.trans hleaves₂
  refine ⟨scope, s', ?_, hleaves.trans hafter, ?_⟩
  · rw [bind_of_ok hset]
    exact hnew
  · have hid : s'.sources.ofNode? item = some r.2 := by
      rw [hsources]
      refine Eq.trans ?_ h.item
      show s₁.sources.byNode.get? item = s.sources.byNode.get? item
      rw [hnodes]
    have hrow : s'.sources.row? r.2 = some row := by
      rw [hsources]
      exact hrow
    exact .inner hscope rfl (hafter.scopes _ _ haround) rfl (.item rfl .nil hid hrow)
      (hsees.leaves hafter hspares)

omit hforest hparts in
/-- An item whose query has come to a row is shown with it each time. -/
theorem repeats_showItem (depth : Nat) {item : NodeId} (hsize : item.index < b.tree.size)
    (hspares : view.Spares (b.Below item)) (name : String) (row : DataType) :
    b.Repeats depth (fun _ => False)
      (fun (r : (ScopeId × Session) × SourceId) s => Opens b item view r s)
      (fun _ r => do
        Validation.setRow r.2 row
        Validation.record item row
        Validation.onScopes (·.newWithItem r.1.1 item name))
      fun row r scope s => r.1.2.Leaves (b.Below item) s ∧ s.Sees scope (.item item name row [] :: view) := by
  refine (Repeats.of_total (Q := fun r scope s => r.1.2.Leaves (b.Below item) s ∧
      s.Sees scope (.item item name row [] :: view)) (fun r s => ?_)
    (fun r s _ h => h.exists_newWithItem hspares name row) hcoercion).imp (fun _ h => h) (fun _ _ h => h)
    fun _ => ⟨row, fun _ _ _ h => h⟩
  exact (Quiet.keeps_setRow _ _).bind fun _ => (Quiet.keeps_record hsize _).bind
    fun _ => Quiet.keeps_newScope _ _ _

/-- The query of an item that is not recursive comes to the same row each time, and the item is shown with
    its columns under the names of the item. -/
theorem repeats_openedItem {item : NodeId} {w : WithItem}
    (hitem : b.tree.node? item = some (.withItem w)) (hspares : view.Spares (b.Below item))
    (hplain : b.Plain item) :
    b.Repeats depth (fun id => b.Below w.query id ∨ False ∨ False)
      (fun (r : (ScopeId × Session) × SourceId) s => Opens b item view r s)
      (fun v r => v.query r.1.1 w.query >>= fun body =>
        Checking.ofExcept (renamed (qualifiedName w.name) w.columns body) >>= fun row => do
          Validation.setRow r.2 row
          Validation.record item row
          Validation.onScopes (·.newWithItem r.1.1 item (qualifiedName w.name)))
      fun row r scope s => r.1.2.Leaves (b.Below item) s ∧
        s.Sees scope (.item item (qualifiedName w.name) row [] :: view) := by
  have hvisit : b.tree.Visits b.operators item w.query :=
    Tree.visits_of_isClause hitem rfl (by simp [Node.children])
  have hunder : ∀ id, b.Below w.query id → b.Below item id := fun id hid => .head hvisit hid
  have hnot : ¬ b.Below w.query item := fun h =>
    hforest.acyclic item (.head' hvisit.child (Tree.Below.child h))
  have hquery := (hparts.query view w.query (hforest.lt_size_of_child hvisit.child)
    (hspares.mono hunder) (hplain.below (hunder w.query .refl))).repeats
      (P := fun (r : (ScopeId × Session) × SourceId) s => Opens b item view r s)
      (fun r => r.1.1) (fun r s h => h.around.leaves h.leaves hspares) fun r s s' h hleaves =>
        ⟨h.leaves.trans (hleaves.mono hunder), h.around, h.new,
          h.here.imp fun e he => hleaves.sources _ _ he, (hleaves.items item hnot).trans h.item⟩
  have hshown := repeats_showItem hcoercion depth (Tree.lt_size_of_node? hitem) hspares
    (qualifiedName w.name)
  exact hquery.bind_value (fun id => False ∨ False)
    (f := fun _ r body => Checking.ofExcept (renamed (qualifiedName w.name) w.columns body) >>=
      fun row => do
        Validation.setRow r.2 row
        Validation.record item row
        Validation.onScopes (·.newWithItem r.1.1 item (qualifiedName w.name)))
    (R := fun row r scope s => r.1.2.Leaves (b.Below item) s ∧
      s.Sees scope (.item item (qualifiedName w.name) row [] :: view))
    (fun body => (Repeats.ofExcept _).bind_value (fun _ => False) hshown fun _ _ h => h)
    fun _ _ h => h.elim (fun h => h) fun h => h

/-- A WITH item that is not recursive is shown with the same row each time. -/
theorem repeats_bindWithItem {item : NodeId} {w : WithItem}
    (hitem : b.tree.node? item = some (.withItem w)) (hspares : view.Spares (b.Below item))
    (hplain : b.Plain item) :
    b.Repeats depth (b.Below item) (fun (r : ScopeId × Session) s => s = r.2 ∧ s.Sees r.1 view)
      (fun v r => bindWithItem v r.1 item)
      fun row r scope s => r.2.Leaves (b.Below item) s ∧
        s.Sees scope (.item item (qualifiedName w.name) row [] :: view) := by
  have hrecursive : w.recursive = false := hplain item w .refl hitem
  have hvisit : b.tree.Visits b.operators item w.query :=
    Tree.visits_of_isClause hitem rfl (by simp [Node.children])
  have hall := (repeats_register hcoercion depth view item).bind
    (fun id => b.Below w.query id ∨ False ∨ False)
    (f := fun v r source => v.query r.1 w.query >>= fun body =>
      Checking.ofExcept (renamed (qualifiedName w.name) w.columns body) >>= fun row => do
        Validation.setRow source row
        Validation.record item row
        Validation.onScopes (·.newWithItem r.1 item (qualifiedName w.name)))
    (R := fun row r scope s => r.2.Leaves (b.Below item) s ∧
      s.Sees scope (.item item (qualifiedName w.name) row [] :: view))
    (fun _ => repeats_openedItem hforest hcoercion hparts hitem hspares hplain) fun _ h => h.elim
  refine Repeats.congr (hall.imp ?_ (fun _ _ h => h) fun row => ⟨row, fun _ _ _ h => h⟩)
    fun v r s hs => ?_
  · rintro id (hid | hid | hid | hid)
    · exact hid.elim
    · exact .head hvisit hid
    · exact hid.elim
    · exact hid.elim
  · unfold bindWithItem
    rw [Host.lift_self, node_bind_of_written hitem rfl hs]
    simp only [hrecursive, Bool.false_eq_true, if_false]
    rfl

/-- A WITH item, and behind it the others and the body, which see it. -/
theorem repeats_withRow_cons {q body item : NodeId} {w : WithItem} {rest : List NodeId}
    (hitem : b.tree.node? item = some (.withItem w)) (hspares : view.Spares (b.Below item))
    (hplain : b.Plain item) (hunder : ∀ id, b.Below item id → b.Below q id)
    (hapart : ∀ id, b.Below item id → ¬ b.BelowAny (rest ++ [body]) id)
    (hbehind : ∀ row, b.Repeats depth (b.BelowAny (rest ++ [body]))
      (Inside (b.Below q) (.item item (qualifiedName w.name) row [] :: view))
      (fun v r => withRow v r.1 body rest) fun row r a s => a = row ∧ r.2.Leaves (b.Below q) s) :
    b.Repeats depth (b.BelowAny ((item :: rest) ++ [body])) (Inside (b.Below q) view)
      (fun v r => withRow v r.1 body (item :: rest))
      fun row r a s => a = row ∧ r.2.Leaves (b.Below q) s := by
  -- The item, from wherever the ones before it have led.
  have hfirst := (repeats_bindWithItem hforest hcoercion hparts hitem hspares hplain).comap
    (fun r : (ScopeId × Session) × Session => (r.1.1, r.2))
  have hfirst := Repeats.of_anchored (P := fun r s => Inside (b.Below q) view r s)
    (x := fun v r => bindWithItem v r.1 item) (hfirst.imp (fun _ h => h)
      (fun r s h => ⟨h.1, h.2.sees⟩) fun row => ⟨row, fun _ _ _ h => h⟩)
  have hnext : ∀ row : DataType, b.Repeats depth (b.BelowAny (rest ++ [body]))
      (fun (r : (ScopeId × Session) × ScopeId) s => ∃ start, Inside (b.Below q) view r.1 start ∧
        start.Leaves (b.Below item) s ∧
          s.Sees r.2 (.item item (qualifiedName w.name) row [] :: view))
      (fun v r => withRow v r.2 body rest)
      fun row r a s => a = row ∧ r.1.2.Leaves (b.Below q) s := by
    intro row
    refine ((hbehind row).comap fun r : (ScopeId × Session) × ScopeId => (r.2, r.1.2)).imp
      (fun _ h => h) ?_ fun row => ⟨row, fun _ _ _ h => h⟩
    rintro r s ⟨start, hinside, hleaves, hsees⟩
    exact ⟨hinside.leaves.trans (hleaves.mono hunder), hsees⟩
  have hall := hfirst.bind (b.BelowAny (rest ++ [body]))
    (f := fun v r scope => withRow v scope body rest)
    (R := fun row r a s => a = row ∧ r.2.Leaves (b.Below q) s) hnext hapart
  refine hall.imp ?_ (fun _ _ h => h) fun row => ⟨row, fun _ _ _ h => h⟩
  rintro id (hid | ⟨x, hx, hid⟩)
  · exact ⟨item, by simp, hid⟩
  · exact ⟨x, List.mem_cons_of_mem _ hx, hid⟩

/-- A WITH query has the same row each time. -/
theorem repeats_withRow {q body : NodeId} {items rest : List NodeId}
    (hq : b.tree.node? q = some (.withQuery items body)) (hrest : rest.Sublist items)
    (hspares : view.Spares (b.BelowAny (rest ++ [body]))) (hplain : b.Plain q) :
    b.Repeats depth (b.BelowAny (rest ++ [body])) (Inside (b.Below q) view)
      (fun v r => withRow v r.1 body rest)
      fun row r a s => a = row ∧ r.2.Leaves (b.Below q) s := by
  induction rest generalizing view with
  | nil =>
    have hchild : b.tree.Visits b.operators q body :=
      Tree.visits_of_isClause hq rfl (by simp [Node.children])
    refine (repeats_part hparts (hforest.lt_size_of_child hchild.child)
      (fun id hid => .head hchild hid) (hspares.mono fun id hid => ⟨body, by simp, hid⟩)
      hplain).imp ?_ (fun _ _ h => h) fun row => ⟨row, fun _ _ _ h => ⟨h.1, h.2.leaves⟩⟩
    exact fun id hid => ⟨body, by simp, hid⟩
  | cons item rest ih =>
    have hmem : ∀ x ∈ (item :: rest) ++ [body], b.tree.Visits b.operators q x := by
      intro x hx
      refine Tree.visits_of_isClause hq rfl ?_
      simp only [Node.children]
      exact List.mem_append.mpr ((List.mem_append.mp hx).imp_left fun hx => hrest.subset hx)
    have hunder : ∀ id, b.Below item id → b.Below q id := fun id hid =>
      .head (hmem item (by simp)) hid
    have hnodup : ((item :: rest) ++ [body]).Nodup :=
      (hforest.nodup_children hq).sublist (hrest.append_right [body])
    by_cases hitem : ∃ w, b.tree.node? item = some (.withItem w)
    · obtain ⟨w, hitem⟩ := hitem
      have hapart : ∀ id, b.BelowAny [item] id → ¬ b.BelowAny (rest ++ [body]) id := by
        refine belowAny_disjoint hforest (p := q) (fun x hx => ?_) (fun y hy => ?_) ?_
        · obtain rfl := List.mem_singleton.mp hx
          exact (hmem _ (by simp)).child
        · exact (hmem y (List.mem_cons_of_mem _ hy)).child
        · intro x hx
          obtain rfl := List.mem_singleton.mp hx
          exact (List.nodup_cons.mp hnodup).1
      refine repeats_withRow_cons hforest hcoercion hparts hitem
        (hspares.mono fun id hid => ⟨item, by simp, hid⟩) (hplain.below (hunder item .refl)) hunder
        (fun id hid => hapart id ⟨item, by simp, hid⟩) fun row =>
          ih ((List.sublist_cons_self ..).trans hrest) ?_
      have hmore : ∀ other, b.BelowAny (rest ++ [body]) other →
          b.BelowAny ((item :: rest) ++ [body]) other := by
        rintro other ⟨x, hx, hbelow⟩
        exact ⟨x, List.mem_cons_of_mem _ hx, hbelow⟩
      refine View.Spares.cons (hspares.mono hmore) fun other hother hbelow => ?_
      cases hother
      exact hapart item ⟨item, by simp, .refl⟩ hbelow
    -- Only WITH items are bound.
    · refine .of_refused fun v r s a s' hs hok => ?_
      obtain ⟨scope, s₁, hbind, -⟩ := bind_eq_ok_iff.mp hok
      obtain ⟨w, body, u, row, sources, scopes, hn, -⟩ := bindWithItem_eq_ok hbind
      exact hitem ⟨w, hs.rewrites.node?_of_isClause hn rfl⟩

/-! ### Queries -/

/-- A query without recursive items has the same row each time. -/
theorem repeats_queryStep {q : NodeId} (hsize : q.index < b.tree.size)
    (hspares : view.Spares (b.Below q)) (hplain : b.Plain q) :
    b.Repeats depth (b.Below q) (fun (r : ScopeId × Session) s => s = r.2 ∧ s.Sees r.1 view)
      (fun v r => queryStep v r.1 q)
      fun row r a s => a = row ∧ r.2.Leaves (b.Below q) s := by
  have hinside : ∀ (r : ScopeId × Session) (s : Session), s = r.2 ∧ s.Sees r.1 view →
      Inside (b.Below q) view r s := by
    rintro r s ⟨rfl, hsees⟩
    exact ⟨.refl _, hsees⟩
  obtain ⟨n, hn⟩ := Option.isSome_iff_exists.mp (Tree.isSome_node?_iff.mpr hsize)
  by_cases hcall : ∃ name operands, n = .call name operands
  -- A call stands for no query, whatever its operands have become.
  · obtain ⟨name, operands, rfl⟩ := hcall
    refine .of_refused fun v r s a s' hs hok => ?_
    obtain ⟨current, hcurrent, -⟩ := hs.rewrites.rewritten.call q name operands hn
    obtain ⟨node, u, hn, hrow, -⟩ := queryStep_eq_ok hok
    obtain rfl := Option.some.inj (hcurrent.symm.trans hn)
    cases hrow
  have hoperands : n.operands? = none := by
    cases n with
    | call name operands => exact absurd ⟨name, operands, rfl⟩ hcall
    | _ => rfl
  have hrow : b.Repeats depth (b.Below q)
      (fun (r : ScopeId × Session) s => s = r.2 ∧ s.Sees r.1 view) (fun v r => queryRow v r.1 q n)
      fun row r a s => a = row ∧ r.2.Leaves (b.Below q) s := by
    cases n with
    | select block => exact repeats_selectRow hforest hcoercion hparts hn hspares hplain
    | setOperation operation =>
      exact (repeats_setOperationRow hforest hparts hn hspares hplain).imp (fun _ h => h) hinside
        fun row => ⟨row, fun _ _ _ h => ⟨h.1, h.2.leaves⟩⟩
    | withQuery items body =>
      have hunder : ∀ id, b.BelowAny (items ++ [body]) id → b.Below q id := by
        rintro id ⟨x, hx, hid⟩
        exact .head (Tree.visits_of_isClause hn rfl hx) hid
      exact (repeats_withRow hforest hcoercion hparts hn (.refl _) (hspares.mono hunder)
        hplain).imp hunder hinside fun row => ⟨row, fun _ _ _ h => h⟩
    | _ => exact .of_refused fun v r s a s' _ hok => by cases hok
  have hboth := hrow.bind_value (fun _ => False)
    (f := fun _ _ row => Validation.record q row >>= fun _ => Pure.pure row)
    (R := fun row r a s => a = row ∧ r.2.Leaves (b.Below q) s) (fun row => ?_) fun _ _ h => h
  · refine Repeats.congr (hboth.imp ?_ (fun _ _ h => h) fun row => ⟨row, fun _ _ _ h => h⟩)
      fun v r s hs => node_bind_of_written hn hoperands hs _
    rintro id (hid | hid)
    · exact hid
    · exact hid.elim
  · refine (Repeats.of_total (Q := fun r a s => a = row ∧ r.2.Leaves (b.Below q) s) (fun r s => ?_)
      (fun r s _ h => ⟨row, _, rfl, rfl, h.trans (.of_same rfl rfl)⟩) hcoercion).imp (fun _ h => h)
      (fun _ _ h => h) fun _ => ⟨row, fun _ _ _ h => h⟩
    exact (Quiet.keeps_record hsize row).bind fun _ => keeps_pure _

/-- Queries are settled when their parts are. -/
theorem SettlesParts.queryStep {q : NodeId} (hsize : q.index < b.tree.size)
    (hspares : view.Spares (b.Below q)) (hplain : b.Plain q) :
    b.Settles (depth + 1) view (b.Below q) fun v scope => v.query scope q := by
  have hstep := repeats_queryStep hforest hcoercion hparts hsize hspares hplain
  refine .of_repeats fun r s row s' hs hp hok => ?_
  obtain ⟨hw, g, hq, hagain⟩ := hstep r s row s' hs hp hok
  refine ⟨hw, g, hq, fun deeper r' t hd ht hhosts hp' => ?_⟩
  obtain ⟨deeper, rfl⟩ := Nat.exists_eq_add_of_le' (Nat.one_le_of_lt hd)
  exact hagain deeper r' t (Nat.le_of_succ_le_succ hd) ht hhosts hp'

end

end Session

end SqlTyping
