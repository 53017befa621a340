import SqlTyping.Proofs.Session.Naming
import SqlTyping.Proofs.Session.Rewriting
import SqlTyping.Proofs.Session.Visits

namespace SqlTyping

/-!
# Validation binds names to what they stand for

Whatever becomes of a validation, and whichever engine converts operands, the names bound in scopes
stand for what the statement says (`visitAt_names`). The proof goes by the depth of validation:

* `Session.namingTour` — the tour through the parts of a query that shows it for the query;
* `Visit.Names.queryStep`, `Visit.Names.expressionStep` — one step, given the parts.
-/

open Checking

/-- A table of a FROM list that is found by its whole name is listed and then bound. -/
theorem bindTable_of_found {parent scope : ScopeId} {entry : NodeId} {name : List String}
    {label : Option String} {s : Session} {found : TableMatch} {exposed : String}
    (hfound : s.scopes.requireTable parent name s.settings.matching s.sources = .ok found)
    (hremaining : found.remaining = []) (hexposed : exposedName? name label = some exposed) :
    bindTable parent scope entry name label s = Validation.bindName scope exposed found.source
      { s with
        selfReferences := s.listing entry found.source
        types := (s.sources.row? found.source).elim s.types (s.types.put entry ·) } := by
  unfold bindTable Session.listing
  rw [bind_of_ok (state_apply s), hfound, bind_of_ok (ofExcept_apply (.ok found) s), hremaining,
    hexposed]
  cases s.sources.row? found.source with
  | none =>
    cases (s.sources.get? found.source).any RowSource.isSelfReference with
    | true => rfl
    | false => rfl
  | some row =>
    cases (s.sources.get? found.source).any RowSource.isSelfReference with
    | true => rfl
    | false => rfl

/-- A table of a FROM list is refused, or found and listed and then bound. -/
theorem bindTable_cases (parent scope : ScopeId) (entry : NodeId) (name : List String)
    (label : Option String) (s : Session) :
    (∃ e, bindTable parent scope entry name label s = (.error e, s)) ∨
      ∃ found, s.scopes.requireTable parent name s.settings.matching s.sources = .ok found ∧
        found.remaining = [] ∧
        ((exposedName? name label = none ∧
            (bindTable parent scope entry name label s).2 =
              { s with selfReferences := s.listing entry found.source } ∧
            ∃ e, (bindTable parent scope entry name label s).1 = .error e) ∨
          ∃ exposed types, exposedName? name label = some exposed ∧
            bindTable parent scope entry name label s =
              Validation.bindName scope exposed found.source
                { s with selfReferences := s.listing entry found.source, types }) := by
  cases hfound : s.scopes.requireTable parent name s.settings.matching s.sources with
  | error e =>
    left
    unfold bindTable
    rw [bind_of_ok (state_apply s), hfound]
    exact ⟨e, rfl⟩
  | ok found =>
    by_cases hremaining : found.remaining = []
    · refine .inr ⟨found, rfl, hremaining, ?_⟩
      cases hexposed : exposedName? name label with
      | none =>
        left
        unfold bindTable Session.listing
        rw [bind_of_ok (state_apply s), hfound, bind_of_ok (ofExcept_apply (.ok found) s),
          hremaining, hexposed]
        cases (s.sources.get? found.source).any RowSource.isSelfReference with
        | true => exact ⟨rfl, rfl, _, rfl⟩
        | false => exact ⟨rfl, rfl, _, rfl⟩
      | some exposed =>
        exact .inr ⟨exposed, _, rfl, bindTable_of_found hfound hremaining hexposed⟩
    · left
      have hempty : (!found.remaining.isEmpty) = true := by simpa using hremaining
      unfold bindTable
      rw [bind_of_ok (state_apply s), hfound, bind_of_ok (ofExcept_apply (.ok found) s),
        if_pos hempty]
      exact ⟨_, rfl⟩

/-- A query of a FROM list gets a source of its own; the source gets its row type and is bound, or the
    row type is refused. -/
theorem bindDerived_cases (scope : ScopeId) (block entry : NodeId) (label : String) (row : DataType)
    (s : Session) :
    (∃ e, bindDerived scope block entry label row s =
        (.error e, { s with sources := (s.sources.register entry .query (some block)).2 })) ∨
      ∃ sources,
        (s.sources.register entry .query (some block)).2.setRow s.sources.nextId row = .ok sources ∧
        bindDerived scope block entry label row s =
          Validation.bindName scope label s.sources.nextId
            { s with sources, types := s.types.put entry row } := by
  have hregister : Validation.register entry .query (some block) s =
      (.ok s.sources.nextId, { s with sources := (s.sources.register entry .query (some block)).2 }) :=
    rfl
  unfold bindDerived
  rw [bind_of_ok hregister]
  cases hrow : (s.sources.register entry .query (some block)).2.setRow s.sources.nextId row with
  | error e =>
    refine .inl ⟨e, bind_of_error ?_ _⟩
    rw [Validation.setRow_apply]
    simp only [hrow]
  | ok sources =>
    have hset : Validation.setRow s.sources.nextId row
        { s with sources := (s.sources.register entry .query (some block)).2 } =
          (.ok (), { s with sources }) := by
      rw [Validation.setRow_apply]
      simp only [hrow]
    exact .inr ⟨sources, rfl, by rw [bind_of_ok hset]; rfl⟩

/-! ### Binding one entry -/

/-- One more name is bound in a scope; or the check is refused, and scopes stay as they are. -/
def Validation.BindsOne (n : Naming) (scope : ScopeId) (x : Validation Unit) (s : Session) : Prop :=
  ∃ s', s'.Named n ∧ ((∃ e, x s = (.error e, s') ∧ s'.scopes = s.scopes) ∨
    (x s = (.ok (), s') ∧ ∃ binding, s.scopes.addBinding scope binding = .ok s'.scopes))

section

variable {n : Naming} {s : Session} {parent scope : ScopeId} {select entry : NodeId} {env : Env}
  {bound rest : List NodeId}

/-- In the scope of a SELECT a name can be bound. -/
theorem Naming.Opened.exists_addBinding {t : ScopeTree} (h : n.Opened t scope select env bound)
    (binding : Binding) : ∃ t', t.addBinding scope binding = .ok t' := by
  obtain ⟨⟨found, _, hs, -⟩, -⟩ := h
  obtain ⟨hlt, -⟩ := Array.getElem?_eq_some_iff.mp hs
  exact ⟨_, if_pos hlt⟩

/-- An entry that is bound to a source of what it stands for, and listed as it should be. -/
theorem bindsOne_of_bindName {x : Validation Unit} {t : Session} {source : SourceId} {exposed : String}
    {r : Referent} (types : OrderedMap NodeId DataType) (h : t.Named n) (hscopes : t.scopes = s.scopes)
    (hopened : n.Opened s.scopes scope select env bound)
    (hrest : bound ++ entry :: rest = n.sourcesOf select) (hexposed : n.exposed? entry = some exposed)
    (href : n.entryReferent? env entry = some r) (hsource : r.IsSource t.sources source)
    (hx : x s = Validation.bindName scope exposed source
      { t with selfReferences := t.listing entry source, types }) : x.BindsOne n scope s := by
  rw [← hscopes] at hopened
  obtain ⟨scopes, hadd⟩ := hopened.exists_addBinding
    { names := [exposed], source, nullable := false }
  have hnamed : Session.Named n { t with
      scopes, selfReferences := t.listing entry source, types } :=
    (h.bind hopened hrest hadd rfl hexposed href hsource).of_eq rfl rfl rfl rfl
  exact ⟨_, hnamed, .inr ⟨hx.trans (Validation.bindName_of_addBinding hadd), _, hscopes ▸ hadd⟩⟩

/-- A table of a FROM list is bound to what its name stands for. -/
theorem bindsOne_bindTable {name : List String} {label : Option String} (h : s.Named n)
    (hparent : n.Shows s.scopes parent env) (hopened : n.Opened s.scopes scope select env bound)
    (hrest : bound ++ entry :: rest = n.sourcesOf select)
    (hentry : n.tree.node? entry = some (.tableRef name label)) :
    (bindTable parent scope entry name label).BindsOne n scope s := by
  have hexposed : n.exposed? entry = exposedName? name label := by
    unfold Naming.exposed?
    rw [hentry]
  rcases bindTable_cases parent scope entry name label s with ⟨e, he⟩ | ⟨found, hfound, -, hcases⟩
  · exact ⟨s, h, .inl ⟨e, he, rfl⟩⟩
  -- The name is looked up from a scope that binds everything around it.
  have hlookup : s.scopes.lookupTable parent name n.matching .empty s.sources = .ok (some found) := by
    rw [h.matching] at hfound
    exact ScopeTree.requireTable_eq_ok_iff.mp hfound
  obtain ⟨r, href, hsource⟩ := hparent.referent_of_lookup h.nested h.sources h.opens hlookup
  have href' : n.entryReferent? env entry = some r := (Naming.ofEntry?_tableRef hentry).trans href
  rcases hcases with ⟨hnone, hstate, e, he⟩ | ⟨exposed, types, hsome, hbind⟩
  · -- A name without parts is no item, so nothing has been listed.
    have hname : name = [] := by
      unfold exposedName? at hnone
      cases label with
      | none => exact List.getLast?_eq_none_iff.mp hnone
      | some label => cases hnone
    subst hname
    have hsame : s.listing entry found.source = s.selfReferences := by
      refine if_neg fun hself => ?_
      obtain ⟨item, rfl⟩ := hsource.isSelfReference.mp hself
      exact Naming.referent?_nil_ne_self env item href
    rw [hsame] at hstate
    exact ⟨s, h, .inl ⟨e, Prod.ext he hstate, rfl⟩⟩
  · exact bindsOne_of_bindName types h rfl hopened hrest (hexposed.trans hsome) href' hsource hbind

/-- A query of a FROM list is bound to what it stands for: itself. -/
theorem bindsOne_bindDerived {query : NodeId} {label : String} (row : DataType) (h : s.Named n)
    (hopened : n.Opened s.scopes scope select env bound)
    (hrest : bound ++ entry :: rest = n.sourcesOf select)
    (hentry : n.tree.node? entry = some (.subqueryRef query label)) :
    (bindDerived scope select entry label row).BindsOne n scope s := by
  have hexposed : n.exposed? entry = some label := by
    unfold Naming.exposed?
    rw [hentry]
  have hkind : ∀ w, n.tree.node? entry = some (.withItem w) → SourceKind.query = .withItem := by
    intro w hw
    rw [hentry] at hw
    cases hw
  have hregistered := h.sources.register (some select) hkind
  have hnamed := h.of_sources (.register _ _ _ _) hregistered
  have hsource : (Referent.query entry).IsSource (s.sources.register entry .query (some select)).2
      s.sources.nextId :=
    ⟨⟨_, RowSources.get?_register_self .., rfl, rfl⟩, nofun⟩
  rcases bindDerived_cases scope select entry label row s with ⟨e, he⟩ | ⟨sources, hrow, hbind⟩
  · exact ⟨_, hnamed, .inl ⟨e, he, rfl⟩⟩
  have hgrows := RowSources.Grows.of_setRow hrow
  have hsource := hsource.mono hgrows
  -- A query is no recursive item, so nothing is listed.
  have hlisting : Session.listing { s with sources } entry s.sources.nextId = s.selfReferences := by
    refine if_neg fun hself => ?_
    obtain ⟨item, hitem⟩ := hsource.isSelfReference.mp hself
    cases hitem
  refine bindsOne_of_bindName (s.types.put entry row)
    (hnamed.of_sources hgrows (hregistered.of_setRow hrow)) rfl hopened hrest hexposed
    (Naming.ofEntry?_subqueryRef hentry) hsource ?_
  rw [hbind, hlisting]

end

/-! ### Queries -/

/-- From `s` to `s'` names are bound to what they stand for, and the scopes that are there stay. -/
def Session.Resolves (n : Naming) (s s' : Session) : Prop :=
  s'.Named n ∧ s.scopes.Extends s'.scopes

/-- Parts are validated so that names are bound to what they stand for, from scopes that show what
    is around the parts. -/
structure Visit.Names (n : Naming) (v : Visit) : Prop where
  query : ∀ {scope : ScopeId} {env : Env} {id : NodeId} {s : Session}, s.Rewrites n.tree →
    s.Named n → n.Shows s.scopes scope env → n.tree.Encloses env id →
      s.Resolves n (v.query scope id s).2
  expression : ∀ {scope : ScopeId} {env : Env} {a id : NodeId} {s : Session}, s.Rewrites n.tree →
    s.Named n → n.Shows s.scopes scope env → n.tree.Encloses env a → a.index < n.tree.size →
      Tree.Wraps n.tree s.tree a id → s.Resolves n (v.expression scope id s).2
  placeholder : ∀ {scope : ScopeId} {id : NodeId} {s : Session}, s.Named n →
    s.tree.node? id = some .default → s.Resolves n (v.expression scope id s).2

/-- The tour through the parts of a query on which names are bound. -/
def Session.namingTour (n : Naming) (v : Visit) (id : NodeId) (env : Env) (s : Session) : Tour where
  visit := v
  query := id
  env := env
  parts := ((n.tree.node? id).map (n.tree.queryParts env id)).getD []
  start := s
  own _ := True
  inv s' := s'.Rewrites n.tree ∧ s.Resolves n s'
  place s' scope env := n.Shows s'.scopes scope env
  opened s' scope bound := s.scopes.get? scope = none ∧ n.Opened s'.scopes scope id env bound

section

variable {n : Naming} {v : Visit} {id : NodeId} {env : Env} {s s' s'' : Session} {scope : ScopeId}

theorem Session.Resolves.refl (h : s.Named n) : s.Resolves n s := ⟨h, .refl _⟩

theorem Session.Resolves.trans (h : s.Resolves n s') (h' : s'.Resolves n s'') :
    s.Resolves n s'' :=
  ⟨h'.1, h.2.trans h'.2⟩

/-- A part that is around the query lies in the statement. -/
theorem Session.encloses_of_mem_namingTour (hclosed : n.tree.NoDangling)
    (henv : n.tree.Encloses env id) {c : NodeId} {env' : Env}
    (h : (c, env') ∈ (s.namingTour n v id env).parts) :
    n.tree.Encloses env' c ∧ c.index < n.tree.size := by
  have h : (c, env') ∈ ((n.tree.node? id).map (n.tree.queryParts env id)).getD [] := h
  cases hn : n.tree.node? id with
  | none =>
    rw [hn] at h
    cases h
  | some node =>
    rw [hn] at h
    have h : (c, env') ∈ n.tree.queryParts env id node := h
    have hpart : n.tree.PartBelow {} id c := Tree.partBelow_of_mem_queryParts hn h
    obtain ⟨p, parent, -, hp, -, hc⟩ := hpart
    exact ⟨Tree.encloses_of_mem_queryParts hn henv h,
      Tree.isSome_node?_iff.mp (hclosed p parent hp c hc)⟩

/-- A part is validated so that names are bound to what they stand for, whatever comes of it. -/
theorem Visit.Names.visited (hv : v.Names n) (hrewrites : ∀ t, v.Keeps (Session.RewritesSince n.tree t))
    {c : NodeId} {env' : Env} (henv : n.tree.Encloses env' c) (hc : c.index < n.tree.size)
    (hs : s.Rewrites n.tree) (hnamed : s.Named n) (hplace : n.Shows s.scopes scope env')
    (h : v.Returns scope c s s' ∨ v.Fails scope c s s') : s'.Rewrites n.tree ∧ s.Resolves n s' := by
  have hend : s' = (v.query scope c s).2 ∨ s' = (v.expression scope c s).2 := by
    rcases h with ⟨_, h | h⟩ | ⟨_, h | h⟩
    · exact .inl (by rw [h])
    · exact .inr (by rw [h])
    · exact .inl (by rw [h])
    · exact .inr (by rw [h])
  rcases hend with rfl | rfl
  · exact ⟨((hrewrites s.tree).query scope c s ⟨hs, .refl _ _⟩).1, hv.query hs hnamed hplace henv⟩
  · exact ⟨((hrewrites s.tree).expression scope c s ⟨hs, .refl _ _⟩).1,
      hv.expression hs hnamed hplace henv hc .self⟩

/-- A check that leaves scopes and the statement as they are passes. -/
theorem Session.passes_namingTour {α : Type} {x : Validation α} {Q : α → Session → Prop}
    (hinv : (s.namingTour n v id env).inv s') (hnamed : (x s').2.Named n)
    (htree : x.Keeps (s'.Quiet fun _ => True)) (hext : s'.scopes.Extends (x s').2.scopes)
    (hresult : ∀ a s'', x s' = (.ok a, s'') → Q a s'') : (s.namingTour n v id env).Passes s' x Q := by
  obtain ⟨hs, hresolves⟩ := hinv
  have hq := htree s' (.refl s')
  refine ⟨⟨⟨hq.tree ▸ hs.rewritten, hq.tree ▸ hs.closed⟩, hnamed, hresolves.2.trans hext⟩,
    fun scope env' hplace => ?_, hresult⟩
  exact Naming.Shows.mono hplace hext

/-- A change to the row sources leaves all scopes as they are. -/
theorem Session.passes_sources {α : Type} {x : Validation α}
    (hinv : (s.namingTour n v id env).inv s') (htree : x.Keeps (s'.Quiet fun _ => True))
    (hx : (∃ e, x s' = (.error e, s')) ∨ ∃ a sources, x s' = (.ok a, { s' with sources }) ∧
      s'.sources.Grows sources ∧ sources.Registered n) :
    (s.namingTour n v id env).Passes s' x fun _ _ => True := by
  rcases hx with ⟨e, he⟩ | ⟨a, sources, ha, hgrows, hregistered⟩
  · refine Session.passes_namingTour hinv ?_ htree ?_ fun _ _ _ => trivial
    · rw [he]
      exact hinv.2.1
    · rw [he]
      exact .refl _
  · refine Session.passes_namingTour hinv ?_ htree ?_ fun _ _ _ => trivial
    · rw [ha]
      exact hinv.2.1.of_sources hgrows hregistered
    · rw [ha]
      exact .refl _

theorem Session.passes_setRow (source : SourceId) (row : DataType)
    (hinv : (s.namingTour n v id env).inv s') :
    (s.namingTour n v id env).Passes s' (Validation.setRow source row) fun _ _ => True := by
  refine Session.passes_sources hinv (Session.Quiet.keeps_setRow source row) ?_
  rw [Validation.setRow_apply]
  cases hrow : s'.sources.setRow source row with
  | error e => exact .inl ⟨e, rfl⟩
  | ok sources =>
    exact .inr ⟨(), sources, rfl, .of_setRow hrow, hinv.2.1.sources.of_setRow hrow⟩

theorem Session.passes_selfView (item : NodeId) (hinv : (s.namingTour n v id env).inv s') :
    (s.namingTour n v id env).Passes s' (Validation.selfView item) fun _ _ => True := by
  refine Session.passes_sources hinv (Session.Quiet.keeps_selfView item) ?_
  rw [Validation.selfView_apply]
  cases hview : s'.sources.selfView item with
  | error e => exact .inl ⟨e, rfl⟩
  | ok found =>
    exact .inr ⟨found.1, found.2, rfl, .of_selfView hview, hinv.2.1.sources.of_selfView hview⟩

/-- A scope is added below one that is there, so that names are bound to what they stand for. -/
theorem Session.passes_addScope {parent : ScopeId} {role : ScopeRole} {node : Option NodeId}
    {Q : ScopeId → Session → Prop} (hinv : (s.namingTour n v id env).inv s')
    (hselect : ∀ select, role = .block → node = some select →
      ∃ env, n.Shows s'.scopes parent env ∧ n.tree.Encloses env select)
    (hresult : ∀ scope scopes, s'.scopes.newScope parent role node = .ok (scope, scopes) →
      Q scope { s' with scopes }) :
    (s.namingTour n v id env).Passes s' (Validation.onScopes (·.newScope parent role node)) Q := by
  have hquiet : (Validation.onScopes (·.newScope parent role node)).Keeps (s'.Quiet fun _ => True) :=
    Session.Quiet.keeps_newScope _ _ _
  cases hnew : s'.scopes.newScope parent role node with
  | error e =>
    have hrun : Validation.onScopes (·.newScope parent role node) s' = (.error e, s') := by
      unfold Validation.onScopes
      simp only [hnew]
    refine Session.passes_namingTour hinv ?_ hquiet ?_ fun a s'' h => ?_
    · rw [hrun]
      exact hinv.2.1
    · rw [hrun]
      exact .refl _
    · rw [hrun] at h
      cases h
  | ok found =>
    obtain ⟨scope, scopes⟩ := found
    have hrun : Validation.onScopes (·.newScope parent role node) s' =
        (.ok scope, { s' with scopes }) := by
      unfold Validation.onScopes
      simp only [hnew]
    refine Session.passes_namingTour hinv ?_ hquiet ?_ fun a s'' h => ?_
    · rw [hrun]
      exact hinv.2.1.newScope hnew hselect
    · rw [hrun]
      exact .newScope hnew
    · rw [hrun] at h
      cases h
      exact hresult scope scopes hnew

/-- A new scope for an item shows what is around it and the item. -/
theorem Session.passes_newScope {parent : ScopeId} {role : ScopeRole} {node : NodeId} {frame : Frame}
    {env' : Env} (hinv : (s.namingTour n v id env).inv s') (hshows : n.Shows s'.scopes parent env')
    (hrole : role ≠ .block)
    (hframe : ∀ scope : Scope, scope.role = role → scope.frame? = some frame)
    (hcomplete : ∀ scope : Scope, scope.bindings = [] → n.Complete scope frame) :
    (s.namingTour n v id env).Passes s' (Validation.onScopes (·.newScope parent role (some node)))
      fun scope s'' => n.Shows s''.scopes scope (frame :: env') := by
  refine Session.passes_addScope hinv (fun _ hblock => absurd hblock hrole) fun scope scopes hnew => ?_
  obtain ⟨rfl, around, haround, hget⟩ := ScopeTree.get?_newScope hnew
  exact .cons ((hget _).trans (if_pos rfl)) (hframe _ rfl) rfl (hcomplete _ rfl)
    (hshows.mono (ScopeTree.Extends.newScope hnew))

/-- One more entry of the FROM list is bound; what other scopes show does not change. -/
theorem Session.passes_bindsOne {x : Validation Unit} {entry : NodeId} {bound rest : List NodeId}
    (hinv : (s.namingTour n v id env).inv s')
    (hopened : (s.namingTour n v id env).opened s' scope bound)
    (hrest : bound ++ entry :: rest = n.sourcesOf id) (hx : x.BindsOne n scope s')
    (hquiet : x.Keeps (s'.Quiet fun _ => True)) :
    (s.namingTour n v id env).Passes s' x
      fun _ s'' => (s.namingTour n v id env).opened s'' scope (bound ++ [entry]) := by
  obtain ⟨hs, hresolves⟩ := hinv
  obtain ⟨hnew, hopened⟩ := hopened
  have hq := hquiet s' (.refl s')
  have hrewrites : (x s').2.Rewrites n.tree :=
    ⟨hq.tree ▸ hs.rewritten, hq.tree ▸ hs.closed⟩
  obtain ⟨s'', hnamed, ⟨e, hr, hscopes⟩ | ⟨hr, binding, hadd⟩⟩ := hx
  · rw [hr] at hrewrites
    refine ⟨⟨?_, ?_⟩, fun other env' hplace => ?_, fun a s'' h => ?_⟩
    · rw [hr]
      exact hrewrites
    · rw [hr]
      exact ⟨hnamed, hscopes ▸ hresolves.2⟩
    · rw [hr]
      show n.Shows s''.scopes other env'
      rw [hscopes]
      exact hplace
    · rw [hr] at h
      cases h
  · rw [hr] at hrewrites
    -- The scope that binds the entry is none of those that were there in the beginning.
    have hext : s.scopes.Extends s''.scopes := by
      intro other found hfound
      have hne : other ≠ scope := by
        rintro rfl
        rw [hnew] at hfound
        cases hfound
      rw [ScopeTree.get?_addBinding hadd, if_neg hne]
      exact hresolves.2 other found hfound
    refine ⟨?_, fun other env' hplace => ?_, fun a s₁ h => ?_⟩
    · rw [hr]
      exact ⟨hrewrites, hnamed, hext⟩
    · rw [hr]
      exact Session.Named.shows_addBinding hopened hrest hadd hplace
    · rw [hr] at h
      cases h
      exact ⟨hnew, Session.Named.opened_addBinding hopened hrest hadd⟩

/-- The scope of a SELECT is added; it has bound nothing yet. -/
theorem Session.passes_newBlock {parent : ScopeId} (henv : n.tree.Encloses env id)
    (hinv : (s.namingTour n v id env).inv s') (hshows : n.Shows s'.scopes parent env) :
    (s.namingTour n v id env).Passes s' (Validation.onScopes (·.newBlock parent (some id)))
      fun scope s'' => (s.namingTour n v id env).opened s'' scope [] := by
  refine Session.passes_addScope hinv (fun select _ hselect => ?_) fun scope scopes hnew => ?_
  · obtain rfl := Option.some.inj hselect
    exact ⟨env, hshows, henv⟩
  · obtain ⟨rfl, around, haround, hget⟩ := ScopeTree.get?_newScope hnew
    refine ⟨?_, ⟨_, parent, (hget _).trans (if_pos rfl), rfl, rfl,
      hshows.mono (ScopeTree.Extends.newScope hnew), rfl⟩, List.nil_prefix⟩
    cases hold : s.scopes.get? s'.scopes.nextId with
    | none => rfl
    | some found => exact absurd rfl (ScopeTree.ne_nextId (hinv.2.2 _ found hold))

/-- What happens between the parts of a query binds names to what they stand for. -/
theorem Session.sound_namingTour (hv : v.Names n)
    (hrewrites : ∀ t, v.Keeps (Session.RewritesSince n.tree t)) (hclosed : n.tree.NoDangling)
    (henv : n.tree.Encloses env id) : (s.namingTour n v id env).Sound n.tree := by
  have hreturns : ∀ {s' s'' : Session} {scope : ScopeId} {c : NodeId} {env' : Env},
      (s.namingTour n v id env).inv s' → (c, env') ∈ (s.namingTour n v id env).parts →
        n.Shows s'.scopes scope env' → v.Returns scope c s' s'' →
          s''.Rewrites n.tree ∧ s'.Resolves n s'' := by
    intro s' s'' scope c env' hinv hpart hplace hret
    obtain ⟨henv', hc⟩ := Session.encloses_of_mem_namingTour hclosed henv hpart
    exact hv.visited hrewrites henv' hc hinv.1 hinv.2.1 hplace (.inl hret)
  have hsources : ∀ {block : SelectBlock},
      n.tree.node? id = some (.select block) → n.sourcesOf id = block.sources :=
    Naming.sourcesOf_of_select
  exact {
    node := fun hinv hn hclause => hinv.1.node?_of_isClause hn hclause
    returns := fun hinv hpart hplace hret => by
      obtain ⟨hs, hresolves⟩ := hreturns hinv hpart hplace hret
      exact ⟨hs, hinv.2.trans hresolves⟩
    place_returns := fun hinv hpart hplace hret hother =>
      Naming.Shows.mono hother (hreturns hinv hpart hplace hret).2.2
    opened_returns := fun hinv hpart hplace hret hopened =>
      ⟨hopened.1, hopened.2.mono (hreturns hinv hpart hplace hret).2.2⟩
    record := fun type hinv _ => Session.passes_namingTour hinv
      (hinv.2.1.of_eq rfl rfl rfl rfl) (Session.Quiet.keeps_record trivial type) (.refl _)
      fun _ _ _ => trivial
    setRow := fun source row hinv => Session.passes_setRow source row hinv
    register := fun hinv hw => Session.passes_namingTour hinv
      (hinv.2.1.of_sources (.register _ _ _ _) (hinv.2.1.sources.register none fun _ _ => rfl))
      (Session.Quiet.keeps_register _ _ _) (.refl _) fun _ _ _ => trivial
    selfView := fun item hinv => Session.passes_selfView item hinv
    item := fun hinv hshows hw => Session.passes_newScope hinv hshows nofun
      (fun scope hrole => by unfold Scope.frame?; rw [hrole]) fun scope hnone => ⟨hnone, _, hw⟩
    recursive := fun hinv hshows hw => Session.passes_newScope hinv hshows nofun
      (fun scope hrole => by unfold Scope.frame?; rw [hrole]) fun scope hnone => ⟨hnone, _, hw⟩
    block := fun hinv hshows _ => Session.passes_newBlock henv hinv hshows
    table := fun hinv hshows hopened hselect hrest hentry _ => by
      rw [← hsources hselect] at hrest
      exact Session.passes_bindsOne hinv hopened hrest
        (bindsOne_bindTable hinv.2.1 hshows hopened.2 hrest hentry)
        (Session.Quiet.keeps_bindTable trivial _ _)
    derived := fun row hinv hopened hselect hrest hentry _ => by
      rw [← hsources hselect] at hrest
      exact Session.passes_bindsOne hinv hopened hrest
        (bindsOne_bindDerived row hinv.2.1 hopened.2 hrest hentry)
        (Session.Quiet.keeps_bindDerived trivial _ row)
    closed := fun _ hopened hselect => by
      have hopened := hopened.2
      rw [← hsources hselect] at hopened
      exact hopened.shows }

/-- A query is validated so that names are bound to what they stand for. -/
theorem Visit.Names.queryStep (hv : v.Names n)
    (hrewrites : ∀ t, v.Keeps (Session.RewritesSince n.tree t)) (hs : s.Rewrites n.tree)
    (hclosed : n.tree.NoDangling) (hnamed : s.Named n) (hshows : n.Shows s.scopes scope env)
    (henv : n.tree.Encloses env id) : s.Resolves n (queryStep v scope id s).2 := by
  have hsound := Session.sound_namingTour (s := s) hv hrewrites hclosed henv
  have hstart : (s.namingTour n v id env).At [(scope, env)] [] s := by
    refine ⟨.start, ⟨hs, .refl hnamed⟩, fun x hx => ?_⟩
    obtain rfl := List.mem_singleton.mp hx
    exact hshows
  have hparts : ∀ node, n.tree.node? id = some node → ∀ part ∈ n.tree.queryParts env id node,
      part ∈ (s.namingTour n v id env).parts := by
    intro node hn part hpart
    show part ∈ ((n.tree.node? id).map (n.tree.queryParts env id)).getD []
    rw [hn]
    exact hpart
  have hend : (SqlTyping.queryStep v scope id).Ends ((s.namingTour n v id env).At [(scope, env)] [])
      _ _ :=
    hsound.ends_queryStep (fun _ _ _ _ _ _ _ => trivial) (List.mem_singleton.mpr rfl) hparts
  have hend := hend s hstart
  cases hr : SqlTyping.queryStep v scope id s with
  | mk r s' =>
    rw [hr] at hend
    cases r with
    | ok row =>
      obtain ⟨_, -, -, hat⟩ := hend
      exact hat.inv.2
    | error e =>
      rcases hend with ⟨-, hinv⟩ | ⟨-, hinv, hpart, hplace, hfails⟩
      · exact hinv.2
      · obtain ⟨henv', hc⟩ := Session.encloses_of_mem_namingTour hclosed henv hpart
        exact hinv.2.trans
          (hv.visited hrewrites henv' hc hinv.1 hinv.2.1 hplace (.inr hfails)).2

end

/-! ### Expressions -/

section

variable {n : Naming} {v : Visit} {id core : NodeId} {env : Env} {s s' : Session} {scope : ScopeId}

/-- Names are bound to what they stand for while the operands of a call are validated. -/
theorem Visit.Names.keepsOperands (hv : v.Names n) {name : String} {written : List NodeId}
    (hclosed : n.tree.NoDangling) (hshows : n.Shows s.scopes scope env)
    (henv : n.tree.Encloses env id) (hcall : n.tree.node? id = some (.call name written)) :
    v.KeepsOperands n.tree written scope (s.Resolves n) where
  tree _ _ _ _ h := ⟨h.1.of_eq rfl rfl rfl rfl, h.2⟩
  requests _ _ h := ⟨h.1.of_eq rfl rfl rfl rfl, h.2⟩
  operand s' index operand hs hresolves hat := by
    rcases hat with ⟨a, ha, hw, -⟩ | ⟨-, -, hdefault⟩
    · have hchild : n.tree.Child id a := ⟨_, hcall, List.mem_of_getElem? ha⟩
      have hsize : a.index < n.tree.size :=
        Tree.isSome_node?_iff.mp (hclosed id _ hcall a (List.mem_of_getElem? ha))
      exact hresolves.trans (hv.expression hs hresolves.1 (hshows.mono hresolves.2)
        (henv.below (.single hchild)) hsize hw)
    · exact hresolves.trans (hv.placeholder hresolves.1 hdefault)

/-- An expression that is no cast is validated so that names are bound to what they stand for. -/
theorem Visit.Names.expressionType (hv : v.Names n)
    (hrewrites : ∀ t, v.Keeps (Session.RewritesSince n.tree t)) (hs : s.Rewrites n.tree)
    (hclosed : n.tree.NoDangling) (hnamed : s.Named n) (hshows : n.Shows s.scopes scope env)
    (henv : n.tree.Encloses env core) (hcore : core.index < n.tree.size) {node : Node}
    (hn : s.tree.node? core = some node) :
    s.Resolves n (expressionType v scope core node s).2 := by
  cases node with
  | call name operands =>
    obtain ⟨written, hwritten, hw⟩ := hs.rewritten.call_of_call hn
    exact ((hv.keepsOperands hclosed hshows henv hwritten).keeps_call hrewrites hwritten
      ⟨hs, .refl _ s.tree⟩ (.refl hnamed) hn hw).2
  | cursor query =>
    have hcursor := hs.rewritten.node?_eq hcore hn rfl
    have hchild : n.tree.Child core query := ⟨_, hcursor, List.mem_singleton.mpr rfl⟩
    have hquery := hv.query hs hnamed hshows (henv.below (.single hchild))
    show s.Resolves n ((v.query scope query >>= fun _ => pure .cursor : Validation DataType) s).2
    rw [bind_apply]
    cases hr : v.query scope query s with
    | mk r s' =>
      rw [hr] at hquery
      cases r with
      | ok row => exact hquery
      | error e => exact hquery
  | _ => exact .refl hnamed

/-- An expression with the casts around it is validated so that names are bound to what they stand
    for. -/
theorem Visit.Names.expressionStep (hv : v.Names n)
    (hrewrites : ∀ t, v.Keeps (Session.RewritesSince n.tree t)) (hs : s.Rewrites n.tree)
    (hclosed : n.tree.NoDangling) (hnamed : s.Named n) (hshows : n.Shows s.scopes scope env)
    {a : NodeId} (henv : n.tree.Encloses env a) (ha : a.index < n.tree.size)
    (hwraps : Tree.Wraps n.tree s.tree a id) : s.Resolves n (expressionStep v scope id s).2 := by
  obtain ⟨casts, core, hpeel⟩ : ∃ casts core, s.tree.peelCasts s.tree.size id = (casts, core) :=
    ⟨_, _, rfl⟩
  unfold SqlTyping.expressionStep
  rw [bind_of_ok (state_apply s)]
  simp only [Host.session_self, Host.lift_self, hpeel]
  cases hn : s.tree.node? core with
  | none =>
    rw [bind_of_error (node_of_none hn)]
    exact .refl hnamed
  | some node =>
    rw [bind_of_ok (node_of_some hn)]
    by_cases hcast : ∃ operand target implicit, node = .cast operand target implicit
    · obtain ⟨operand, target, implicit, rfl⟩ := hcast
      exact .refl hnamed
    have hp : Tree.Peeled {} n.tree s.tree a casts core := by
      refine Tree.peeled_of_peelCasts hs.rewritten hclosed hwraps ha hpeel ?_
      intro operand target implicit hc
      rw [hn] at hc
      exact hcast ⟨operand, target, implicit, Option.some.inj hc⟩
    have htype := hv.expressionType hrewrites hs hclosed hnamed hshows (henv.below hp.below.child)
      hp.lt_size hn
    -- Types are no concern of names.
    have hrecord : ∀ id type, (Validation.record id type).Keeps (s.Resolves n) :=
      fun _ _ => keeps_update fun _ h => ⟨h.1.of_eq rfl rfl rfl rfl, h.2⟩
    rw [bind_apply]
    cases hr : SqlTyping.expressionType v scope core node s with
    | mk r s' =>
      rw [hr] at htype
      cases r with
      | error e => exact htype
      | ok type =>
        exact ((hrecord core type).bind fun _ => keeps_recordCasts hrecord type casts) s' htype

end

/-! ### Whole runs -/

/-- Validation to any depth binds names to what they stand for, whatever becomes of it and whichever
    engine converts operands. -/
theorem visitAt_names {n : Naming} (hclosed : n.tree.NoDangling) (depth : Nat) :
    (visitAt depth).Names n := by
  have hrewrites : ∀ depth t, (visitAt depth).Keeps (Session.RewritesSince n.tree t) :=
    fun depth t => visitAt_rewrites n.tree t depth
  induction depth with
  | zero =>
    exact ⟨fun _ hnamed _ _ => .refl hnamed, fun _ hnamed _ _ _ _ => .refl hnamed,
      fun hnamed _ => .refl hnamed⟩
  | succ depth ih =>
    refine ⟨fun {scope env id s} hs hnamed hshows henv => ?_,
      fun {scope env a id s} hs hnamed hshows henv ha hw => ?_,
      fun {scope id s} hnamed hdefault => ?_⟩
    · exact ih.queryStep (hrewrites depth) hs hclosed hnamed hshows henv
    · exact ih.expressionStep (hrewrites depth) hs hclosed hnamed hshows henv ha hw
    · show s.Resolves n (expressionStep (visitAt depth) scope id s).2
      rw [expressionStep_placeholder hdefault]
      exact ⟨hnamed.of_eq rfl rfl rfl rfl, .refl _⟩

end SqlTyping
