import SqlTyping.Proofs.Session.Traversal
import SqlTyping.Proofs.Tree.Skeleton

namespace SqlTyping

/-!
# What validating a query visits

Between the parts of a query that it validates, validation changes the session only in ways that are
of no concern to other parts:

* `Session.Quiet` — such a change;
* `Tour` — the parts to be visited from a session on, and what is relied on meanwhile;
  `Tour.Reaches` — a way through quiet changes and parts validated with a result, `Tour.Stops` —
  such a way, with a part at its end that may have been refused;
* `Tour.Sound` — what the changes between the parts keep; `Tour.Sound.of_quiet` — nothing has to be
  known of them when only the tree and the recorded types matter;
* `Tour.Sound.ends_queryStep` — a query that is validated with a result has been on a tour through all
  its parts in order, and one that is refused has stopped on such a tour.
-/

/-- Scopes are added, and names are bound in them; nothing else about a scope changes. -/
def ScopeTree.Grows (t t' : ScopeTree) : Prop :=
  ∀ id scope, t.get? id = some scope → ∃ bindings, t'.get? id = some { scope with bindings }

/-- A change that is of no concern to the parts of a query: the statement and what it is validated
    with stay, scopes are added, and only nodes of the query's own get types. -/
structure Session.Quiet (own : NodeId → Prop) (s s' : Session) : Prop where
  settings : s'.settings = s.settings
  tree : s'.tree = s.tree
  operators : s'.operators = s.operators
  engine : s'.engine = s.engine
  scopes : s.scopes.Grows s'.scopes
  types : ∀ id, ¬ own id → s'.types.get? id = s.types.get? id
  recorded : ∀ id, (s'.types.get? id).isSome = true → own id ∨ (s.types.get? id).isSome = true

/-- A part is validated with a result, as a query or as an expression. -/
def Visit.Returns (v : Visit) (scope : ScopeId) (id : NodeId) (s s' : Session) : Prop :=
  ∃ type, v.query scope id s = (.ok type, s') ∨ v.expression scope id s = (.ok type, s')

/-- A part is refused. -/
def Visit.Fails (v : Visit) (scope : ScopeId) (id : NodeId) (s s' : Session) : Prop :=
  ∃ fault, v.query scope id s = (.error fault, s') ∨ v.expression scope id s = (.error fault, s')

/-! ### Quiet changes -/

theorem ScopeTree.Grows.refl (t : ScopeTree) : t.Grows t := fun _ scope h => ⟨scope.bindings, h⟩

theorem ScopeTree.Grows.trans {t t' t'' : ScopeTree} (h : t.Grows t') (h' : t'.Grows t'') :
    t.Grows t'' := by
  intro id scope hs
  obtain ⟨bindings, hb⟩ := h id scope hs
  obtain ⟨bindings', hb'⟩ := h' id _ hb
  exact ⟨bindings', hb'⟩

/-- A new scope is added to the ones that are there. -/
theorem ScopeTree.Grows.newScope {t t' : ScopeTree} {parent id : ScopeId} {role : ScopeRole}
    {node : Option NodeId} (h : t.newScope parent role node = .ok (id, t')) : t.Grows t' := by
  obtain ⟨rfl, around, haround, hget⟩ := ScopeTree.get?_newScope h
  intro other scope hs
  refine ⟨scope.bindings, ?_⟩
  have hne : other ≠ t.nextId := by
    rintro rfl
    obtain ⟨hlt, -⟩ := Array.getElem?_eq_some_iff.mp hs
    exact Nat.lt_irrefl _ hlt
  rw [hget other, if_neg hne]
  exact hs

theorem ScopeTree.Grows.addBinding {t t' : ScopeTree} {id : ScopeId} {binding : Binding}
    (h : t.addBinding id binding = .ok t') : t.Grows t' := by
  intro other scope hs
  rw [ScopeTree.get?_addBinding h other]
  by_cases hid : other = id
  · subst hid
    exact ⟨scope.bindings ++ [binding], by simp [hs]⟩
  · exact ⟨scope.bindings, by rw [if_neg hid]; exact hs⟩

namespace Session.Quiet

variable {own own' : NodeId → Prop} {s s' s'' : Session}

theorem refl (s : Session) : s.Quiet own s :=
  ⟨rfl, rfl, rfl, rfl, .refl _, fun _ _ => rfl, fun _ h => .inr h⟩

theorem trans (h : s.Quiet own s') (h' : s'.Quiet own s'') : s.Quiet own s'' where
  settings := h'.settings.trans h.settings
  tree := h'.tree.trans h.tree
  operators := h'.operators.trans h.operators
  engine := h'.engine.trans h.engine
  scopes := h.scopes.trans h'.scopes
  types id hid := (h'.types id hid).trans (h.types id hid)
  recorded id hid := (h'.recorded id hid).elim .inl (h.recorded id)

theorem mono (h : s.Quiet own s') (hown : ∀ id, own id → own' id) : s.Quiet own' s' where
  settings := h.settings
  tree := h.tree
  operators := h.operators
  engine := h.engine
  scopes := h.scopes
  types id hid := h.types id fun hid' => hid (hown id hid')
  recorded id hid := (h.recorded id hid).imp (hown id) fun h => h

theorem record {id : NodeId} (hid : own id) (type : DataType) :
    s.Quiet own { s with types := s.types.put id type } where
  settings := rfl
  tree := rfl
  operators := rfl
  engine := rfl
  scopes := .refl _
  types other hother := by
    have hne : other ≠ id := by
      rintro rfl
      exact hother hid
    rw [OrderedMap.get?_put, if_neg hne]
  recorded other hother := by
    rw [OrderedMap.get?_put] at hother
    split at hother
    · rename_i h
      exact .inl (h ▸ hid)
    · exact .inr hother

theorem scopes_of_grows {scopes : ScopeTree} (h : s.scopes.Grows scopes) :
    s.Quiet own { s with scopes } :=
  ⟨rfl, rfl, rfl, rfl, h, fun _ _ => rfl, fun _ h => .inr h⟩

theorem sources_of (sources : RowSources) : s.Quiet own { s with sources } :=
  ⟨rfl, rfl, rfl, rfl, .refl _, fun _ _ => rfl, fun _ h => .inr h⟩

theorem selfReferences_of (references : List (NodeId × SourceId)) :
    s.Quiet own { s with selfReferences := references } :=
  ⟨rfl, rfl, rfl, rfl, .refl _, fun _ _ => rfl, fun _ h => .inr h⟩

/-! ### Checks that change a session quietly -/

open Checking

theorem keeps_record {id : NodeId} (hid : own id) (type : DataType) :
    (Validation.record id type).Keeps (s.Quiet own) :=
  keeps_update fun _ h => h.trans (.record hid type)

theorem keeps_newScope (parent : ScopeId) (role : ScopeRole) (node : Option NodeId) :
    (Validation.onScopes (·.newScope parent role node)).Keeps (s.Quiet own) := by
  intro s' h
  simp only [Validation.onScopes]
  cases hn : s'.scopes.newScope parent role node with
  | error e => exact h
  | ok found => exact h.trans (.scopes_of_grows (.newScope hn))

theorem keeps_bindName (scope : ScopeId) (name : String) (source : SourceId) :
    (Validation.bindName scope name source).Keeps (s.Quiet own) := by
  intro s' h
  simp only [Validation.bindName, Validation.onScopes]
  cases hb : s'.scopes.addBinding scope { names := [name], source, nullable := false } with
  | error e => exact h
  | ok scopes => exact h.trans (.scopes_of_grows (.addBinding hb))

theorem keeps_register (node : NodeId) (kind : SourceKind) (enclosing : Option NodeId) :
    (Validation.register node kind enclosing).Keeps (s.Quiet own) :=
  fun _ h => h.trans (.sources_of _)

theorem keeps_selfView (item : NodeId) : (Validation.selfView item).Keeps (s.Quiet own) := by
  intro s' h
  unfold Validation.selfView
  cases hv : s'.sources.selfView item with
  | error e => exact h
  | ok found => exact h.trans (.sources_of _)

theorem keeps_setRow (id : SourceId) (row : DataType) :
    (Validation.setRow id row).Keeps (s.Quiet own) := by
  intro s' h
  unfold Validation.setRow
  cases hr : s'.sources.setRow id row with
  | error e => exact h
  | ok sources => exact h.trans (.sources_of _)

theorem keeps_exposeTable {scope : ScopeId} {entry : NodeId} (hentry : own entry)
    (name : List String) (label : Option String) (row : Option DataType) (source : SourceId) :
    (exposeTable scope entry name label row source).Keeps (s.Quiet own) := by
  unfold exposeTable
  split
  · exact keeps_fail _
  · have hbind : ∀ exposed source,
        (Validation.bindName scope exposed source).Keeps (s.Quiet own) :=
      fun _ _ => keeps_bindName _ _ _
    split
    · exact (keeps_record hentry _).bind fun _ => hbind _ _
    · exact (keeps_pure _).bind fun _ => hbind _ _

theorem keeps_bindTable {parent scope : ScopeId} {entry : NodeId} (hentry : own entry)
    (name : List String) (label : Option String) :
    (bindTable parent scope entry name label).Keeps (s.Quiet own) := by
  rw [bindTable_eq]
  refine keeps_state.bind fun s' => (keeps_ofExcept _).bind fun found => ?_
  refine Keeps.ite (fun _ => keeps_fail _) fun _ => ?_
  have hrest : (exposeTable scope entry name label (s'.sources.row? found.source)
      found.source).Keeps (s.Quiet own) := keeps_exposeTable hentry name label _ _
  refine Keeps.ite (fun _ => ?_) fun _ => hrest
  exact (keeps_update fun _ h => h.trans (.selfReferences_of _)).bind fun _ => hrest

theorem keeps_bindDerived {scope : ScopeId} {block entry : NodeId} (hentry : own entry)
    (label : String) (row : DataType) :
    (bindDerived scope block entry label row).Keeps (s.Quiet own) := by
  refine (keeps_register _ _ _).bind fun source => (keeps_setRow _ _).bind fun _ => ?_
  exact (keeps_record hentry _).bind fun _ => keeps_bindName _ _ _

end Session.Quiet

/-! ### Tours -/

/-- A tour through parts of a query: the query and what surrounds it, the parts, the session in which
    it starts, the nodes that may get types on the way besides the parts, an invariant, what it
    means for a scope to be in its place, and for the scope of the query, when it is a SELECT, to
    have bound some entries of the FROM list. -/
structure Tour where
  visit : Visit
  query : NodeId
  env : Env
  parts : List (NodeId × Env)
  start : Session
  own : NodeId → Prop
  inv : Session → Prop
  place : Session → ScopeId → Env → Prop
  opened : Session → ScopeId → List NodeId → Prop

namespace Tour

/-- A session is reached through quiet changes and the given parts, each validated with a result from
    a scope in its place. -/
inductive Reaches (j : Tour) : List (NodeId × Env) → Session → Prop
  | start : Reaches j [] j.start
  | quiet {visited s s'} (h : Reaches j visited s) (hi : j.inv s) (hq : s.Quiet j.own s') :
    Reaches j visited s'
  | visit {visited s s' scope id env} (h : Reaches j visited s) (hi : j.inv s)
    (hpart : (id, env) ∈ j.parts) (hplace : j.place s scope env)
    (hv : j.visit.Returns scope id s s') : Reaches j (visited ++ [(id, env)]) s'

/-- A session is reached in this way, or through one more part that is refused. -/
inductive Stops (j : Tour) : Session → Prop
  | quiet {visited s} (h : j.Reaches visited s) (hi : j.inv s) : Stops j s
  | fails {visited s s' scope id env} (h : j.Reaches visited s) (hi : j.inv s)
    (hpart : (id, env) ∈ j.parts) (hplace : j.place s scope env)
    (hf : j.visit.Fails scope id s s') : Stops j s'

/-- A check keeps the invariant and the places of scopes, and `Q` holds with its result. -/
structure Passes {α : Type} (j : Tour) (s : Session) (x : Validation α) (Q : α → Session → Prop) :
    Prop where
  inv : j.inv (x s).2
  place : ∀ scope env, j.place s scope env → j.place (x s).2 scope env
  result : ∀ a s', x s = (.ok a, s') → Q a s'

/-- What a tour through parts of the tree `t` relies on: the queries of a session and their entries
    are those of `t`; the invariant and the places of scopes survive what happens between the parts
    and the validation of parts; and new scopes are in their places, that of a SELECT once it has
    bound its FROM list. -/
structure Sound (j : Tour) (t : Tree) : Prop where
  node : ∀ {s id node}, j.inv s → s.tree.node? id = some node → node.isClause = true →
    t.node? id = some node
  returns : ∀ {s s' scope id env}, j.inv s → (id, env) ∈ j.parts → j.place s scope env →
    j.visit.Returns scope id s s' → j.inv s'
  place_returns : ∀ {s s' scope id env scope' env'}, j.inv s → (id, env) ∈ j.parts →
    j.place s scope env → j.visit.Returns scope id s s' → j.place s scope' env' →
      j.place s' scope' env'
  opened_returns : ∀ {s s' scope id env scope' bound}, j.inv s → (id, env) ∈ j.parts →
    j.place s scope env → j.visit.Returns scope id s s' → j.opened s scope' bound →
      j.opened s' scope' bound
  record : ∀ {s id} (type : DataType), j.inv s → j.own id →
    j.Passes s (Validation.record id type) fun _ _ => True
  setRow : ∀ {s} (id : SourceId) (row : DataType), j.inv s →
    j.Passes s (Validation.setRow id row) fun _ _ => True
  register : ∀ {s id w}, j.inv s → t.node? id = some (.withItem w) →
    j.Passes s (Validation.register id .withItem none) fun _ _ => True
  selfView : ∀ {s} (id : NodeId), j.inv s → j.Passes s (Validation.selfView id) fun _ _ => True
  item : ∀ {s parent env id w}, j.inv s → j.place s parent env →
    t.node? id = some (.withItem w) →
      j.Passes s (Validation.onScopes (·.newWithItem parent id (qualifiedName w.name)))
        fun scope s' => j.place s' scope (.item id (qualifiedName w.name) :: env)
  recursive : ∀ {s parent env id w}, j.inv s → j.place s parent env →
    t.node? id = some (.withItem w) →
      j.Passes s (Validation.onScopes (·.newRecursiveItem parent id (qualifiedName w.name)))
        fun scope s' => j.place s' scope (.recursive id (qualifiedName w.name) :: env)
  block : ∀ {s parent block}, j.inv s → j.place s parent j.env →
    t.node? j.query = some (.select block) →
      j.Passes s (Validation.onScopes (·.newBlock parent (some j.query)))
        fun scope s' => j.opened s' scope []
  table : ∀ {s parent scope block bound entry rest name label}, j.inv s → j.place s parent j.env →
    j.opened s scope bound → t.node? j.query = some (.select block) →
      bound ++ entry :: rest = block.sources → t.node? entry = some (.tableRef name label) →
        j.own entry → j.Passes s (bindTable parent scope entry name label)
          fun _ s' => j.opened s' scope (bound ++ [entry])
  derived : ∀ {s scope block bound entry rest query label} (row : DataType), j.inv s →
    j.opened s scope bound → t.node? j.query = some (.select block) →
      bound ++ entry :: rest = block.sources → t.node? entry = some (.subqueryRef query label) →
        j.own entry → j.Passes s (bindDerived scope j.query entry label row)
          fun _ s' => j.opened s' scope (bound ++ [entry])
  closed : ∀ {s scope block}, j.inv s → j.opened s scope block.sources →
    t.node? j.query = some (.select block) → j.place s scope (.block j.query :: j.env)

/-- A session on the tour, with the parts that have been visited and scopes known to be in their
    places. -/
structure At (j : Tour) (places : List (ScopeId × Env)) (visited : List (NodeId × Env))
    (s : Session) : Prop where
  reaches : j.Reaches visited s
  inv : j.inv s
  places : ∀ x ∈ places, j.place s x.1 x.2

/-- The check leads on the tour: with a result from one point to another, with a fault to a stop. -/
def Leads {α : Type} (j : Tour) (places : List (ScopeId × Env))
    (visited visited' : List (NodeId × Env)) (x : Validation α) : Prop :=
  x.Ends (j.At places visited) (fun _ => j.At places visited') j.Stops

open Checking

variable {j : Tour} {t : Tree} {places : List (ScopeId × Env)} {visited : List (NodeId × Env)}

/-- When nothing is asked of scopes, it is enough that the invariant survives quiet changes. -/
theorem Sound.of_quiet (hplace : ∀ s scope env, j.place s scope env)
    (hopened : ∀ s scope bound, j.opened s scope bound)
    (hnode : ∀ {s id node}, j.inv s → s.tree.node? id = some node → node.isClause = true →
      t.node? id = some node)
    (hquiet : ∀ {s s'}, j.inv s → s.Quiet j.own s' → j.inv s')
    (hreturns : ∀ {s s' scope id env}, j.inv s → (id, env) ∈ j.parts →
      j.visit.Returns scope id s s' → j.inv s') : j.Sound t := by
  have hpasses : ∀ {α : Type} {x : Validation α} {s : Session} {Q : α → Session → Prop},
      j.inv s → x.Keeps (s.Quiet j.own) → (∀ a s', Q a s') → j.Passes s x Q :=
    fun hi hx hQ => ⟨hquiet hi (hx _ (.refl _)), fun _ _ _ => hplace _ _ _, fun a s' _ => hQ a s'⟩
  exact {
    node := hnode
    returns := fun hi hpart _ hr => hreturns hi hpart hr
    place_returns := fun _ _ _ _ _ => hplace _ _ _
    opened_returns := fun _ _ _ _ _ => hopened _ _ _
    record := fun type hi hid => hpasses hi (Session.Quiet.keeps_record hid type) fun _ _ => trivial
    setRow := fun id row hi => hpasses hi (Session.Quiet.keeps_setRow id row) fun _ _ => trivial
    register := fun hi _ => hpasses hi (Session.Quiet.keeps_register _ _ _) fun _ _ => trivial
    selfView := fun id hi => hpasses hi (Session.Quiet.keeps_selfView id) fun _ _ => trivial
    item := fun hi _ _ => hpasses hi (Session.Quiet.keeps_newScope _ _ _) fun _ _ => hplace _ _ _
    recursive := fun hi _ _ =>
      hpasses hi (Session.Quiet.keeps_newScope _ _ _) fun _ _ => hplace _ _ _
    block := fun hi _ _ => hpasses hi (Session.Quiet.keeps_newScope _ _ _) fun _ _ => hopened _ _ _
    table := fun hi _ _ _ _ _ hown =>
      hpasses hi (Session.Quiet.keeps_bindTable hown _ _) fun _ _ => hopened _ _ _
    derived := fun row hi _ _ _ _ hown =>
      hpasses hi (Session.Quiet.keeps_bindDerived hown _ row) fun _ _ => hopened _ _ _
    closed := fun _ _ _ => hplace _ _ _ }

namespace Sound

/-! ### Steps of a tour -/

theorem stops_of_at {s : Session} (h : j.At places visited s) : j.Stops s := .quiet h.reaches h.inv

theorem leads_ofExcept {α : Type} (r : Except Fault α) :
    j.Leads places visited visited (Checking.ofExcept r) :=
  ends_ofExcept (fun _ _ hs _ => hs) fun _ => stops_of_at

/-- A node that is read is in the session, and nothing has changed. -/
theorem ends_node (id : NodeId) :
    (Validation.node id).Ends (j.At places visited)
      (fun n s => j.At places visited s ∧ s.tree.node? id = some n) j.Stops := by
  intro s hs
  unfold Validation.node
  split
  · rename_i h
    split at h
    · rename_i found hn
      cases h
      exact ⟨hs, hn⟩
    · cases h
  · rename_i h
    split at h
    · cases h
    · cases h
      exact stops_of_at hs

/-- More places are known. -/
theorem at_cons {scope : ScopeId} {env : Env} {s : Session} (h : j.At places visited s)
    (hplace : j.place s scope env) : j.At ((scope, env) :: places) visited s := by
  refine ⟨h.reaches, h.inv, fun x hx => ?_⟩
  rcases List.mem_cons.mp hx with rfl | hx
  · exact hplace
  · exact h.places x hx

/-- Fewer places are known. -/
theorem at_of_places {places' : List (ScopeId × Env)} {s : Session} (h : j.At places visited s)
    (hsub : ∀ x ∈ places', x ∈ places) : j.At places' visited s :=
  ⟨h.reaches, h.inv, fun x hx => h.places x (hsub x hx)⟩

/-- What happens between two parts leads on, and its result is as it should be. -/
theorem ends_passes {α : Type} {x : Validation α} {R : Session → Prop} {Q : α → Session → Prop}
    (hx : ∀ s, j.At places visited s → R s → j.Passes s x Q)
    (hq : ∀ s : Session, x.Keeps (s.Quiet j.own)) :
    x.Ends (fun s => j.At places visited s ∧ R s) (fun a s => j.At places visited s ∧ Q a s)
      j.Stops := by
  rintro s ⟨hs, hR⟩
  obtain ⟨hinv, hplace, hresult⟩ := hx s hs hR
  have hreach : j.Reaches visited (x s).2 := .quiet hs.reaches hs.inv (hq s s (.refl s))
  cases hr : x s with
  | mk r s' =>
    rw [hr] at hinv hplace hreach
    cases r with
    | ok a => exact ⟨⟨hreach, hinv, fun y hy => hplace _ _ (hs.places y hy)⟩, hresult a s' hr⟩
    | error e => exact .quiet hreach hinv

/-- The same where nothing is asked of the session and nothing said about the result. -/
theorem leads_passes {α : Type} {x : Validation α}
    (hx : ∀ s, j.At places visited s → j.Passes s x fun _ _ => True)
    (hq : ∀ s : Session, x.Keeps (s.Quiet j.own)) : j.Leads places visited visited x :=
  (ends_passes (R := fun _ => True) (fun s hs _ => hx s hs) hq).imp (fun _ h => ⟨h, trivial⟩)
    (fun _ _ h => h.1) fun _ h => h

variable (g : j.Sound t)

include g

/-- A part is validated from a scope in its place. -/
theorem visiting {s s' : Session} {scope : ScopeId} {id : NodeId} {env : Env}
    (h : j.At places visited s) (hscope : (scope, env) ∈ places) (hpart : (id, env) ∈ j.parts)
    (hv : j.visit.Returns scope id s s') : j.At places (visited ++ [(id, env)]) s' where
  reaches := .visit h.reaches h.inv hpart (h.places _ hscope) hv
  inv := g.returns h.inv hpart (h.places _ hscope) hv
  places x hx := g.place_returns h.inv hpart (h.places _ hscope) hv (h.places x hx)

theorem ends_query {scope : ScopeId} {id : NodeId} {env : Env} (hscope : (scope, env) ∈ places)
    (hpart : (id, env) ∈ j.parts) (opened : ScopeId) (bound : List NodeId) :
    (j.visit.query scope id).Ends (fun s => j.At places visited s ∧ j.opened s opened bound)
      (fun _ s => j.At places (visited ++ [(id, env)]) s ∧ j.opened s opened bound) j.Stops := by
  rintro s ⟨hs, hopened⟩
  cases hr : j.visit.query scope id s with
  | mk r s' =>
    cases r with
    | ok row =>
      exact ⟨g.visiting hs hscope hpart ⟨row, .inl hr⟩,
        g.opened_returns hs.inv hpart (hs.places _ hscope) ⟨row, .inl hr⟩ hopened⟩
    | error e => exact .fails hs.reaches hs.inv hpart (hs.places _ hscope) ⟨e, .inl hr⟩

theorem leads_query {scope : ScopeId} {id : NodeId} {env : Env} (hscope : (scope, env) ∈ places)
    (hpart : (id, env) ∈ j.parts) :
    j.Leads places visited (visited ++ [(id, env)]) (j.visit.query scope id) := by
  intro s hs
  cases hr : j.visit.query scope id s with
  | mk r s' =>
    cases r with
    | ok row => exact g.visiting hs hscope hpart ⟨row, .inl hr⟩
    | error e => exact .fails hs.reaches hs.inv hpart (hs.places _ hscope) ⟨e, .inl hr⟩

theorem leads_expression {scope : ScopeId} {id : NodeId} {env : Env}
    (hscope : (scope, env) ∈ places) (hpart : (id, env) ∈ j.parts) :
    j.Leads places visited (visited ++ [(id, env)]) (j.visit.expression scope id) := by
  intro s hs
  cases hr : j.visit.expression scope id s with
  | mk r s' =>
    cases r with
    | ok type => exact g.visiting hs hscope hpart ⟨type, .inr hr⟩
    | error e => exact .fails hs.reaches hs.inv hpart (hs.places _ hscope) ⟨e, .inr hr⟩

theorem leads_record {id : NodeId} (hid : j.own id) (type : DataType) :
    j.Leads places visited visited (Validation.record id type) :=
  leads_passes (fun _ hs => g.record type hs.inv hid) fun _ => Session.Quiet.keeps_record hid type

theorem leads_setRow (id : SourceId) (row : DataType) :
    j.Leads places visited visited (Validation.setRow id row) :=
  leads_passes (fun _ hs => g.setRow id row hs.inv) fun _ => Session.Quiet.keeps_setRow id row

/-! ### FROM lists -/

theorem ends_bindSubquery {parent scope : ScopeId} {entry query : NodeId} {block : SelectBlock}
    {bound rest : List NodeId} {label : String} (hentry : j.own entry)
    (hselect : t.node? j.query = some (.select block))
    (hsources : bound ++ entry :: rest = block.sources)
    (hsource : t.node? entry = some (.subqueryRef query label))
    (hparent : (parent, j.env) ∈ places) (hpart : (query, j.env) ∈ j.parts) :
    (bindSubquery j.visit parent scope j.query entry query label).Ends
      (fun s => j.At places visited s ∧ j.opened s scope bound)
      (fun _ s => j.At places (visited ++ [(query, j.env)]) s ∧
        j.opened s scope (bound ++ [entry])) j.Stops := by
  refine (g.ends_query hparent hpart scope bound).bind fun row => ?_
  exact ends_passes (x := bindDerived scope j.query entry label row)
    (fun s hs hopened => g.derived row hs.inv hopened hselect hsources hsource hentry)
    fun _ => Session.Quiet.keeps_bindDerived hentry label row

/-- An entry of a FROM list is a table or a query, which is visited. -/
theorem ends_bindSource {parent scope : ScopeId} {entry : NodeId} {block : SelectBlock}
    {bound rest : List NodeId} (hselect : t.node? j.query = some (.select block))
    (hsources : bound ++ entry :: rest = block.sources)
    (hown : ∀ node, t.node? entry = some node → node.isClause = true → j.own entry)
    (hparent : (parent, j.env) ∈ places)
    (hparts : ∀ part ∈ (t.sourceQuery entry).map (·, j.env), part ∈ j.parts) :
    (bindSource j.visit parent scope j.query entry).Ends
      (fun s => j.At places visited s ∧ j.opened s scope bound)
      (fun _ s => (j.At places (visited ++ (t.sourceQuery entry).map (·, j.env)) s ∧
        j.opened s scope (bound ++ [entry])) ∧
        ((∃ name label, t.node? entry = some (.tableRef name label)) ∨
          ∃ query label, t.node? entry = some (.subqueryRef query label))) j.Stops := by
  rintro s ⟨hs, hopened⟩
  -- Which part there is depends on the node, which is the one of `t`.
  cases hn : s.tree.node? entry with
  | none =>
    unfold bindSource
    rw [Host.lift_self, bind_of_error (node_of_none hn)]
    exact stops_of_at hs
  | some n =>
    unfold bindSource
    rw [Host.lift_self, bind_of_ok (node_of_some hn)]
    cases n with
    | tableRef name label =>
      have ht := g.node hs.inv hn rfl
      have hq : t.sourceQuery entry = [] := by simp [Tree.sourceQuery, ht]
      have hentry := hown _ ht rfl
      refine (ends_passes (fun s hs hopened => g.table hs.inv (hs.places _ hparent) hopened
        hselect hsources ht hentry) fun _ => Session.Quiet.keeps_bindTable hentry name label).imp
          (fun _ h => h) (fun _ s' h => ⟨?_, .inl ⟨name, label, ht⟩⟩) (fun _ h => h) s
          ⟨hs, hopened⟩
      simpa [hq] using h
    | subqueryRef query label =>
      have ht := g.node hs.inv hn rfl
      have hq : t.sourceQuery entry = [query] := by simp [Tree.sourceQuery, ht]
      have hpart : (query, j.env) ∈ j.parts := hparts _ (by simp [hq])
      refine (g.ends_bindSubquery (hown _ ht rfl) hselect hsources ht hparent hpart).imp
        (fun _ h => h) (fun _ s' h => ⟨?_, .inr ⟨query, label, ht⟩⟩) (fun _ h => h) s
        ⟨hs, hopened⟩
      simpa [hq] using h
    | _ => exact stops_of_at hs

/-- The parts of the entries of a FROM list are visited; each entry is a table or a query. -/
theorem ends_sources {parent scope : ScopeId} {block : SelectBlock} {bound sources : List NodeId}
    (hselect : t.node? j.query = some (.select block)) (hsources : bound ++ sources = block.sources)
    (hown : ∀ entry ∈ sources, ∀ node, t.node? entry = some node → node.isClause = true →
      j.own entry)
    (hparent : (parent, j.env) ∈ places)
    (hparts : ∀ part ∈ (sources.flatMap t.sourceQuery).map (·, j.env), part ∈ j.parts) :
    (sources.forM (bindSource j.visit parent scope j.query)).Ends
      (fun s => j.At places visited s ∧ j.opened s scope bound)
      (fun _ s => (j.At places (visited ++ (sources.flatMap t.sourceQuery).map (·, j.env)) s ∧
        j.opened s scope block.sources) ∧
        ∀ entry ∈ sources, (∃ name label, t.node? entry = some (.tableRef name label)) ∨
          ∃ query label, t.node? entry = some (.subqueryRef query label)) j.Stops := by
  induction sources generalizing visited bound with
  | nil =>
    rw [List.append_nil] at hsources
    exact ends_pure fun s hs => ⟨by simpa [hsources] using hs, by simp⟩
  | cons entry rest ih =>
    refine (g.ends_bindSource hselect hsources (hown entry (List.mem_cons_self ..)) hparent
      fun part hp => hparts part ?_).bind fun _ => ?_
    · rw [List.flatMap_cons, List.map_append]
      exact List.mem_append_left _ hp
    rintro s ⟨hs, hproper⟩
    refine (ih (by simpa using hsources) (fun e he => hown e (by simp [he])) fun part hp =>
      hparts part ?_).imp (fun _ h => h) (fun _ s' h => ⟨?_, ?_⟩) (fun _ h => h) s hs
    · rw [List.flatMap_cons, List.map_append]
      exact List.mem_append_right _ hp
    · simpa [List.flatMap_cons] using h.1
    · intro e he
      rcases List.mem_cons.mp he with rfl | he
      · exact hproper
      · exact h.2 e he

/-! ### SELECT lists -/

theorem leads_itemColumns {scope : ScopeId} {env : Env} (hscope : (scope, env) ∈ places)
    (columns : Columns) (place : Nat) (item : SelectItem)
    (hparts : ∀ id ∈ Node.itemChild item, (id, env) ∈ j.parts) :
    j.Leads places visited (visited ++ (Node.itemChild item).map (·, env))
      (itemColumns j.visit scope columns place item) := by
  cases item with
  | star =>
    simp only [Node.itemChild, List.map_nil, List.append_nil]
    exact ends_state_bind fun s hs => ends_pure fun s' h => h ▸ hs
  | expression id label =>
    refine (g.leads_expression hscope (hparts id (by simp [Node.itemChild]))).bind fun type => ?_
    exact (ends_node id).bind fun node => ends_pure fun s hs => hs.1

theorem leads_selectColumns {scope : ScopeId} {env : Env} (hscope : (scope, env) ∈ places)
    (columns : Columns) (place : Nat) (items : List SelectItem)
    (hparts : ∀ id ∈ items.flatMap Node.itemChild, (id, env) ∈ j.parts) :
    j.Leads places visited (visited ++ (items.flatMap Node.itemChild).map (·, env))
      (selectColumns j.visit scope columns place items) := by
  induction items generalizing visited columns place with
  | nil => exact ends_pure fun s hs => by simpa using hs
  | cons item rest ih =>
    simp only [List.flatMap_cons, List.mem_append] at hparts
    rw [List.flatMap_cons, List.map_append, ← List.append_assoc]
    refine (g.leads_itemColumns hscope columns place item fun id h => hparts id (.inl h)).bind ?_
    exact fun columns => ih columns (place + 1) fun id h => hparts id (.inr h)

/-- The condition of a SELECT, if there is one. -/
theorem leads_condition {α : Type} {scope : ScopeId} {env : Env} (hscope : (scope, env) ∈ places)
    {condition : Option NodeId} (hparts : ∀ id ∈ condition, (id, env) ∈ j.parts)
    {visited' : List (NodeId × Env)} {rest : Validation α}
    (hrest : j.Leads places (visited ++ condition.toList.map (·, env)) visited' rest) :
    j.Leads places visited visited' (do
      match condition with
      | some condition => let _ ← j.visit.expression scope condition
      | none => pure ()
      rest) := by
  cases condition with
  | none => simpa [Leads] using hrest
  | some id => exact (g.leads_expression hscope (hparts id rfl)).bind fun _ => hrest

/-- The scope of a SELECT gets into its place when the FROM list has been bound. -/
theorem ends_selectRow {parent : ScopeId} {block : SelectBlock}
    (hselect : t.node? j.query = some (.select block))
    (hown : ∀ entry ∈ block.sources, ∀ node, t.node? entry = some node → node.isClause = true →
      j.own entry)
    (hparent : (parent, j.env) ∈ places)
    (hparts : ∀ part ∈ t.queryParts j.env j.query (.select block), part ∈ j.parts) :
    (selectRow j.visit parent j.query block).Ends (j.At places visited)
      (fun _ s => j.At places (visited ++ t.queryParts j.env j.query (.select block)) s ∧
        t.IsProperQuery (.select block)) j.Stops := by
  simp only [Tree.queryParts, List.mem_append] at hparts
  have hnew : (Validation.onScopes (·.newBlock parent (some j.query))).Ends (j.At places visited)
      (fun scope s => j.At places visited s ∧ j.opened s scope []) j.Stops :=
    (ends_passes (R := fun _ => True) (fun s hs _ => g.block hs.inv (hs.places _ hparent) hselect)
      fun _ => Session.Quiet.keeps_newScope _ _ _).imp (fun _ h => ⟨h, trivial⟩) (fun _ _ h => h)
      fun _ h => h
  refine hnew.bind fun scope => ?_
  refine (g.ends_sources hselect (List.nil_append _) hown hparent
    fun part hp => hparts part (.inl hp)).bind fun _ => ?_
  rintro s ⟨⟨hs, hopened⟩, hproper⟩
  have hs := at_cons hs (g.closed hs.inv hopened hselect)
  have hscope : (scope, .block j.query :: j.env) ∈ (scope, .block j.query :: j.env) :: places :=
    List.mem_cons_self ..
  have hcolumns : j.Leads ((scope, .block j.query :: j.env) :: places)
      (visited ++ (block.sources.flatMap t.sourceQuery).map (·, j.env) ++
        block.condition.toList.map (·, .block j.query :: j.env)) _
      (selectColumns j.visit scope [] 0 block.items) :=
    g.leads_selectColumns hscope [] 0 block.items fun x hx =>
      hparts _ (.inr (List.mem_map.mpr ⟨x, by simp [hx], rfl⟩))
  have hall := g.leads_condition hscope (fun x hx => hparts _ (.inr (List.mem_map.mpr
    ⟨x, by simp [Option.mem_def.mp hx], rfl⟩))) (hcolumns.bind fun columns =>
      ends_pure (a := DataType.row columns) fun s hs => hs)
  refine hall.imp (fun _ h => h) (fun _ s' h => ⟨?_, hproper⟩) (fun _ h => h) s hs
  have hall := at_of_places h fun x (hx : x ∈ places) => List.mem_cons_of_mem _ hx
  simpa [Tree.queryParts, List.map_append] using hall

/-! ### Set operations and WITH queries -/

theorem leads_setOperationRow {scope : ScopeId} {id : NodeId} {env : Env} {operation : SetOperation}
    (hscope : (scope, env) ∈ places)
    (hparts : ∀ part ∈ t.queryParts env id (.setOperation operation), part ∈ j.parts) :
    j.Leads places visited (visited ++ t.queryParts env id (.setOperation operation))
      (setOperationRow j.visit scope operation) := by
  simp only [Tree.queryParts, List.mem_cons, List.not_mem_nil, or_false] at hparts
  refine (g.leads_query hscope (hparts _ (.inl rfl))).bind fun left => ?_
  refine (g.leads_query hscope (hparts _ (.inr rfl))).bind fun right => ?_
  rw [List.append_assoc]
  exact leads_ofExcept (unionRow operation.name left right)

omit g in
/-- A new scope is in its place next to the known ones. -/
theorem ends_newScope {parent : ScopeId} {role : ScopeRole} {node : Option NodeId} {env : Env}
    (hpasses : ∀ s, j.At places visited s →
      j.Passes s (Validation.onScopes (·.newScope parent role node)) fun scope s' =>
        j.place s' scope env) :
    (Validation.onScopes (·.newScope parent role node)).Ends (j.At places visited)
      (fun scope => j.At ((scope, env) :: places) visited) j.Stops :=
  (ends_passes (R := fun _ => True) (fun s hs _ => hpasses s hs)
    fun _ => Session.Quiet.keeps_newScope _ _ _).imp (fun _ h => ⟨h, trivial⟩)
    (fun _ _ h => at_cons h.1 h.2) fun _ h => h

theorem leads_recursiveRow {parent : ScopeId} {id : NodeId} {env : Env} {item : WithItem}
    (hn : t.node? id = some (.withItem item)) (hrec : item.recursive = true)
    (hparent : (parent, env) ∈ places)
    (hparts : ∀ part ∈ t.itemParts env id, part ∈ j.parts) :
    (recursiveRow j.visit parent id (qualifiedName item.name) item).Ends (j.At places visited)
      (fun _ s => j.At places (visited ++ t.itemParts env id) s ∧
        ∃ operation, t.node? item.query = some (.setOperation operation)) j.Stops := by
  refine (ends_node item.query).bind fun n => ?_
  intro s hs
  obtain ⟨hs, hquery⟩ := hs
  cases n with
  | setOperation operation =>
    have ht := g.node hs.inv hquery rfl
    rw [Tree.itemParts_of_recursive hn hrec ht] at hparts ⊢
    have hleads : j.Leads places visited (visited ++ [(operation.left, env)] ++
        [(item.query, .recursive id (qualifiedName item.name) :: env)]) (do
          let view ← Validation.selfView id
          let anchor ← j.visit.query parent operation.left
          let row ← Checking.ofExcept (renamed (qualifiedName item.name) item.columns anchor)
          Validation.setRow view row
          let scope ← Validation.onScopes
            (·.newRecursiveItem parent id (qualifiedName item.name))
          j.visit.query scope item.query : Validation DataType) := by
      refine (leads_passes (fun s hs => g.selfView id hs.inv)
        fun _ => Session.Quiet.keeps_selfView id).bind fun view => ?_
      refine (g.leads_query hparent (hparts _ (by simp))).bind fun anchor => ?_
      refine (leads_ofExcept _).bind fun row => (g.leads_setRow _ _).bind fun _ => ?_
      refine (ends_newScope fun s hs => g.recursive hs.inv (hs.places _ hparent) hn).bind
        fun scope => ?_
      refine (g.leads_query (List.mem_cons_self ..) (hparts _ (by simp))).imp (fun _ h => h)
        (fun _ s' h => ?_) (fun _ h => h)
      exact at_of_places h fun x hx => List.mem_cons_of_mem _ hx
    refine hleads.imp (fun _ h => h) (fun _ s' h => ⟨?_, operation, ht⟩) (fun _ h => h) s hs
    simpa using h
  | _ => exact stops_of_at hs

/-- The scope behind a WITH item is in its place. -/
theorem ends_bindWithItem {parent : ScopeId} {id : NodeId} {env : Env}
    (hown : ∀ node, t.node? id = some node → node.isClause = true → j.own id)
    (hparent : (parent, env) ∈ places)
    (hparts : ∀ part ∈ t.itemParts env id, part ∈ j.parts) :
    (bindWithItem j.visit parent id).Ends (j.At places visited)
      (fun scope s => j.At ((scope, t.itemEnv env id) :: places) (visited ++ t.itemParts env id) s ∧
        ∃ w, t.node? id = some (.withItem w) ∧
          (w.recursive = true → ∃ operation, t.node? w.query = some (.setOperation operation)))
      j.Stops := by
  refine (ends_node id).bind fun n => ?_
  intro s hs
  obtain ⟨hs, hn⟩ := hs
  cases n with
  | withItem item =>
    have ht := g.node hs.inv hn rfl
    have hid := hown _ ht rfl
    have henv : t.itemEnv env id = .item id (qualifiedName item.name) :: env := by
      simp [Tree.itemEnv, ht]
    have hrest : ∀ (visited : List (NodeId × Env)) (source : SourceId) (body : DataType), (do
        let row ← Checking.ofExcept (renamed (qualifiedName item.name) item.columns body)
        Validation.setRow source row
        Validation.record id row
        Validation.onScopes (·.newWithItem parent id (qualifiedName item.name)) :
          Validation ScopeId).Ends (j.At places visited)
            (fun scope => j.At ((scope, t.itemEnv env id) :: places) visited) j.Stops := by
      intro visited source body
      rw [henv]
      refine (leads_ofExcept _).bind fun row => (g.leads_setRow _ _).bind fun _ => ?_
      refine (g.leads_record hid _).bind fun _ => ends_newScope fun s hs => ?_
      exact g.item hs.inv (hs.places _ hparent) ht
    refine ((leads_passes (fun s hs => g.register hs.inv ht)
      fun _ => Session.Quiet.keeps_register _ _ _).bind fun source => ?_) s hs
    refine Ends.ite (fun hrec => ?_) fun hrec => ?_
    · refine (g.leads_recursiveRow ht hrec hparent hparts).bind fun body => ?_
      intro s' hs'
      refine (hrest _ source body).imp (fun _ h => h) (fun _ s'' h => ⟨h, item, ht, ?_⟩)
        (fun _ h => h) s' hs'.1
      exact fun _ => hs'.2
    · rw [Tree.itemParts_of_not_recursive ht hrec] at hparts ⊢
      refine (g.leads_query hparent (hparts _ (by simp))).bind fun body => ?_
      refine (hrest _ source body).imp (fun _ h => h) (fun _ s'' h => ⟨h, item, ht, ?_⟩)
        fun _ h => h
      exact fun h => absurd h hrec
  | _ => exact stops_of_at hs

theorem ends_withRow {scope : ScopeId} {env : Env} {items : List NodeId} {body : NodeId}
    (hown : ∀ item ∈ items, ∀ node, t.node? item = some node → node.isClause = true → j.own item)
    (hscope : (scope, env) ∈ places)
    (hparts : ∀ part ∈ t.withParts body env items, part ∈ j.parts) :
    (withRow j.visit scope body items).Ends (j.At places visited)
      (fun _ s => j.At places (visited ++ t.withParts body env items) s ∧
        t.IsProperQuery (.withQuery items body)) j.Stops := by
  induction items generalizing scope env places visited with
  | nil =>
    refine (g.leads_query hscope (hparts _ (by simp [Tree.withParts]))).imp (fun _ h => h)
      (fun _ s h => ⟨h, by simp [Tree.IsProperQuery]⟩) fun _ h => h
  | cons item rest ih =>
    simp only [Tree.withParts, List.mem_append] at hparts
    refine (g.ends_bindWithItem (hown item (by simp)) hscope fun part h =>
      hparts part (.inl h)).bind fun next => ?_
    intro s hs
    obtain ⟨hs, hitem⟩ := hs
    refine (ih (fun i hi => hown i (by simp [hi])) (List.mem_cons_self ..) fun part h =>
      hparts part (.inr h)).imp (fun _ h => h) (fun _ s' h => ⟨?_, ?_⟩) (fun _ h => h) s hs
    · have := at_of_places h.1 fun x (hx : x ∈ places) => List.mem_cons_of_mem _ hx
      rwa [List.append_assoc] at this
    · intro i hi
      rcases List.mem_cons.mp hi with rfl | hi
      · exact hitem
      · exact h.2 i hi

/-- A query that is validated with a result has been on a tour through its parts, and its entries are
    proper; one that is refused has stopped on such a tour. -/
theorem ends_queryRow {scope : ScopeId} {n : Node} (ht : t.node? j.query = some n)
    (hown : ∀ x ∈ n.entries, ∀ node, t.node? x = some node → node.isClause = true → j.own x)
    (hscope : (scope, j.env) ∈ places)
    (hparts : ∀ part ∈ t.queryParts j.env j.query n, part ∈ j.parts) :
    (queryRow j.visit scope j.query n).Ends (j.At places visited)
      (fun _ s => j.At places (visited ++ t.queryParts j.env j.query n) s ∧ t.IsProperQuery n)
      j.Stops := by
  cases n with
  | select block => exact g.ends_selectRow ht hown hscope hparts
  | setOperation operation =>
    exact (g.leads_setOperationRow hscope hparts).imp (fun _ h => h)
      (fun _ s h => ⟨h, trivial⟩) fun _ h => h
  | withQuery items body => exact g.ends_withRow hown hscope hparts
  | _ => exact ends_fail fun _ => stops_of_at

/-- The same for a query with its row type recorded. -/
theorem ends_queryStep {scope : ScopeId}
    (hown : ∀ n, t.node? j.query = some n → ∀ x ∈ j.query :: n.entries, ∀ node,
      t.node? x = some node → node.isClause = true → j.own x)
    (hscope : (scope, j.env) ∈ places)
    (hparts : ∀ n, t.node? j.query = some n → ∀ part ∈ t.queryParts j.env j.query n,
      part ∈ j.parts) :
    (queryStep j.visit scope j.query).Ends (j.At places visited)
      (fun _ s => ∃ n, t.node? j.query = some n ∧ t.IsProperQuery n ∧
        j.At places (visited ++ t.queryParts j.env j.query n) s) j.Stops := by
  refine (ends_node j.query).bind fun n => ?_
  intro s hs
  obtain ⟨hs, hn⟩ := hs
  cases hq : n.isQuery with
  | true =>
    have ho := n.isClause_of_isQuery hq
    have ht := g.node hs.inv hn ho
    have hid := hown n ht j.query (by simp) n ht ho
    have hrow : (queryRow j.visit scope j.query n).Ends (j.At places visited) _ _ :=
      g.ends_queryRow ht (fun x hx => hown n ht x (List.mem_cons_of_mem _ hx)) hscope (hparts n ht)
    refine (hrow.bind fun row => ?_) s hs
    rintro s' ⟨hs', hproper⟩
    have hrec : (do
        Validation.record j.query row
        return row : Validation DataType).Ends
          (j.At places (visited ++ t.queryParts j.env j.query n))
          (fun _ s => ∃ n, t.node? j.query = some n ∧ t.IsProperQuery n ∧
            j.At places (visited ++ t.queryParts j.env j.query n) s) j.Stops :=
      (g.leads_record hid row).bind fun _ => ends_pure fun _ h => ⟨n, ht, hproper, h⟩
    exact hrec s' hs'
  | false =>
    have hfail : queryRow j.visit scope j.query n s = (.error (.notAQuery j.query.text n.kind), s) := by
      cases n with
      | select | setOperation | withQuery => cases hq
      | _ => rfl
    rw [bind_of_error hfail]
    exact stops_of_at hs

end Sound

end Tour

end SqlTyping
