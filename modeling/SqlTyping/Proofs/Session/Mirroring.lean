import SqlTyping.Proofs.Mirroring
import SqlTyping.Proofs.Scope.Renumbering
import SqlTyping.Proofs.Session.Providing

namespace SqlTyping

/-!
# Validations that mirror each other

A part of a statement is validated in two sessions. What else has been added to one of them does not
matter, if only the part, the catalog, and everything that validating the part adds correspond:

* `Renumbering.Suits` — the part, and how what is added in one session is numbered in the other;
* `Renumbering.Finds` — if the catalog of the second session has further tables, they are not needed;
* `Session.Mirrors` — two sessions correspond as far as the part is concerned;
* `Session.Mirrors.record`, `Session.Mirrors.register` and so on — they do so after the same change to both;
* `Visit.Mirrors` — what lies below a node is validated alike;
* `Session.Mirrors.requireTable`, `Session.Mirrors.referenceType` — names mean the same.
-/

/-- The nodes `own` of the statement `t₀` are moved nowhere, those that are added later may be. The part
    has everything below its nodes, and ranks that get smaller downwards. -/
structure Renumbering.Suits (ρ : Renumbering) (t₀ : Tree) (own : NodeId → Prop)
    (rank : NodeId → Nat) : Prop where
  start : ρ.nodes.start = t₀.size
  items : ∀ a, own a → ρ.items a
  closed : t₀.NoDangling
  isClosed : t₀.IsClosed own
  acyclic : ∀ a, own a → ¬ Relation.TransGen t₀.Child a a
  rank : ∀ p c, own p → t₀.Child p c → rank c < rank p

/-- The part `own`, the catalog and what has been added to the session `s` are in `t` under their new
    numbers. -/
structure Session.Mirrors (ρ : Renumbering) (own : NodeId → Prop) (s t : Session) : Prop where
  settings : t.settings = s.settings
  operators : t.operators = s.operators
  engine : t.engine = s.engine
  tree : Tree.Mirrors ρ.nodes own s.tree t.tree
  types : ∀ id, own id ∨ ρ.nodes.start ≤ id.index →
    t.types.get? (ρ.nodes.node id) = s.types.get? id
  sources : RowSources.Mirrors ρ.sources ρ.items s.sources t.sources
  scopes : ScopeTree.Mirrors ρ s.sources s.scopes t.scopes

/-- The catalog of the second session has no further tables, or they are not needed from the scope: it
    provides an environment with `P`. Then the engine is the standard one, as that leaves keywords alone,
    which may look like anything. -/
def Renumbering.Finds (ρ : Renumbering) (N : Naming) (s : Session) (scope : ScopeId)
    (P : OperatorTable → Env → Prop) : Prop :=
  ρ.more = [] ∨ s.engine = .implicitCasts ∧ ∃ env, s.Provides N scope env ∧ P s.operators env

/-- The further tables are not needed for a part of the statement. -/
abbrev Renumbering.FindsBelow (ρ : Renumbering) (N : Naming) (s : Session) (scope : ScopeId)
    (a : NodeId) : Prop :=
  ρ.Finds N s scope fun ops env => N.Resolved ops env a

/-- Neither are they for the node around which casts have been put. -/
abbrev Renumbering.FindsWrapped (ρ : Renumbering) (N : Naming) (own : NodeId → Prop) (s : Session)
    (scope : ScopeId) (id : NodeId) : Prop :=
  ∀ a, own a → Tree.Wraps N.tree s.tree a id → ρ.FindsBelow N s scope a

/-- What is registered for a node is its own. -/
def Session.OwnsSources (s : Session) : Prop := s.sources.Owned

open Checking

variable {ρ : Renumbering} {N : Naming} {t₀ : Tree} {own : NodeId → Prop} {rank : NodeId → Nat}

/-- With `depth` left, what lies below nodes of the part is validated alike by both visits. -/
structure Visit.Mirrors (ρ : Renumbering) (N : Naming) (own : NodeId → Prop) (rank : NodeId → Nat)
    (depth : Nat) (v v' : Visit) : Prop where
  guarded : v.Guarded N.tree (Tree.HasRoom own rank) Session.OwnsSources (fun _ => True) depth
  query : ∀ {scope a s t}, Session.Goes N.tree Session.OwnsSources s s → Session.Mirrors ρ own s t →
    Tree.HasRoom own rank depth a → s.scopes.Visible ρ.scopes scope → ρ.FindsBelow N s scope a →
      EndAlike (Session.Mirrors ρ own) Eq s t (v.query scope a) (v'.query (ρ.scopes.scope scope) a)
  expression : ∀ {scope id s t}, Session.Goes N.tree Session.OwnsSources s s → Session.Mirrors ρ own s t →
    Tree.IsPart N.tree (Tree.HasRoom own rank) depth s.tree id → s.scopes.Visible ρ.scopes scope →
      ρ.FindsWrapped N own s scope id →
        EndAlike (Session.Mirrors ρ own) Eq s t (v.expression scope id)
          (v'.expression (ρ.scopes.scope scope) (ρ.nodes.node id))

/-! ### Tables that are found -/

namespace Renumbering.Finds

variable {s s' : Session} {scope parent : ScopeId} {found : Scope} {P Q : OperatorTable → Env → Prop}

theorem imp (h : ρ.Finds N s scope P) (hPQ : ∀ env, P s.operators env → Q s.operators env) :
    ρ.Finds N s scope Q :=
  h.imp_right fun ⟨hengine, env, hprovides, hP⟩ => ⟨hengine, env, hprovides, hPQ env hP⟩

/-- What is found stays found while the statement is validated. -/
theorem later (h : ρ.Finds N s scope P) (hs : s.After t₀ s') : ρ.Finds N s' scope P := by
  refine h.imp_right fun ⟨hengine, env, hprovides, hP⟩ => ?_
  exact ⟨hs.setup.engine.trans hengine, env, hprovides.mono hs.setup.settings hs.widens,
    hs.setup.operators.symm ▸ hP⟩

/-- A table with a name that the environment offers is found. -/
theorem lookup {name : List String} (h : ρ.Finds N s scope fun _ env => N.Offers env name)
    (hn : s.scopes.Nested) :
    ρ.more = [] ∨ s.scopes.lookupTable scope name s.settings.matching .empty s.sources ≠ .ok none := by
  refine h.imp_right fun ⟨_, env, hprovides, hname⟩ => ?_
  rw [hprovides.matching]
  exact (hprovides.offers name hname).lookupTable_ne_none hn .empty s.sources

variable (h : ρ.Finds N s parent P) (hs : s.scopes.get? scope = some found)
  (hparent : found.parent = some parent)

include h hs hparent

theorem block {select : NodeId} (hbound : ∀ entry ∈ N.sourcesOf select, s.Exposes N scope entry) :
    ρ.Finds N s scope fun ops env' => ∃ env, env' = .block select :: env ∧ P ops env :=
  h.imp_right fun ⟨hengine, env, hprovides, hP⟩ =>
    ⟨hengine, _, hprovides.block hs hparent hbound, env, rfl, hP⟩

theorem item {item : NodeId} {shown : String} (hrole : found.role = .withItem item shown) :
    ρ.Finds N s scope fun ops env' => ∃ env, env' = .item item shown :: env ∧ P ops env :=
  h.imp_right fun ⟨hengine, env, hprovides, hP⟩ =>
    ⟨hengine, _, hprovides.item hs hparent hrole, env, rfl, hP⟩

theorem recursive {item : NodeId} {shown : String} (hrole : found.role = .recursiveItem item shown) :
    ρ.Finds N s scope fun ops env' => ∃ env, env' = .recursive item shown :: env ∧ P ops env :=
  h.imp_right fun ⟨hengine, env, hprovides, hP⟩ =>
    ⟨hengine, _, hprovides.recursive hs hparent hrole, env, rfl, hP⟩

end Renumbering.Finds

namespace Renumbering.Suits

variable (h : ρ.Suits t₀ own rank)

include h

/-- Nodes of the part keep their numbers. -/
theorem node_eq {a : NodeId} (ha : own a) : ρ.nodes.node a = a := by
  refine Shift.node_of_lt ?_
  rw [h.start]
  exact h.isClosed.lt_size a ha

/-- A node of the part that is as it was written refers to the same nodes in both sessions. -/
theorem renumber_eq {a : NodeId} {n : Node} (ha : own a) (hn : t₀.node? a = some n) :
    n.renumber ρ.nodes.node = n :=
  Node.renumber_eq_self fun c hc => h.node_eq (h.isClosed.child a c ha ⟨n, hn, hc⟩)

/-- What belongs to the validation of the part is a node of it or has been added. -/
theorem of_isPart {t : Tree} {depth : Nat} {id : NodeId}
    (hid : Tree.IsPart t₀ (Tree.HasRoom own rank) depth t id) : own id ∨ ρ.nodes.start ≤ id.index := by
  rw [h.start]
  rcases hid with ⟨a, ha, hw⟩ | ⟨hnew, -⟩
  · cases hw with
    | self => exact .inl ha.1
    | cast hnew => exact .inr hnew
  · exact .inr hnew

/-- That sources are registered for their own nodes survives the validation of the part. -/
theorem upholds : Session.Upholds t₀ (Tree.HasRoom own rank) 0 Session.OwnsSources where
  closed := h.closed
  lt_size hp := h.isClosed.lt_size _ hp.1
  child hp hc := hp.child h.isClosed h.rank hc
  below hp hc := hp.below h.isClosed h.rank hc
  base_le _ := Nat.zero_le _
  view hs hid := RowSources.Owned.selfView hs _ _ hid
  record _ hs _ _ := hs
  newScope hs _ _ := hs
  addBinding hs _ _ _ := hs
  register _ _ hs _ := RowSources.Owned.register hs _ _ _
  selfView hs _ _ hview := RowSources.Owned.of_selfView hs hview
  setRow hs _ _ _ hset := RowSources.Owned.of_setRow hs hset
  selfReference _ hs := hs
  tree hs _ _ _ := hs
  requests _ hs := hs

end Renumbering.Suits

/-- A source that has been registered, under a number that stands for another one. -/
theorem RowSources.Holds.of_node {p : Pairing} {s : RowSources} {source : SourceId} {node : NodeId}
    (hknown : p.Knows source.index) (h : ∃ e, s.get? source = some e ∧ e.node = some node) :
    s.Holds p source := by
  obtain ⟨e, he, -⟩ := h
  exact ⟨hknown, (Array.getElem?_eq_some_iff.mp he).1⟩

/-! ### Elementary changes -/

namespace Session.Mirrors

variable {s t : Session} {id : NodeId} {scope parent : ScopeId} {source : SourceId}
  (h : Session.Mirrors ρ own s t)

include h

/-- References to recursive items do not matter. -/
theorem withReferences (l l' : List (NodeId × SourceId)) :
    Session.Mirrors ρ own { s with selfReferences := l } { t with selfReferences := l' } :=
  ⟨h.settings, h.operators, h.engine, h.tree, h.types, h.sources, h.scopes⟩

/-- Neither do requests to the engine. -/
theorem withRequests (l l' : List CoercionRequest) :
    Session.Mirrors ρ own { s with requests := l } { t with requests := l' } :=
  ⟨h.settings, h.operators, h.engine, h.tree, h.types, h.sources, h.scopes⟩

/-- Both trees are replaced by ones that correspond. -/
theorem withTree {tree tree' : Tree} (ht : Tree.Mirrors ρ.nodes own tree tree') :
    Session.Mirrors ρ own { s with tree } { t with tree := tree' } :=
  ⟨h.settings, h.operators, h.engine, ht, h.types, h.sources, h.scopes⟩

theorem matching : t.settings.matching = s.settings.matching := by rw [h.settings]

theorem record (id : NodeId) (type : DataType) :
    EndAlike (Session.Mirrors ρ own) Eq s t (Validation.record id type)
      (Validation.record (ρ.nodes.node id) type) := by
  refine .update ⟨h.settings, h.operators, h.engine, h.tree, fun other ho => ?_, h.sources, h.scopes⟩
  simp only [OrderedMap.get?_put, Shift.node_inj]
  split
  · rfl
  · exact h.types other ho

/-- A scope is added below corresponding ones. -/
theorem newScope (hparent : s.scopes.Visible ρ.scopes parent) {role : ScopeRole}
    (hrole : role.ShowsOnly ρ.items) (node : Option NodeId) :
    EndAlike (Session.Mirrors ρ own) (fun a b => b = ρ.scopes.scope a ∧ ρ.scopes.left ≤ a.index) s t
      (Validation.onScopes (·.newScope parent role node))
      (Validation.onScopes (·.newScope (ρ.scopes.scope parent) role node)) := by
  obtain ⟨new, u, u', hnew, hnew', hscopes, hindex⟩ := h.scopes.newScope hparent hrole node
  have hx : Validation.onScopes (·.newScope parent role node) s =
      (.ok new, { s with scopes := u }) := by
    simp only [Validation.onScopes, hnew]
  have hy : Validation.onScopes (·.newScope (ρ.scopes.scope parent) role node) t =
      (.ok (ρ.scopes.scope new), { t with scopes := u' }) := by
    simp only [Validation.onScopes, hnew']
  exact .ok hx hy ⟨rfl, hindex⟩
    ⟨h.settings, h.operators, h.engine, h.tree, h.types, h.sources, hscopes⟩

/-- A name is bound to corresponding sources. -/
theorem bindName (hscope : s.scopes.Visible ρ.scopes scope)
    (hinner : ρ.more = [] ∨ ρ.scopes.left ≤ scope.index) (hsource : s.sources.Holds ρ.sources source)
    (name : String) :
    EndAlike (Session.Mirrors ρ own) Eq s t (Validation.bindName scope name source)
      (Validation.bindName (ρ.scopes.scope scope) name (ρ.sources.source source)) := by
  obtain ⟨u, u', hadd, hadd', hscopes, -⟩ :=
    h.scopes.addBinding hscope hinner (b := { names := [name], source, nullable := false }) hsource
  have hx : Validation.bindName scope name source s = (.ok (), { s with scopes := u }) := by
    simp only [Validation.bindName, Validation.onScopes, hadd, Except.map]
  have hy : Validation.bindName (ρ.scopes.scope scope) name (ρ.sources.source source) t =
      (.ok (), { t with scopes := u' }) := by
    have hadd' : t.scopes.addBinding (ρ.scopes.scope scope)
      { names := [name], source := ρ.sources.source source, nullable := false } = .ok u' := hadd'
    simp only [Validation.bindName, Validation.onScopes, hadd', Except.map]
  exact .ok hx hy rfl ⟨h.settings, h.operators, h.engine, h.tree, h.types, h.sources, hscopes⟩

/-- A source is registered for the same node. -/
theorem register (node : NodeId) (kind : SourceKind) (enclosing : Option NodeId) :
    EndAlike (Session.Mirrors ρ own) (fun a b => b = ρ.sources.source a ∧ ρ.sources.Knows a.index) s t
      (Validation.register node kind enclosing) (Validation.register node kind enclosing) := by
  refine .ok rfl rfl ⟨h.sources.nextId.symm, .inr h.sources.left_le⟩
    ⟨h.settings, h.operators, h.engine, h.tree, h.types, ?_, ?_⟩
  · exact h.sources.register node kind enclosing enclosing
  · exact h.scopes.grows (.register _ _ _ _)

/-- The view of an item from inside is the corresponding one. -/
theorem selfView (hid : ρ.items id) :
    EndAlike (Session.Mirrors ρ own) (fun a b => b = ρ.sources.source a ∧ ρ.sources.Knows a.index) s t
      (Validation.selfView id) (Validation.selfView id) := by
  cases hview : s.sources.selfView id with
  | error e =>
    have hview' := h.sources.selfView_eq_error hid hview
    have hx : Validation.selfView id s = (.error e, s) := by simp only [Validation.selfView, hview]
    have hy : Validation.selfView id t = (.error e, t) := by simp only [Validation.selfView, hview']
    exact .stop hx hy h
  | ok found =>
    obtain ⟨view, u⟩ := found
    obtain ⟨u', hview', hsources, hholds⟩ := h.sources.selfView_eq_ok hid hview
    have hx : Validation.selfView id s = (.ok view, { s with sources := u }) := by
      simp only [Validation.selfView, hview]
    have hy : Validation.selfView id t = (.ok (ρ.sources.source view), { t with sources := u' }) := by
      simp only [Validation.selfView, hview']
    exact .ok hx hy ⟨rfl, hholds.known⟩ ⟨h.settings, h.operators, h.engine, h.tree, h.types, hsources,
      h.scopes.grows (.of_selfView hview)⟩

/-- The row type of corresponding sources is set. -/
theorem setRow (hsource : s.sources.Holds ρ.sources source) (row : DataType) :
    EndAlike (Session.Mirrors ρ own) Eq s t (Validation.setRow source row)
      (Validation.setRow (ρ.sources.source source) row) := by
  obtain ⟨u, u', hset, hset', hsources⟩ := h.sources.setRow hsource row
  have hx : Validation.setRow source row s = (.ok (), { s with sources := u }) := by
    simp only [Validation.setRow, hset]
  have hy : Validation.setRow (ρ.sources.source source) row t = (.ok (), { t with sources := u' }) := by
    simp only [Validation.setRow, hset']
  exact .ok hx hy rfl ⟨h.settings, h.operators, h.engine, h.tree, h.types, hsources,
    h.scopes.grows (.of_setRow hset)⟩

end Session.Mirrors

/-! ### Names -/

/-- What is named after a node is named alike under other numbers. -/
@[simp] theorem baseName_renumber (f : NodeId → NodeId) (label : Option String) (n : Node)
    (place : Nat) : baseName label (n.renumber f) place = baseName label n place := by
  cases label with
  | some label => rfl
  | none => cases n <;> rfl

/-- Corresponding bindings have the same columns. -/
theorem RowSources.Mirrors.addBindings {sources sources' : RowSources}
    (h : RowSources.Mirrors ρ.sources ρ.items sources sources') {bindings : List Binding}
    (hbound : ∀ b ∈ bindings, sources.Holds ρ.sources b.source) (columns : Columns) :
    columns.addBindings sources' (bindings.map (Binding.renumber ρ)) =
      columns.addBindings sources bindings := by
  unfold Columns.addBindings
  induction bindings generalizing columns with
  | nil => rfl
  | cons b rest ih =>
    have hrow : sources'.rowOrEmpty (b.renumber ρ).source = sources.rowOrEmpty b.source :=
      h.rowOrEmpty (hbound b (List.mem_cons_self ..))
    rw [List.map_cons, List.foldl_cons, List.foldl_cons, hrow]
    exact ih (fun c hc => hbound c (List.mem_cons_of_mem _ hc)) _

namespace Session.Mirrors

variable {s t : Session} {scope : ScopeId} (h : Session.Mirrors ρ own s t)
  (hscope : s.scopes.Visible ρ.scopes scope)

include h hscope

/-- A name stands for corresponding tables when the further tables are not needed. -/
theorem requireTable (names : List String) (hfound : ρ.more = [] ∨
      s.scopes.lookupTable scope names s.settings.matching .empty s.sources ≠ .ok none) :
    t.scopes.requireTable (ρ.scopes.scope scope) names t.settings.matching t.sources =
        (s.scopes.requireTable scope names s.settings.matching s.sources).map
          (TableMatch.renumber ρ) ∧
      ∀ found, s.scopes.requireTable scope names s.settings.matching s.sources = .ok found →
        s.sources.Holds ρ.sources found.source := by
  rw [h.matching]
  exact h.scopes.requireTable h.sources (NameMatching.same_self _) hscope names hfound

omit hscope in
/-- A corresponding column has the same type. -/
theorem columnType (names : List String) {found : TableMatch}
    (hholds : s.sources.Holds ρ.sources found.source) :
    t.columnType names (found.renumber ρ) = s.columnType names found := by
  obtain ⟨row, hrow⟩ : ∃ row, s.sources.row? found.source = some row := by
    obtain ⟨e, -, he, -⟩ := h.sources.source _ hholds
    exact ⟨e.row, RowSources.row?_of_get? he⟩
  have hrow' : t.sources.row? (found.renumber ρ).source = some row :=
    (h.sources.row? hholds).trans hrow
  unfold Session.columnType
  rw [hrow', hrow, h.settings]
  rfl

/-- A column reference has the same type. It never means a table of the catalog, so further ones do not
    matter. -/
theorem referenceType (names : List String) :
    t.referenceType (ρ.scopes.scope scope) names = s.referenceType scope names := by
  match names with
  | [] => rfl
  | [column] =>
    unfold Session.referenceType
    simp only [h.matching, h.scopes.lookupColumn h.sources hscope column s.settings.matching]
    match s.scopes.lookupColumn scope column s.settings.matching s.sources with
    | .error _ => rfl
    | .ok none => rfl
    | .ok (some _) => rfl
  | first :: second :: rest =>
    obtain ⟨hlookup, hfound⟩ := h.scopes.lookupTable h.sources
      (NameMatching.same_self s.settings.caseSensitive) hscope (first :: second :: rest) .empty
    show t.qualifiedType _ _ = s.qualifiedType _ _
    unfold Session.qualifiedType
    simp only [h.matching]
    rcases hlookup with hlookup | ⟨hnone, found, hlookup, -, around, haround, hcatalog⟩
    · simp only [Settings.matching, hlookup]
      cases hanswer : s.scopes.lookupTable scope (first :: second :: rest)
          (.ofCaseSensitive s.settings.caseSensitive) .empty s.sources with
      | error e => rfl
      | ok answer =>
        cases answer with
        | none => rfl
        | some found =>
          obtain ⟨hholds, hvisible⟩ := hfound found hanswer
          have hcatalog : t.isCatalog (ρ.scopes.scope found.scope) = s.isCatalog found.scope := by
            obtain ⟨around, haround⟩ : ∃ around, s.scopes.get? found.scope = some around :=
              ⟨_, Array.getElem?_eq_getElem hvisible.lt_size⟩
            obtain ⟨around', haround', hrole, -⟩ := h.scopes.scope _ around hvisible haround
            unfold Session.isCatalog
            rw [haround, haround']
            exact congrArg (· == ScopeRole.catalog) hrole
          simp only [Except.map, Option.map_some]
          rw [h.columnType _ hholds]
          show (if t.isCatalog (ρ.scopes.scope found.scope) then _ else _) = _
          rw [hcatalog]
    -- Only a further table has the name, and it is in the catalog.
    · have hrefused : t.isCatalog found.scope = true := by
        unfold Session.isCatalog
        rw [haround]
        exact beq_iff_eq.mpr hcatalog
      simp only [Settings.matching, hlookup, hnone, hrefused, if_true]

end Session.Mirrors

end SqlTyping
