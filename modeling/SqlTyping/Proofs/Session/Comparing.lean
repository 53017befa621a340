import SqlTyping.Proofs.Mirroring
import SqlTyping.Proofs.Session.Traversal

namespace SqlTyping

/-!
# Two validations of one statement

A statement is validated in two sessions that have the same scopes and number everything alike. They may
have other settings, and what is a type in one of them need only be like the type in the other:

* `Comparison` — what is fixed for the two sessions, and which types count as alike;
* `Session.Compares` — how the sessions stand to each other at every moment;
* `Session.Compares.requireTable`, `Session.Compares.referenceType` — names mean the same in both;
* `Session.Compares.record`, `Session.Compares.setRow` and so on — the same change to both;
* `Columns.Alike`, `unionRow_alike`, `renamed_alike` — column lists of queries.
-/

/-- What is fixed when two sessions are compared: their operators and their engine, the settings of the
    one and of the other, which types count as alike, and how the requests that they have made to the
    engine must stand to each other. -/
structure Comparison where
  likeness : Likeness
  operators : OperatorTable
  engine : CoercionEngine
  settings : Settings
  settings' : Settings
  caseSensitive : settings'.caseSensitive = settings.caseSensitive
  noted : List CoercionRequest → List CoercionRequest → Prop

/-- Row sources that differ only in that types are alike. -/
structure RowSource.Alike (L : Likeness) (e f : RowSource) : Prop where
  node : f.node = e.node
  kind : f.kind = e.kind
  enclosing : f.enclosing = e.enclosing
  row : L.types e.row f.row

/-- Registries with the same sources but for types that are alike. -/
structure RowSources.Alike (L : Likeness) (a b : RowSources) : Prop where
  size : b.size = a.size
  source : ∀ id, Option.Rel (RowSource.Alike L) (a.get? id) (b.get? id)
  byNode : b.byNode = a.byNode
  selfViews : b.selfViews = a.selfViews

/-- The sessions have come to the same: they differ in their settings as `κ` says, and in types that
    are alike. -/
structure Session.Compares (κ : Comparison) (s t : Session) : Prop where
  settings : s.settings = κ.settings
  settings' : t.settings = κ.settings'
  operators : s.operators = κ.operators
  operators' : t.operators = κ.operators
  engine : s.engine = κ.engine
  engine' : t.engine = κ.engine
  tree : t.tree = s.tree
  scopes : t.scopes = s.scopes
  sources : s.sources.Alike κ.likeness t.sources
  types : ∀ id, Option.Rel κ.likeness.types (s.types.get? id) (t.types.get? id)
  selfReferences : t.selfReferences = s.selfReferences
  requests : κ.noted s.requests t.requests

/-! ### Row sources -/

namespace RowSources.Alike

variable {L : Likeness} {a b : RowSources} (h : a.Alike L b)

include h

theorem nextId : b.nextId = a.nextId := congrArg SourceId.mk h.size

theorem row? (id : SourceId) : Option.Rel L.types (a.row? id) (b.row? id) := by
  have hsource := h.source id
  unfold RowSources.row?
  generalize a.get? id = e, b.get? id = f at hsource
  cases hsource with
  | none => exact .none
  | some hef => exact .some hef.row

theorem rowOrEmpty (id : SourceId) : L.types (a.rowOrEmpty id) (b.rowOrEmpty id) := by
  have hrow := h.row? id
  unfold RowSources.rowOrEmpty
  generalize a.row? id = row, b.row? id = row' at hrow
  cases hrow with
  | none => exact L.refl _
  | some hrow => exact hrow

theorem isSelfReference (id : SourceId) :
    (b.get? id).any RowSource.isSelfReference = (a.get? id).any RowSource.isSelfReference := by
  have hsource := h.source id
  generalize a.get? id = e, b.get? id = f at hsource
  cases hsource with
  | none => rfl
  | some hef =>
    unfold RowSource.isSelfReference
    simp only [Option.any_some, hef.kind]

theorem push {e f : RowSource} (hef : e.Alike L f) : (a.push e).Alike L (b.push f) := by
  refine ⟨?_, fun id => ?_, h.byNode, h.selfViews⟩
  · rw [size_push, size_push, h.size]
  · rw [get?_push, get?_push, h.nextId]
    split
    · exact .some hef
    · exact h.source id

theorem registerTable (names : List String) {row row' : DataType} (hrow : L.types row row') :
    (a.registerTable names row).2.Alike L (b.registerTable names row').2 :=
  h.push ⟨rfl, rfl, rfl, hrow⟩

theorem register (node : NodeId) (kind : SourceKind) (enclosing : Option NodeId) :
    (a.register node kind enclosing).2.Alike L (b.register node kind enclosing).2 := by
  have hpushed := h.push (e := ⟨some node, kind, .emptyRow, enclosing⟩) ⟨rfl, rfl, rfl, L.refl _⟩
  refine ⟨hpushed.size, hpushed.source, ?_, hpushed.selfViews⟩
  show b.byNode.put node b.nextId = a.byNode.put node a.nextId
  rw [h.byNode, h.nextId]

theorem selfView (item : NodeId) :
    AnswersAlike (fun x y => y.1 = x.1 ∧ x.2.Alike L y.2) (a.selfView item) (b.selfView item) := by
  unfold RowSources.selfView RowSources.selfViewOf? RowSources.ofNode?
  rw [h.selfViews, h.byNode]
  cases a.selfViews.get? item with
  | some id => exact .ok ⟨rfl, h⟩
  | none =>
    cases a.byNode.get? item with
    | none => exact .error _
    | some own =>
      have hsource := h.source own
      have henclosing : (b.get? own).bind (·.enclosing) = (a.get? own).bind (·.enclosing) := by
        generalize a.get? own = e, b.get? own = f at hsource
        cases hsource with
        | none => rfl
        | some hef => exact hef.enclosing
      have hpushed := h.push (e := ⟨some item, .selfReference own, .emptyRow, (a.get? own).bind
        (·.enclosing)⟩) ⟨rfl, rfl, rfl, L.refl _⟩
      simp only [henclosing, h.nextId]
      exact .ok ⟨rfl, hpushed.size, hpushed.source, hpushed.byNode, rfl⟩

theorem setRow (id : SourceId) {row row' : DataType} (hrow : L.types row row') :
    AnswersAlike (RowSources.Alike L) (a.setRow id row) (b.setRow id row') := by
  by_cases hlt : id.index < a.size
  · have hset : a.setRow id row = .ok _ := if_pos hlt
    have hset' : b.setRow id row' = .ok _ := if_pos (h.size ▸ hlt)
    rw [hset, hset']
    refine .ok ⟨?_, fun other => ?_, h.byNode, h.selfViews⟩
    · simpa only [RowSources.size, Array.size_modify] using h.size
    · rw [get?_setRow hset, get?_setRow hset']
      split
      · have hsource := h.source id
        generalize a.get? id = e, b.get? id = f at hsource
        cases hsource with
        | none => exact .none
        | some hef => exact .some ⟨hef.node, hef.kind, hef.enclosing, hrow⟩
      · exact h.source other
  · have hset : a.setRow id row = .error _ := if_neg hlt
    have hset' : b.setRow id row' = .error _ := if_neg (h.size ▸ hlt)
    rw [hset, hset']
    exact .error _

end RowSources.Alike

/-! ### Names -/

/-- The same table is meant, in the same words. -/
structure TableMatch.SameTable (found found' : TableMatch) : Prop where
  source : found'.source = found.source
  nullable : found'.nullable = found.nullable
  scope : found'.scope = found.scope
  path : found'.path.names = found.path.names
  remaining : found'.remaining = found.remaining

/-- Scopes that answer alike give lookups that end alike. -/
theorem ScopeTree.firstAlong_alike {α : Type} {Q : α → α → Prop} (t : ScopeTree)
    {ask ask' : ScopeId → Scope → Except Fault (Option α)}
    (h : ∀ id scope, AnswersAlike (Option.Rel Q) (ask id scope) (ask' id scope)) (ids : List ScopeId) :
    AnswersAlike (Option.Rel Q) (t.firstAlong ask ids) (t.firstAlong ask' ids) := by
  induction ids with
  | nil => exact .ok .none
  | cons id rest ih =>
    unfold ScopeTree.firstAlong
    cases t.get? id with
    | none => exact .error _
    | some scope =>
      have hone := h id scope
      simp only
      generalize ask id scope = r, ask' id scope = r' at hone
      cases hone with
      | ok hab =>
        cases hab with
        | none => exact ih
        | some hab => exact .ok (.some hab)
      | error e => exact .error e

/-- Lookups that end alike have the same table, or the same one is missed. -/
theorem ScopeTree.requireTable_alike {t u : ScopeTree} {scope : ScopeId} {names : List String}
    {m : NameMatching} {a b : RowSources}
    (h : AnswersAlike (Option.Rel TableMatch.SameTable) (t.lookupTable scope names m .empty a)
      (u.lookupTable scope names m .empty b)) :
    AnswersAlike TableMatch.SameTable (t.requireTable scope names m a)
      (u.requireTable scope names m b) := by
  unfold requireTable
  generalize t.lookupTable scope names m .empty a = r, u.lookupTable scope names m .empty b = r' at h
  cases h with
  | error e => exact .error e
  | ok hab =>
    cases hab with
    | none => exact .error _
    | some hab => exact .ok hab

namespace RowSources.Alike

variable {L : Likeness} {a b : RowSources} (h : a.Alike L b)

include h

/-- One scope has the same table for a name. -/
theorem tableIn (names : List String) (m : NameMatching) (path : Path) (id : ScopeId) (scope : Scope) :
    AnswersAlike (Option.Rel TableMatch.SameTable) (ScopeTree.tableIn names m path a id scope)
      (ScopeTree.tableIn names m path b id scope) := by
  have hitem : ScopeTree.itemMatch scope names b = ScopeTree.itemMatch scope names a := by
    unfold ScopeTree.itemMatch RowSources.ofNode? RowSources.selfViewOf?
    rw [h.byNode, h.selfViews]
  unfold ScopeTree.tableIn
  rw [hitem]
  cases ScopeTree.itemMatch scope names a with
  | error e => exact .error e
  | ok answer =>
    cases answer with
    | some source => exact .ok (.some ⟨rfl, rfl, rfl, by simp, rfl⟩)
    | none =>
      cases ScopeTree.leadingBinding? m names 0 scope.bindings with
      | none => exact .ok .none
      | some found => exact .ok (.some ⟨rfl, rfl, rfl, by simp, rfl⟩)

theorem lookupTable (t : ScopeTree) (scope : ScopeId) (names : List String) (m : NameMatching) :
    AnswersAlike (Option.Rel TableMatch.SameTable) (t.lookupTable scope names m .empty a)
      (t.lookupTable scope names m .empty b) :=
  t.firstAlong_alike (h.tableIn names m .empty) _

theorem requireTable (t : ScopeTree) (scope : ScopeId) (names : List String) (m : NameMatching) :
    AnswersAlike TableMatch.SameTable (t.requireTable scope names m a)
      (t.requireTable scope names m b) :=
  ScopeTree.requireTable_alike (h.lookupTable t scope names m)

/-- One scope has columns of alike types under a name. -/
theorem columnIn (name : String) (m : NameMatching) (id : ScopeId) (scope : Scope) :
    AnswersAlike (Option.Rel fun c d : ColumnMatch => L.types c.type d.type)
      (ScopeTree.columnIn name m a id scope) (ScopeTree.columnIn name m b id scope) := by
  have hone : ∀ binding, Option.Rel (fun c d : ColumnMatch => L.types c.type d.type)
      (ScopeTree.columnOf name m a id binding) (ScopeTree.columnOf name m b id binding) := by
    intro binding
    have hrow := h.row? binding.source
    unfold ScopeTree.columnOf
    generalize a.row? binding.source = row, b.row? binding.source = row' at hrow
    cases hrow with
    | none => exact .none
    | @some row row' hrow =>
      have hfield := L.field? hrow name m.isCaseSensitive
      simp only [Option.bind_some]
      generalize row.field? name m.isCaseSensitive = f, row'.field? name m.isCaseSensitive = g
        at hfield
      cases hfield with
      | none => exact .none
      | some hfg => exact .some (L.orNullable hfg.type (L.flags_refl _))
  have hcolumns : List.Forall₂ (fun c d : ColumnMatch => L.types c.type d.type)
      (scope.bindings.filterMap (ScopeTree.columnOf name m a id))
      (scope.bindings.filterMap (ScopeTree.columnOf name m b id)) :=
    List.rel_filterMap (R := Eq) (fun binding _ heq => heq ▸ hone binding) (List.forall₂_refl _)
  unfold ScopeTree.columnIn
  split
  · exact .ok .none
  · generalize scope.bindings.filterMap (ScopeTree.columnOf name m a id) = cs,
      scope.bindings.filterMap (ScopeTree.columnOf name m b id) = ds at hcolumns
    cases hcolumns with
    | nil => exact .ok .none
    | cons hcd hrest =>
      cases hrest with
      | nil => exact .ok (.some hcd)
      | cons => exact .error _

end RowSources.Alike

namespace Session.Compares

variable {κ : Comparison} {s t : Session} (h : s.Compares κ t)

include h

theorem matching : t.settings.matching = s.settings.matching := by
  unfold Settings.matching
  rw [h.settings, h.settings', κ.caseSensitive]

theorem requireTable (scope : ScopeId) (names : List String) :
    AnswersAlike TableMatch.SameTable
      (s.scopes.requireTable scope names s.settings.matching s.sources)
      (t.scopes.requireTable scope names t.settings.matching t.sources) := by
  rw [h.matching, h.scopes]
  exact h.sources.requireTable s.scopes scope names _

/-- The column of a table that was found has alike types. -/
theorem columnType (names : List String) {found found' : TableMatch} (hf : found.SameTable found') :
    AnswersAlike κ.likeness.types (s.columnType names found) (t.columnType names found') := by
  unfold Session.columnType
  rw [hf.remaining, hf.source, hf.nullable, h.settings, h.settings', κ.caseSensitive]
  unfold Path.text
  rw [hf.path]
  split
  · rename_i column _
    have hrow := h.sources.row? found.source
    generalize s.sources.row? found.source = row, t.sources.row? found.source = row' at hrow
    cases hrow with
    | none => exact .error _
    | @some row row' hrow =>
      have hfield := κ.likeness.field? hrow column κ.settings.caseSensitive
      simp only
      generalize row.field? column κ.settings.caseSensitive = f,
        row'.field? column κ.settings.caseSensitive = g at hfield
      cases hfield with
      | none => exact .error _
      | some hfg => exact .ok (κ.likeness.orNullable hfg.type (κ.likeness.flags_refl _))
  · exact .error _

/-- A column reference has alike types. -/
theorem referenceType (scope : ScopeId) (names : List String) :
    AnswersAlike κ.likeness.types (s.referenceType scope names) (t.referenceType scope names) := by
  match names with
  | [] => exact .error _
  | [column] =>
    have hlookup : AnswersAlike (Option.Rel fun c d : ColumnMatch => κ.likeness.types c.type d.type)
        (s.scopes.lookupColumn scope column s.settings.matching s.sources)
        (t.scopes.lookupColumn scope column t.settings.matching t.sources) := by
      rw [h.matching, h.scopes]
      exact s.scopes.firstAlong_alike (h.sources.columnIn column s.settings.matching) _
    unfold Session.referenceType
    simp only
    generalize s.scopes.lookupColumn scope column s.settings.matching s.sources = r,
      t.scopes.lookupColumn scope column t.settings.matching t.sources = r' at hlookup
    cases hlookup with
    | error e => exact .error e
    | ok hcd =>
      cases hcd with
      | none => exact .error _
      | some hcd => exact .ok hcd
  | first :: second :: rest =>
    have hlookup : AnswersAlike (Option.Rel TableMatch.SameTable)
        (s.scopes.lookupTable scope (first :: second :: rest) s.settings.matching .empty s.sources)
        (t.scopes.lookupTable scope (first :: second :: rest) t.settings.matching .empty
          t.sources) := by
      rw [h.matching, h.scopes]
      exact h.sources.lookupTable s.scopes scope _ _
    have hcatalog : ∀ id, t.isCatalog id = s.isCatalog id := by
      intro id
      unfold Session.isCatalog
      rw [h.scopes]
    show AnswersAlike _ (s.qualifiedType _ _) (t.qualifiedType _ _)
    unfold Session.qualifiedType
    generalize s.scopes.lookupTable scope (first :: second :: rest) s.settings.matching .empty
      s.sources = r, t.scopes.lookupTable scope (first :: second :: rest) t.settings.matching .empty
      t.sources = r' at hlookup
    cases hlookup with
    | error e => exact .error e
    | ok hab =>
      cases hab with
      | none => exact .error _
      | some hab =>
        simp only [hcatalog, hab.scope]
        split
        · exact .error _
        · exact h.columnType _ hab

end Session.Compares

/-! ### Columns -/

/-- Columns of the same names with alike types. -/
def Columns.Alike (L : Likeness) (cs ds : Columns) : Prop :=
  List.Forall₂ (fun c d => d.1 = c.1 ∧ L.types c.2 d.2) cs ds

section

variable {L : Likeness} {cs ds : Columns}

theorem Columns.Alike.names (h : cs.Alike L ds) : ds.names = cs.names := by
  unfold Columns.names
  induction h with
  | nil => rfl
  | cons hcd _ ih => rw [List.map_cons, List.map_cons, hcd.1, ih]

theorem Columns.Alike.add (h : cs.Alike L ds) (name : String) {a b : DataType} (hab : L.types a b) :
    (cs.add name a).Alike L (ds.add name b) := by
  unfold Columns.add
  rw [h.names]
  exact List.rel_append h (.cons ⟨rfl, hab⟩ .nil)

theorem Columns.Alike.addRow (h : cs.Alike L ds) {a b : DataType} (hab : L.types a b)
    (nullable : Bool) : (cs.addRow a nullable).Alike L (ds.addRow b nullable) := by
  unfold Columns.addRow
  refine List.rel_foldl (R := Field.Alike L.types) (P := Columns.Alike L) ?_ h (L.fields hab)
  intro cs ds h f g hfg
  simp only [hfg.name]
  exact h.add f.name (L.orNullable hfg.type (L.flags_refl nullable))

theorem Columns.Alike.addBindings (h : cs.Alike L ds) {a b : RowSources} (hab : a.Alike L b)
    (bindings : List Binding) : (cs.addBindings a bindings).Alike L (ds.addBindings b bindings) := by
  unfold Columns.addBindings
  induction bindings generalizing cs ds with
  | nil => exact h
  | cons binding rest ih => exact ih (h.addRow (hab.rowOrEmpty binding.source) binding.nullable)

/-- Set operations of alike inputs. -/
theorem unionRow_alike (operation : String) {left left' right right' : DataType}
    (hleft : L.types left left') (hright : L.types right right') :
    AnswersAlike L.types (unionRow operation left right) (unionRow operation left' right') := by
  have hl := L.fields hleft
  have hr := L.fields hright
  unfold unionRow
  rw [L.fieldCount hleft, L.fieldCount hright]
  split
  · rename_i hcount
    clear hcount
    refine .ok (L.row ?_)
    generalize left.fields = fs, left'.fields = fs' at hl
    generalize right.fields = gs, right'.fields = gs' at hr
    induction hl generalizing gs gs' with
    | nil => exact .nil
    | cons hf _ ih =>
      cases hr with
      | nil => exact .nil
      | cons hg hrest =>
        exact .cons ⟨hf.name, L.orNullable hf.type (L.nullable hg.type)⟩ (ih _ _ hrest)
  · exact .error _

/-- A column list, or none, for alike row types. -/
theorem renamed_alike (name : String) (columns : Option (List String)) {a b : DataType}
    (hab : L.types a b) : AnswersAlike L.types (renamed name columns a) (renamed name columns b) := by
  unfold renamed
  cases columns with
  | none => exact .ok hab
  | some names =>
    have hrenamed := L.renameFields? hab names
    simp only [L.fieldCount hab]
    generalize a.renameFields? names = row, b.renameFields? names = row' at hrenamed
    cases hrenamed with
    | none => exact .error _
    | some hrow => exact .ok hrow

end

/-! ### The same change to both sessions -/

namespace Session.Compares

open Checking

variable {E : Prop} {κ : Comparison} {s t : Session} (h : s.Compares κ t)

include h

theorem withSources {sources sources' : RowSources} (hsources : sources.Alike κ.likeness sources') :
    Session.Compares κ { s with sources } { t with sources := sources' } :=
  { h with sources := hsources }

/-- A node is the same in both. -/
theorem node {α β : Type} {Q : α → β → Prop} {id : NodeId} {f : Node → Validation α}
    {g : Node → Validation β} (hfg : ∀ n, s.tree.node? id = some n →
      Follows E (Session.Compares κ) Q s t (f n) (g n)) :
    Follows E (Session.Compares κ) Q s t (Validation.node id >>= f) (Validation.node id >>= g) := by
  have hsame : t.tree.node? id = s.tree.node? id := by rw [h.tree]
  cases hn : s.tree.node? id with
  | none =>
    exact .stop (bind_of_error (node_of_none hn) f) (bind_of_error (node_of_none (hsame.trans hn)) g) h
  | some n =>
    exact (hfg n hn).of_apply (bind_of_ok (node_of_some hn) f)
      (bind_of_ok (node_of_some (hsame.trans hn)) g)

theorem record (id : NodeId) {type type' : DataType} (htype : κ.likeness.types type type') :
    Follows E (Session.Compares κ) Eq s t (Validation.record id type)
      (Validation.record id type') := by
  refine .update { h with types := fun other => ?_ }
  simp only [OrderedMap.get?_put]
  split
  · exact .some htype
  · exact h.types other

theorem onScopes {α : Type} (change : ScopeTree → Except Fault (α × ScopeTree)) :
    Follows E (Session.Compares κ) Eq s t (Validation.onScopes change)
      (Validation.onScopes change) := by
  cases hchange : change s.scopes with
  | error e =>
    have hx : Validation.onScopes change s = (.error e, s) := by
      simp only [Validation.onScopes, hchange]
    have hy : Validation.onScopes change t = (.error e, t) := by
      simp only [Validation.onScopes, h.scopes, hchange]
    exact .stop hx hy h
  | ok found =>
    have hx : Validation.onScopes change s = (.ok found.1, { s with scopes := found.2 }) := by
      simp only [Validation.onScopes, hchange]
    have hy : Validation.onScopes change t = (.ok found.1, { t with scopes := found.2 }) := by
      simp only [Validation.onScopes, h.scopes, hchange]
    exact .ok hx hy rfl { h with scopes := rfl }

theorem register (node : NodeId) (kind : SourceKind) (enclosing : Option NodeId) :
    Follows E (Session.Compares κ) Eq s t (Validation.register node kind enclosing)
      (Validation.register node kind enclosing) :=
  .ok rfl rfl h.sources.nextId.symm (h.withSources (h.sources.register node kind enclosing))

theorem selfView (item : NodeId) :
    Follows E (Session.Compares κ) Eq s t (Validation.selfView item) (Validation.selfView item) := by
  have hview := h.sources.selfView item
  have hx := Validation.selfView_apply item s
  have hy := Validation.selfView_apply item t
  generalize s.sources.selfView item = r, t.sources.selfView item = r' at hview hx hy
  cases hview with
  | ok hab => exact .ok hx hy hab.1.symm (h.withSources hab.2)
  | error e => exact .stop hx hy h

theorem setRow (source : SourceId) {row row' : DataType} (hrow : κ.likeness.types row row') :
    Follows E (Session.Compares κ) Eq s t (Validation.setRow source row)
      (Validation.setRow source row') := by
  have hset := h.sources.setRow source hrow
  have hx := Validation.setRow_apply source row s
  have hy := Validation.setRow_apply source row' t
  generalize s.sources.setRow source row = r, t.sources.setRow source row' = r' at hset hx hy
  cases hset with
  | ok hab => exact .ok hx hy rfl (h.withSources hab)
  | error e => exact .stop hx hy h

end Session.Compares

end SqlTyping
