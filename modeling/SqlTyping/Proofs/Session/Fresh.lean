import SqlTyping.Proofs.Session.Naming

namespace SqlTyping

/-!
# Sessions before validation

* `Session.IsFresh` — a session that has been given a statement and the tables of a catalog, and in
  which nothing has been validated yet;
* `Session.HasCatalogOnly` — what is in such a session: the scope of the catalog with its tables;
* `Session.IsFresh.named` — the names bound in it stand for what its statement says.
-/

namespace Session

/-- A session before its first validation, with a catalog to which tables have been added. -/
inductive IsFresh : Session → Prop
  | start (settings : Settings) (tree : Tree) (operators : OperatorTable)
    (engine : CoercionEngine) : IsFresh { settings, tree, operators, engine }
  | addTable {s s' : Session} {names : List String} {row : DataType} {id : SourceId}
    (h : IsFresh s) (hadd : s.addTable names row = .ok (id, s')) : IsFresh s'

/-- The tables of the catalog. -/
def tables (s : Session) : List Binding :=
  ((s.scopes.get? ScopeTree.rootId).map (·.bindings)).getD []

/-- What gives names their meaning in a session. -/
def naming (s : Session) : Naming := ⟨s.tree, s.tables, s.settings.matching⟩

/-- The only scope is that of the catalog, its tables are the only row sources that have been asked
    for, and nothing has been found. -/
structure HasCatalogOnly (s : Session) : Prop where
  types : s.types = {}
  selfReferences : s.selfReferences = []
  byNode : s.sources.byNode = {}
  selfViews : s.sources.selfViews = {}
  scopes : s.scopes = ⟨#[{ Scope.root with bindings := s.tables }]⟩
  source : ∀ b ∈ s.tables, ∃ e, s.sources.get? b.source = some e ∧ ∃ names, e.kind = .table names

variable {s s' : Session}

/-- A table that is added comes behind the others. -/
theorem HasCatalogOnly.addTable {names : List String} {row : DataType} {id : SourceId}
    (h : s.HasCatalogOnly) (hadd : s.addTable names row = .ok (id, s')) : s'.HasCatalogOnly := by
  unfold Session.addTable at hadd
  rw [h.scopes] at hadd
  unfold ScopeTree.addBinding ScopeTree.size at hadd
  obtain ⟨rfl, rfl⟩ : s.sources.nextId = id ∧ _ = s' := by simpa [RowSources.registerTable,
    ScopeTree.rootId] using hadd
  have htables : ∀ b ∈ s.tables ++ [{ names, source := s.sources.nextId, nullable := false }],
      ∃ e, (s.sources.registerTable names row).2.get? b.source = some e ∧
        ∃ names, e.kind = .table names := by
    intro b hb
    rcases List.mem_append.mp hb with hb | hb
    · obtain ⟨e, he, hkind⟩ := h.source b hb
      exact ⟨e, RowSources.Grows.get?_push_of_some he _, hkind⟩
    · obtain rfl := List.mem_singleton.mp hb
      exact ⟨_, (RowSources.get?_push _ _ _).trans (if_pos rfl), names, rfl⟩
  exact ⟨h.types, h.selfReferences, h.byNode, h.selfViews, rfl, htables⟩

theorem IsFresh.hasCatalogOnly (h : s.IsFresh) : s.HasCatalogOnly := by
  induction h with
  | start settings tree operators engine =>
    exact ⟨rfl, rfl, rfl, rfl, rfl, fun b hb => absurd hb List.not_mem_nil⟩
  | addTable _ hadd ih => exact ih.addTable hadd

namespace HasCatalogOnly

/-- The scope of the catalog is the only one. -/
theorem get?_scopes (h : s.HasCatalogOnly) {id : ScopeId} {scope : Scope}
    (hs : s.scopes.get? id = some scope) :
    id = ScopeTree.rootId ∧ scope = { Scope.root with bindings := s.tables } := by
  rw [h.scopes] at hs
  obtain ⟨hlt, heq⟩ := Array.getElem?_eq_some_iff.mp hs
  obtain ⟨i⟩ := id
  have hi : i = 0 := by simpa using hlt
  subst hi
  exact ⟨rfl, heq.symm⟩

/-- The scope of the catalog is found under its number. -/
theorem get?_root (h : s.HasCatalogOnly) :
    s.scopes.get? ScopeTree.rootId = some { Scope.root with bindings := s.tables } := by
  rw [h.scopes]
  rfl

/-- No name is bound but those of the tables. -/
theorem named (h : s.HasCatalogOnly) : s.Named s.naming where
  matching := rfl
  nested id scope parent hs hparent := by
    obtain ⟨-, rfl⟩ := h.get?_scopes hs
    cases hparent
  catalog := .catalog h.get?_root rfl rfl rfl
  sources := by
    refine ⟨fun b hb => ?_, fun item w id _ hid => ?_, fun item id hid => ?_⟩
    · obtain ⟨e, he, hkind⟩ := h.source b hb
      exact ⟨⟨e, he, rfl, hkind⟩, by rintro _ ⟨⟩⟩
    · have hid : s.sources.byNode.get? item = some id := hid
      rw [h.byNode] at hid
      cases hid
    · have hid : s.sources.selfViews.get? item = some id := hid
      rw [h.selfViews] at hid
      cases hid
  opens id scope select hs hframe := by
    obtain ⟨-, rfl⟩ := h.get?_scopes hs
    cases hframe
  lists x hx := by
    rw [h.selfReferences] at hx
    cases hx
  tally := by
    rw [h.selfReferences, h.scopes]
    exact .refl _

end HasCatalogOnly

end Session

end SqlTyping
