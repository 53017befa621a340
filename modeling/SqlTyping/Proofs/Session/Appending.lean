import SqlTyping.Proofs.Session.Naming
import SqlTyping.Proofs.Session.WithItems

namespace SqlTyping

/-!
# Validation only appends

Whatever a validation is asked for and however it ends, what scopes, row sources and recorded types there
were before are still there afterwards:

* `RowSources.Renews` — the one thing that may happen to a row source that was there: it is the view of a
  recursive WITH item from inside, and the item has been registered again;
* `Session.Appends` — all that may happen to a session;
* `Session.invariant_appends` — every change that validation makes outside calls only appends, as names
  are bound in new scopes and row types are set for sources that have been opened since;
* `validation_appends` — so does every validation, of any node from any scope.
-/

/-- The source is the view, known in `s`, of an item that has been registered once more in `t`. -/
def RowSources.Renews (s t : RowSources) (id : SourceId) : Prop :=
  ∃ item own e, s.selfViewOf? item = some id ∧ t.get? own = some e ∧ e.node = some item ∧
    e.kind = .withItem ∧ s.size ≤ own.index

/-- Row sources are added. Those that were there keep all but their row types, and a row type changes
    only when its source is renewed. A source that was there becomes the view of no other item. -/
structure RowSources.Appends (s t : RowSources) : Prop where
  source : ∀ id e, s.get? id = some e →
    ∃ row, t.get? id = some { e with row } ∧ (row = e.row ∨ s.Renews t id)
  selfView : ∀ item id, t.selfViewOf? item = some id →
    s.selfViewOf? item = some id ∨ s.size ≤ id.index

/-- Scopes, row sources, recorded types and references to recursive items are only added to. -/
structure Session.Appends (s t : Session) : Prop where
  scopes : s.scopes.Extends t.scopes
  sources : s.sources.Appends t.sources
  recorded : ∀ id, (s.types.get? id).isSome = true → (t.types.get? id).isSome = true
  selfReferences : s.selfReferences <+: t.selfReferences

namespace RowSources.Appends

variable {s t t' : RowSources}

theorem refl (s : RowSources) : s.Appends s :=
  ⟨fun _ e he => ⟨e.row, he, .inl rfl⟩, fun _ _ h => .inl h⟩

theorem size_le (h : s.Appends t) : s.size ≤ t.size := by
  refine Nat.le_of_not_lt fun hlt => ?_
  have hlast : s.get? ⟨t.size⟩ = some _ := Array.getElem?_eq_getElem hlt
  obtain ⟨row, he, -⟩ := h.source _ _ hlast
  exact Nat.lt_irrefl _ (Array.getElem?_eq_some_iff.mp he).1

/-- Sources that are there stay as they are, and only new ones become views of items. -/
theorem of_kept (h : s.Appends t) (hget : ∀ id e, t.get? id = some e → t'.get? id = some e)
    (hview : ∀ item id, t'.selfViewOf? item = some id →
      t.selfViewOf? item = some id ∨ t.size ≤ id.index) : s.Appends t' where
  source id e he := by
    obtain ⟨row, hrow, hcase⟩ := h.source id e he
    refine ⟨row, hget _ _ hrow, hcase.imp_right ?_⟩
    rintro ⟨item, own, e', hknown, hown, hrest⟩
    exact ⟨item, own, e', hknown, hget _ _ hown, hrest⟩
  selfView item id hid := (hview item id hid).elim (h.selfView item id) fun hnew =>
    .inr (Nat.le_trans h.size_le hnew)

theorem register (h : s.Appends t) (node : NodeId) (kind : SourceKind) (enclosing : Option NodeId) :
    s.Appends (t.register node kind enclosing).2 :=
  h.of_kept (fun _ _ he => Grows.get?_push_of_some he _) fun _ _ hid => .inl hid

theorem of_selfView {item : NodeId} {id : SourceId} (h : s.Appends t)
    (hview : t.selfView item = .ok (id, t')) : s.Appends t' := by
  rcases selfView_eq_ok hview with ⟨-, rfl⟩ | ⟨own, -, -, rfl, rfl⟩
  · exact h
  · refine h.of_kept (fun _ _ he => Grows.get?_push_of_some he _) fun other id hid => ?_
    rw [selfViewOf?_addView] at hid
    split at hid
    · cases hid
      exact .inr (Nat.le_refl _)
    · exact .inl hid

/-- The row type of a source is set that has been opened since a moment behind `s`. -/
theorem setRow {u : RowSources} {id : SourceId} {row : DataType} (h : s.Appends t) (hu : s.Appends u)
    (hopen : u.OpenSince t id) (hset : t.setRow id row = .ok t') : s.Appends t' := by
  -- An item that is registered stays so when its row type is set.
  have hkept : ∀ own e, t.get? own = some e → ∃ e', t'.get? own = some e' ∧ e'.node = e.node ∧
      e'.kind = e.kind := (Grows.of_setRow hset).source
  have hrenews : ∀ other, s.Renews t other → s.Renews t' other := by
    rintro other ⟨item, own, e, hknown, hown, hnode, hkind, hnew⟩
    obtain ⟨e', he', hnode', hkind'⟩ := hkept own e hown
    exact ⟨item, own, e', hknown, he', hnode'.trans hnode, hkind'.trans hkind, hnew⟩
  refine ⟨fun other e he => ?_, fun item other hid => h.selfView item other ?_⟩
  · obtain ⟨row', hrow, hcase⟩ := h.source other e he
    rw [get?_setRow hset]
    split
    · rename_i heq
      subst heq
      refine ⟨row, by rw [hrow]; rfl, .inr (hrenews other ?_)⟩
      have hold : other.index < s.size := (Array.getElem?_eq_some_iff.mp he).1
      rcases hopen with hnew | ⟨item, own, e', hview, hown, hnode, hkind, hnew⟩
      · exact absurd hold (Nat.not_lt_of_le (Nat.le_trans hu.size_le hnew))
      · exact ⟨item, own, e', (h.selfView item other hview).resolve_right (Nat.not_le_of_lt hold), hown,
          hnode, hkind, Nat.le_trans hu.size_le hnew⟩
    · exact ⟨row', hrow, hcase.imp_right (hrenews other)⟩
  · rwa [selfViewOf?_of_setRow hset] at hid

end RowSources.Appends

namespace Session

variable {s t : Session}

theorem Appends.refl (s : Session) : s.Appends s := ⟨.refl _, .refl _, fun _ h => h, List.prefix_rfl⟩

/-- A scope that is changed is none of those that were there. -/
theorem Appends.addBinding {scope : ScopeId} {binding : Binding} {scopes : ScopeTree} (h : s.Appends t)
    (hscope : s.scopes.size ≤ scope.index) (hadd : t.scopes.addBinding scope binding = .ok scopes) :
    s.Appends { t with scopes } := by
  refine ⟨fun id found hs => ?_, h.sources, h.recorded, h.selfReferences⟩
  have hold : id.index < s.scopes.size := (Array.getElem?_eq_some_iff.mp hs).1
  rw [ScopeTree.get?_addBinding hadd, if_neg (by rintro rfl; exact Nat.not_lt_of_le hscope hold)]
  exact h.scopes id found hs

/-- Outside calls validation only appends. -/
theorem invariant_appends (s : Session) : Session.Invariant s.scopes.size s.Appends where
  base_le h := h.scopes.size_le
  record id type h := by
    refine ⟨h.scopes, h.sources, fun other hother => ?_, h.selfReferences⟩
    have hkept := h.recorded other hother
    rw [OrderedMap.get?_put]
    split
    · rfl
    · exact hkept
  newScope h hnew := ⟨h.scopes.trans (.newScope hnew), h.sources, h.recorded, h.selfReferences⟩
  addBinding h hscope hadd := h.addBinding hscope hadd
  register node kind enclosing h :=
    ⟨h.scopes, h.sources.register node kind enclosing, h.recorded, h.selfReferences⟩
  selfView h hview := ⟨h.scopes, h.sources.of_selfView hview, h.recorded, h.selfReferences⟩
  setRow h hopen hset := by
    obtain ⟨u, hu, hopen⟩ := hopen
    exact ⟨h.scopes, h.sources.setRow hu.sources hopen hset, h.recorded, h.selfReferences⟩
  selfReference _ h :=
    ⟨h.scopes, h.sources, h.recorded, h.selfReferences.trans (List.prefix_append _ _)⟩

theorem visitAt_appends (s : Session) (depth : Nat) : (visitAt depth).Keeps s.Appends :=
  visitAt_keeps_apart (fun _ _ h => ⟨h.scopes, h.sources, h.recorded, h.selfReferences⟩)
    (fun _ _ h => ⟨h.scopes, h.sources, h.recorded, h.selfReferences⟩) s.invariant_appends depth

end Session

/-- Validating a query or an expression leaves the scopes that there are as they are, and so it does with
    what row sources stand for, with types that are recorded being recorded, and with the references to
    recursive items so far. A row type changes only for the view of a recursive item that is validated
    again. This holds in every session, in every scope, of every node and with every engine, and also when
    validation fails. -/
theorem validation_appends (s : Session) (scope : ScopeId) (id : NodeId) :
    s.Appends (Session.validateQuery id s).2 ∧ s.Appends (Session.validateQueryIn scope id s).2 ∧
      s.Appends (Session.deriveType scope id s).2 := by
  have h := s.visitAt_appends s.maxDepth
  exact ⟨h.query _ id s (.refl s), h.query scope id s (.refl s), h.expression scope id s (.refl s)⟩

end SqlTyping
