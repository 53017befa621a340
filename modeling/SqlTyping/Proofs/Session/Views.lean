import Mathlib.Data.List.Forall2
import Mathlib.Data.Option.Defs
import SqlTyping.Proofs.Session.Naming
import SqlTyping.Session.Columns
import SqlTyping.Session.Reference

namespace SqlTyping

/-!
# What can be seen from a scope

Numbers of scopes and row sources say nothing about what names mean. What matters to a validation is
which names, rows and WITH items are around it:

* `View` — what can be seen from a scope, level by level;
* `Session.Sees` — a scope of a session has a view;
* `Session.requireTable_of_sees`, `Session.referenceType_of_sees`, `Session.addBindings_of_shows` — names
  have the same meaning wherever the view is the same, also in different sessions;
* `Session.Leaves` — a session goes on with the scopes and the row sources it had, so that views stay
  (`Session.Sees.leaves`).
-/

/-- A table that can be seen. -/
structure Shown where
  names : List String
  nullable : Bool
  row : DataType

/-- What one scope shows: the names bound in it, and, before these, the WITH item it was made for. -/
inductive Level where
  | catalog (tables : List Shown)
  | block (entries : List Shown)
  | item (item : NodeId) (name : String) (row : DataType) (entries : List Shown)
  /-- An item as its own body sees it. -/
  | ownBody (item : NodeId) (name : String) (row : DataType) (entries : List Shown)

/-- What can be seen from a scope, innermost first. -/
abbrev View := List Level

/-- A binding shows a table. -/
structure Binding.Shows (sources : RowSources) (b : Binding) (w : Shown) : Prop where
  names : b.names = w.names
  nullable : b.nullable = w.nullable
  row : sources.row? b.source = some w.row

/-- A scope shows a level. -/
inductive Scope.Shows (sources : RowSources) (scope : Scope) : Level → Prop
  | catalog {tables} (hrole : scope.role = .catalog)
    (h : List.Forall₂ (Binding.Shows sources) scope.bindings tables) : Shows sources scope (.catalog tables)
  | block {entries} (hrole : scope.role = .block)
    (h : List.Forall₂ (Binding.Shows sources) scope.bindings entries) : Shows sources scope (.block entries)
  | item {item name row entries id} (hrole : scope.role = .withItem item name)
    (h : List.Forall₂ (Binding.Shows sources) scope.bindings entries)
    (hid : sources.ofNode? item = some id) (hrow : sources.row? id = some row) :
    Shows sources scope (.item item name row entries)
  | ownBody {item name row entries id} (hrole : scope.role = .recursiveItem item name)
    (h : List.Forall₂ (Binding.Shows sources) scope.bindings entries)
    (hid : sources.selfViewOf? item = some id) (hrow : sources.row? id = some row) :
    Shows sources scope (.ownBody item name row entries)

/-- A scope has a view: it shows the first level, and the scopes around it show the others. -/
inductive Session.Sees (s : Session) : ScopeId → View → Prop
  | root {id scope level} (h : s.scopes.get? id = some scope) (hparent : scope.parent = none)
    (hlevel : scope.Shows s.sources level) : Sees s id [level]
  | inner {id parent scope around level view} (h : s.scopes.get? id = some scope)
    (hparent : scope.parent = some parent) (haround : s.scopes.get? parent = some around)
    (hdepth : scope.depth = around.depth + 1) (hlevel : scope.Shows s.sources level)
    (hrest : Sees s parent view) : Sees s id (level :: view)

/-- The WITH item that a level shows. -/
def Level.shownItem? : Level → Option NodeId
  | .catalog _ | .block _ => none
  | .item node _ _ _ | .ownBody node _ _ _ => some node

/-- No WITH item in view is one of the nodes `own`. -/
def View.Spares (own : NodeId → Prop) (view : View) : Prop :=
  ∀ level ∈ view, ∀ item, level.shownItem? = some item → ¬ own item

/-- From `s` to `s'` no scope and no row source has changed, and only the nodes `own` may stand for
    other row sources. -/
structure Session.Leaves (own : NodeId → Prop) (s s' : Session) : Prop where
  scopes : s.scopes.Extends s'.scopes
  sources : ∀ id e, s.sources.get? id = some e → s'.sources.get? id = some e
  items : ∀ node, ¬ own node → s'.sources.ofNode? node = s.sources.ofNode? node
  selfViews : ∀ node, ¬ own node → s'.sources.selfViewOf? node = s.sources.selfViewOf? node

/-! ### Lookups with the same view -/

/-- When the first lookup ends without a fault, so does the second, and what they find is related. -/
def Except.Follows {α β : Type} (R : α → β → Prop) (x : Except Fault (Option α))
    (y : Except Fault (Option β)) : Prop :=
  ∀ a, x = .ok a → ∃ b, y = .ok b ∧ Option.Rel R a b

section

variable {s t : Session} {id id' : ScopeId} {view : View} {α β : Type}

/-- A scope with a view is there. -/
theorem Session.Sees.exists_scope (h : s.Sees id view) : ∃ scope, s.scopes.get? id = some scope := by
  cases h with
  | root h => exact ⟨_, h⟩
  | inner h => exact ⟨_, h⟩

/-- Lookups that are related level by level are related along chains with the same view. -/
theorem Session.Sees.firstAlong (h : s.Sees id view) (h' : t.Sees id' view) {R : α → β → Prop}
    {ask : ScopeId → Scope → Except Fault (Option α)}
    {ask' : ScopeId → Scope → Except Fault (Option β)}
    (hask : ∀ level id scope id' scope', s.scopes.get? id = some scope →
      t.scopes.get? id' = some scope' → scope.Shows s.sources level →
        scope'.Shows t.sources level → Except.Follows R (ask id scope) (ask' id' scope')) :
    Except.Follows R (s.scopes.firstAlong ask (s.scopes.chain id))
      (t.scopes.firstAlong ask' (t.scopes.chain id')) := by
  -- One scope, then the ones around it.
  have hcons : ∀ {level id id' rest rest'} {scope scope' : Scope},
      s.scopes.get? id = some scope → t.scopes.get? id' = some scope' →
        scope.Shows s.sources level → scope'.Shows t.sources level →
          Except.Follows R (s.scopes.firstAlong ask rest) (t.scopes.firstAlong ask' rest') →
            Except.Follows R (s.scopes.firstAlong ask (id :: rest))
              (t.scopes.firstAlong ask' (id' :: rest')) := by
    intro level id id' rest rest' scope scope' hs ht hl hl' hrest a ha
    have hone := hask level id scope id' scope' hs ht hl hl'
    unfold ScopeTree.firstAlong at ha ⊢
    simp only [hs, ht] at ha ⊢
    cases hx : ask id scope with
    | error e =>
      rw [hx] at ha
      cases ha
    | ok answer =>
      obtain ⟨answer', hy, hrel⟩ := hone answer hx
      rw [hy]
      rw [hx] at ha
      cases hrel with
      | none => exact hrest a ha
      | some hrel =>
        cases ha
        exact ⟨_, rfl, .some hrel⟩
  induction h generalizing id' with
  | root h hparent hlevel =>
    cases h' with
    | root h' hparent' hlevel' =>
      rw [ScopeTree.chain_of_root h hparent, ScopeTree.chain_of_root h' hparent']
      refine hcons h h' hlevel hlevel' ?_
      rintro _ ⟨⟩
      exact ⟨none, rfl, .none⟩
    | inner _ _ _ _ _ hrest => cases hrest
  | inner h hparent haround hdepth hlevel hrest ih =>
    cases h' with
    | root => cases hrest
    | inner h' hparent' haround' hdepth' hlevel' hrest' =>
      rw [ScopeTree.chain_of_parent h hparent haround hdepth,
        ScopeTree.chain_of_parent h' hparent' haround' hdepth']
      exact hcons h h' hlevel hlevel' (ih hrest')

/-! ### Tables -/

/-- Two tables that were found are shown in the same way. -/
structure TableMatch.Alike (s t : Session) (found found' : TableMatch) : Prop where
  remaining : found'.remaining = found.remaining
  nullable : found'.nullable = found.nullable
  row : ∃ row, s.sources.row? found.source = some row ∧ t.sources.row? found'.source = some row
  catalog : t.isCatalog found'.scope = s.isCatalog found.scope

/-- Binding lists that show the same have the same first binding for a name. -/
theorem ScopeTree.leadingBinding?_of_shows {sources sources' : RowSources}
    {bindings bindings' : List Binding} {shown : List Shown} (m : NameMatching) (names : List String)
    (start : Nat) (h : List.Forall₂ (Binding.Shows sources) bindings shown)
    (h' : List.Forall₂ (Binding.Shows sources') bindings' shown) :
    Option.Rel (fun x y => ∃ w, x.2.Shows sources w ∧ y.2.Shows sources' w)
      (leadingBinding? m names start bindings) (leadingBinding? m names start bindings') := by
  induction h generalizing bindings' start with
  | nil =>
    cases h'
    exact .none
  | @cons b w bindings shown hb _ ih =>
    cases h' with
    | @cons b' _ bindings' _ hb' hrest' =>
      unfold leadingBinding?
      rw [hb.names, hb'.names]
      split
      · exact .some ⟨w, hb, hb'⟩
      · exact ih (start + 1) hrest'

/-- Scopes that show the same are both the catalog or both not. -/
theorem Session.isCatalog_of_shows {level : Level} {scope scope' : Scope}
    (hs : s.scopes.get? id = some scope) (ht : t.scopes.get? id' = some scope')
    (hl : scope.Shows s.sources level) (hl' : scope'.Shows t.sources level) :
    t.isCatalog id' = s.isCatalog id := by
  have hcatalog : scope.role = .catalog ↔ scope'.role = .catalog := by
    cases hl with
    | catalog hrole =>
      cases hl' with
      | catalog hrole' => simp [hrole, hrole']
    | block hrole =>
      cases hl' with
      | block hrole' => simp [hrole, hrole']
    | item hrole =>
      cases hl' with
      | item hrole' => simp [hrole, hrole']
    | ownBody hrole =>
      cases hl' with
      | ownBody hrole' => simp [hrole, hrole']
  unfold Session.isCatalog
  rw [hs, ht]
  exact Bool.eq_iff_iff.mpr (by simpa using hcatalog.symm)

section

variable {scope scope' : Scope} {m : NameMatching} {names : List String} {shown : List Shown}
  (hcatalog : t.isCatalog id' = s.isCatalog id)
  (h : List.Forall₂ (Binding.Shows s.sources) scope.bindings shown)
  (h' : List.Forall₂ (Binding.Shows t.sources) scope'.bindings shown)

include hcatalog h h'

/-- Where no item has the name, scopes that bind the same have the same table for it. -/
theorem ScopeTree.tableIn_of_bindings (hitem : itemMatch scope names s.sources = .ok none)
    (hitem' : itemMatch scope' names t.sources = .ok none) :
    Except.Follows (TableMatch.Alike s t) (tableIn names m .empty s.sources id scope)
      (tableIn names m .empty t.sources id' scope') := by
  intro a ha
  have hrel := leadingBinding?_of_shows m names 0 h h'
  rw [tableIn_of_not_shown hitem] at ha
  rw [tableIn_of_not_shown hitem']
  obtain rfl := Except.ok.inj ha
  refine ⟨_, rfl, ?_⟩
  generalize leadingBinding? m names 0 scope.bindings = x at hrel
  generalize leadingBinding? m names 0 scope'.bindings = y at hrel
  cases hrel with
  | none => exact .none
  | some hrel =>
    obtain ⟨w, hb, hb'⟩ := hrel
    refine .some ⟨?_, hb'.nullable.trans hb.nullable.symm, ⟨w.row, hb.row, hb'.row⟩, hcatalog⟩
    show names.drop _ = names.drop _
    rw [hb.names, hb'.names]

/-- An item that both scopes show comes before the names that are bound. -/
theorem ScopeTree.tableIn_of_itemNamed (item : NodeId) (name : String) {own own' : SourceId}
    {row : DataType}
    (hitem : itemMatch scope names s.sources = itemNamed names item name (some own))
    (hitem' : itemMatch scope' names t.sources = itemNamed names item name (some own'))
    (hrow : s.sources.row? own = some row) (hrow' : t.sources.row? own' = some row) :
    Except.Follows (TableMatch.Alike s t) (tableIn names m .empty s.sources id scope)
      (tableIn names m .empty t.sources id' scope') := by
  by_cases hname : names = [name]
  · subst hname
    rw [itemNamed_self] at hitem hitem'
    intro a ha
    rw [tableIn_of_shown hitem] at ha
    rw [tableIn_of_shown hitem']
    obtain rfl := Except.ok.inj ha
    exact ⟨_, rfl, .some ⟨rfl, rfl, ⟨row, hrow, hrow'⟩, hcatalog⟩⟩
  · rw [itemNamed_of_ne hname] at hitem hitem'
    exact tableIn_of_bindings hcatalog h h' hitem hitem'

end

/-- Two scopes that show the same have the same table for a name. -/
theorem ScopeTree.tableIn_of_shows {level : Level} {scope scope' : Scope} (m : NameMatching)
    (names : List String) (hs : s.scopes.get? id = some scope) (ht : t.scopes.get? id' = some scope')
    (hl : scope.Shows s.sources level) (hl' : scope'.Shows t.sources level) :
    Except.Follows (TableMatch.Alike s t) (tableIn names m .empty s.sources id scope)
      (tableIn names m .empty t.sources id' scope') := by
  have hcatalog := Session.isCatalog_of_shows hs ht hl hl'
  cases hl with
  | catalog hr h =>
    cases hl' with
    | catalog hr' h' =>
      exact tableIn_of_bindings hcatalog h h' (itemMatch_of_catalog hr) (itemMatch_of_catalog hr')
  | block hr h =>
    cases hl' with
    | block hr' h' =>
      exact tableIn_of_bindings hcatalog h h' (itemMatch_of_block hr) (itemMatch_of_block hr')
  | @item item name _ _ _ hr h hid hrow =>
    cases hl' with
    | item hr' h' hid' hrow' =>
      refine tableIn_of_itemNamed hcatalog h h' item name ?_ ?_ hrow hrow'
      · rw [itemMatch_of_withItem hr, hid]
      · rw [itemMatch_of_withItem hr', hid']
  | @ownBody item name _ _ _ hr h hid hrow =>
    cases hl' with
    | ownBody hr' h' hid' hrow' =>
      refine tableIn_of_itemNamed hcatalog h h' item name ?_ ?_ hrow hrow'
      · rw [itemMatch_of_recursiveItem hr, hid]
      · rw [itemMatch_of_recursiveItem hr', hid']

variable (hs : s.Sees id view) (ht : t.Sees id' view)
  (hmatching : t.settings.matching = s.settings.matching)

include hs ht hmatching

/-- A name stands for a table that is shown alike. -/
theorem Session.lookupTable_of_sees (names : List String) :
    Except.Follows (TableMatch.Alike s t)
      (s.scopes.lookupTable id names s.settings.matching .empty s.sources)
      (t.scopes.lookupTable id' names t.settings.matching .empty t.sources) := by
  rw [hmatching]
  exact hs.firstAlong ht fun _ _ _ _ _ h h' hl hl' =>
    ScopeTree.tableIn_of_shows s.settings.matching names h h' hl hl'

theorem Session.requireTable_of_sees {names : List String} {found : TableMatch}
    (h : s.scopes.requireTable id names s.settings.matching s.sources = .ok found) :
    ∃ found', t.scopes.requireTable id' names t.settings.matching t.sources = .ok found' ∧
      found.Alike s t found' := by
  obtain ⟨answer, hlooked, hrel⟩ :=
    lookupTable_of_sees hs ht hmatching names _ (ScopeTree.requireTable_eq_ok_iff.mp h)
  cases hrel with
  | some halike => exact ⟨_, ScopeTree.requireTable_eq_ok_iff.mpr hlooked, halike⟩

/-! ### Columns -/

omit hs ht in
theorem Session.caseSensitive_of_matching :
    t.settings.caseSensitive = s.settings.caseSensitive := by
  have h := congrArg NameMatching.isCaseSensitive hmatching
  simpa [Settings.matching] using h

omit hs ht in
/-- A column of two tables that are alike has the same type. -/
theorem TableMatch.Alike.columnType {found found' : TableMatch} {names : List String}
    {type : DataType} (ha : found.Alike s t found') (h : s.columnType names found = .ok type) :
    t.columnType names found' = .ok type := by
  -- The faults differ in the texts of the paths, which are of no concern.
  obtain ⟨row, hrow, hrow'⟩ := ha.row
  obtain ⟨column, shown, field, hremaining, hfound, hfield, htype⟩ := Session.columnType_eq_ok_iff.mp h
  obtain rfl := Option.some.inj (hrow.symm.trans hfound)
  refine Session.columnType_eq_ok_iff.mpr ⟨column, row, field, ha.remaining.trans hremaining, hrow', ?_, ?_⟩
  · rw [Session.caseSensitive_of_matching hmatching, hfield]
  · rw [ha.nullable, htype]

omit hs ht hmatching in
/-- Binding lists that show the same have columns of the same types under a name. -/
theorem ScopeTree.columnOf_of_shows {sources sources' : RowSources} {bindings bindings' : List Binding}
    {shown : List Shown} (id id' : ScopeId) (name : String) (m : NameMatching)
    (h : List.Forall₂ (Binding.Shows sources) bindings shown)
    (h' : List.Forall₂ (Binding.Shows sources') bindings' shown) :
    List.Forall₂ (fun c c' : ColumnMatch => c'.type = c.type)
      (bindings.filterMap (columnOf name m sources id))
      (bindings'.filterMap (columnOf name m sources' id')) := by
  induction h generalizing bindings' with
  | nil =>
    cases h'
    exact .nil
  | @cons b w bindings shown hb _ ih =>
    cases h' with
    | @cons b' _ bindings' _ hb' hrest' =>
      -- The column that a binding has, in terms of what it shows.
      have hone : ∀ {sources : RowSources} {id : ScopeId} {b : Binding}, b.Shows sources w →
          columnOf name m sources id b = (w.row.field? name m.isCaseSensitive).map fun field =>
            { scope := id, source := b.source, table := b.name, field, nullable := w.nullable } := by
        intro sources id b hb
        unfold columnOf
        rw [hb.row, hb.nullable]
        rfl
      rw [List.filterMap_cons, List.filterMap_cons, hone hb, hone hb']
      cases w.row.field? name m.isCaseSensitive with
      | none => exact ih hrest'
      | some field => exact .cons rfl (ih hrest')

omit hs ht hmatching in
/-- Two scopes that show the same have a column of the same type for a name. -/
theorem ScopeTree.columnIn_of_shows {level : Level} {scope scope' : Scope} (m : NameMatching)
    (name : String) (hl : scope.Shows s.sources level) (hl' : scope'.Shows t.sources level) :
    Except.Follows (fun c c' : ColumnMatch => c'.type = c.type)
      (columnIn name m s.sources id scope) (columnIn name m t.sources id' scope') := by
  have hbound : ∀ (shown : List Shown), scope.role ≠ .catalog → scope'.role ≠ .catalog →
      List.Forall₂ (Binding.Shows s.sources) scope.bindings shown →
        List.Forall₂ (Binding.Shows t.sources) scope'.bindings shown →
          Except.Follows (fun c c' : ColumnMatch => c'.type = c.type)
            (columnIn name m s.sources id scope) (columnIn name m t.sources id' scope') := by
    intro shown hrole hrole' h h' a ha
    have hcolumns := columnOf_of_shows id id' name m h h'
    unfold columnIn at ha ⊢
    rw [if_neg hrole] at ha
    rw [if_neg hrole']
    generalize scope.bindings.filterMap (columnOf name m s.sources id) = xs at ha hcolumns
    generalize scope'.bindings.filterMap (columnOf name m t.sources id') = ys at hcolumns
    cases hcolumns with
    | nil =>
      cases ha
      exact ⟨none, rfl, .none⟩
    | cons hone hrest =>
      cases hrest with
      | nil =>
        cases ha
        exact ⟨_, rfl, .some hone⟩
      | cons => cases ha
  cases hl with
  | catalog hr =>
    cases hl' with
    | catalog hr' =>
      intro a ha
      unfold columnIn at ha ⊢
      rw [if_pos hr] at ha
      cases ha
      exact ⟨none, if_pos hr', .none⟩
  | block hr h =>
    cases hl' with
    | block hr' h' => exact hbound _ (by simp [hr]) (by simp [hr']) h h'
  | item hr h =>
    cases hl' with
    | item hr' h' => exact hbound _ (by simp [hr]) (by simp [hr']) h h'
  | ownBody hr h =>
    cases hl' with
    | ownBody hr' h' => exact hbound _ (by simp [hr]) (by simp [hr']) h h'

/-- A column reference has the same type. -/
theorem Session.referenceType_of_sees {names : List String} {type : DataType}
    (h : s.referenceType id names = .ok type) : t.referenceType id' names = .ok type := by
  match names with
  | [column] =>
    obtain ⟨found, hfound, htype⟩ := Session.referenceType_one_eq_ok_iff.mp h
    obtain ⟨answer, hanswer, hrel⟩ := hs.firstAlong ht
      (fun _ _ _ _ _ _ _ hl hl' => ScopeTree.columnIn_of_shows s.settings.matching column hl hl')
      _ hfound
    cases hrel with
    | some hsame =>
      refine Session.referenceType_one_eq_ok_iff.mpr ⟨_, ?_, hsame.trans htype⟩
      rw [hmatching]
      exact hanswer
  | _ :: _ :: _ =>
    obtain ⟨found, hfound, hcatalog, htype⟩ := Session.qualifiedType_eq_ok_iff.mp h
    obtain ⟨answer, hanswer, hrel⟩ := lookupTable_of_sees hs ht hmatching _ _ hfound
    cases hrel with
    | some halike =>
      exact Session.qualifiedType_eq_ok_iff.mpr ⟨_, hanswer, halike.catalog.trans hcatalog,
        halike.columnType hmatching htype⟩

omit hs ht hmatching in
/-- Bindings that show the same have the same columns. -/
theorem Session.addBindings_of_shows {bindings bindings' : List Binding} {shown : List Shown}
    (h : List.Forall₂ (Binding.Shows s.sources) bindings shown)
    (h' : List.Forall₂ (Binding.Shows t.sources) bindings' shown) (columns : Columns) :
    columns.addBindings t.sources bindings' = columns.addBindings s.sources bindings := by
  induction h generalizing bindings' columns with
  | nil =>
    cases h'
    rfl
  | @cons b w bindings shown hb _ ih =>
    cases h' with
    | @cons b' _ bindings' _ hb' hrest' =>
      have hrow : t.sources.rowOrEmpty b'.source = s.sources.rowOrEmpty b.source := by
        unfold RowSources.rowOrEmpty
        rw [hb.row, hb'.row]
      have hnullable : b'.nullable = b.nullable := hb'.nullable.trans hb.nullable.symm
      have hrest : ∀ columns : Columns, columns.addBindings t.sources bindings' =
          columns.addBindings s.sources bindings := ih hrest'
      unfold Columns.addBindings at hrest ⊢
      rw [List.foldl_cons, List.foldl_cons, hrow, hnullable]
      exact hrest _

end

/-! ### Views that stay -/

section

variable {own own' : NodeId → Prop} {s s' s'' : Session} {id : ScopeId} {view : View}

theorem Session.Leaves.refl (s : Session) : s.Leaves own s :=
  ⟨.refl _, fun _ _ h => h, fun _ _ => rfl, fun _ _ => rfl⟩

/-- What a session knows besides scopes and row sources does not matter. -/
theorem Session.Leaves.of_same (hscopes : s'.scopes = s.scopes) (hsources : s'.sources = s.sources) :
    s.Leaves own s' where
  scopes := by
    rw [hscopes]
    exact .refl _
  sources id e he := by rwa [hsources]
  items node _ := by rw [hsources]
  selfViews node _ := by rw [hsources]

theorem Session.Leaves.trans (h : s.Leaves own s') (h' : s'.Leaves own s'') : s.Leaves own s'' where
  scopes := h.scopes.trans h'.scopes
  sources id e he := h'.sources id e (h.sources id e he)
  items node hn := (h'.items node hn).trans (h.items node hn)
  selfViews node hn := (h'.selfViews node hn).trans (h.selfViews node hn)

theorem Session.Leaves.mono (h : s.Leaves own s') (hown : ∀ id, own id → own' id) :
    s.Leaves own' s' where
  scopes := h.scopes
  sources := h.sources
  items node hn := h.items node fun ho => hn (hown node ho)
  selfViews node hn := h.selfViews node fun ho => hn (hown node ho)

theorem View.Spares.mono (h : view.Spares own') (hown : ∀ id, own id → own' id) : view.Spares own :=
  fun level hmem item hitem ho => h level hmem item hitem (hown item ho)

/-- One more level is in view. -/
theorem View.Spares.cons {level : Level} (h : view.Spares own)
    (hitem : ∀ item, level.shownItem? = some item → ¬ own item) : View.Spares own (level :: view) := by
  intro other hmem
  rcases List.mem_cons.mp hmem with rfl | hmem
  · exact hitem
  · exact h other hmem

/-- A row type that is there stays. -/
theorem Session.Leaves.row? (h : s.Leaves own s') {source : SourceId} {row : DataType}
    (hrow : s.sources.row? source = some row) : s'.sources.row? source = some row := by
  obtain ⟨e, he, rfl⟩ := Option.map_eq_some_iff.mp hrow
  exact RowSources.row?_of_get? (h.sources _ e he)

theorem Session.Leaves.bindings (h : s.Leaves own s') {bindings : List Binding} {shown : List Shown}
    (hb : List.Forall₂ (Binding.Shows s.sources) bindings shown) :
    List.Forall₂ (Binding.Shows s'.sources) bindings shown :=
  hb.imp fun _ _ hb => ⟨hb.names, hb.nullable, h.row? hb.row⟩

/-- What is seen from a scope stays as it is, unless a WITH item in view is validated again. -/
theorem Session.Sees.leaves (h : s.Sees id view) (hleaves : s.Leaves own s')
    (hspares : view.Spares own) : s'.Sees id view := by
  have hlevel : ∀ {scope : Scope} {level : Level}, (∀ item, level.shownItem? = some item → ¬ own item) →
      scope.Shows s.sources level → scope.Shows s'.sources level := by
    intro scope level hnot hl
    cases hl with
    | catalog hr hb => exact .catalog hr (hleaves.bindings hb)
    | block hr hb => exact .block hr (hleaves.bindings hb)
    | item hr hb hid hrow =>
      exact .item hr (hleaves.bindings hb) ((hleaves.items _ (hnot _ rfl)).trans hid)
        (hleaves.row? hrow)
    | ownBody hr hb hid hrow =>
      exact .ownBody hr (hleaves.bindings hb) ((hleaves.selfViews _ (hnot _ rfl)).trans hid)
        (hleaves.row? hrow)
  induction h with
  | root h hparent hl =>
    exact .root (hleaves.scopes _ _ h) hparent (hlevel (hspares _ (List.mem_cons_self ..)) hl)
  | inner h hparent haround hdepth hl _ ih =>
    exact .inner (hleaves.scopes _ _ h) hparent (hleaves.scopes _ _ haround) hdepth
      (hlevel (hspares _ (List.mem_cons_self ..)) hl)
      (ih fun level hmem => hspares level (List.mem_cons_of_mem _ hmem))

theorem Session.Sees.of_same (h : s.Sees id view) (hscopes : s'.scopes = s.scopes)
    (hsources : s'.sources = s.sources) : s'.Sees id view := by
  have hleaves : s.Leaves (fun _ => False) s' := .of_same hscopes hsources
  exact h.leaves hleaves fun _ _ _ _ hid => hid

end

end SqlTyping
