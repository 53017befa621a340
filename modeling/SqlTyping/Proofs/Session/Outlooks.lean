import Mathlib.Data.List.Forall2
import Mathlib.Data.Option.Defs
import SqlTyping.Proofs.Session.Confinement
import SqlTyping.Session.Columns
import SqlTyping.Session.Reference

namespace SqlTyping

/-!
# Names and nullability in sight

Which columns may be null does not depend on their types, and so not on conversions. What it depends on
is what names mean where an expression stands:

* `Outline` — names and nullability of the columns of a row type;
* `Outlook` — the outlines of what is in sight from a scope, level by level, `Outlook.table?` and
  `Outlook.reference?` what names mean there;
* `Session.Overlooks` — a scope of a session has an outlook, in which nothing belongs to given nodes;
* `Session.Overlooks.confined` — so it has the outlook still after these nodes have been validated;
* `Session.Overlooks.requireTable`, `Session.Overlooks.referenceType` — lookups in the session find what
  names mean in the outlook.
-/

/-! ### Outlines -/

/-- Names and nullability of columns, in order. -/
abbrev Outline := List (String × Bool)

/-- Names and nullability of the columns of a row type. -/
def DataType.outline (row : DataType) : Outline := row.fields.map fun f => (f.name, f.type.nullable)

/-- Names and nullability of the columns of a query so far. -/
def Columns.outline (columns : Columns) : Outline := columns.map fun c => (c.1, c.2.nullable)

namespace Outline

/-- One more column under a fresh name. -/
def add (o : Outline) (name : String) (nullable : Bool) : Outline :=
  o ++ [(freshName name (o.map (·.1)), nullable)]

/-- All columns of a table whose rows may be missing when `nullable`. -/
def addAll (o : Outline) (columns : Outline) (nullable : Bool) : Outline :=
  columns.foldl (fun o c => o.add c.1 (c.2 || nullable)) o

/-- The columns under the names of a column list, if there is one. -/
def renamed (o : Outline) : Option (List String) → Outline
  | none => o
  | some names => List.zipWith (fun name c => (name, c.2)) names o

/-- The columns of a set operation: those of the left input, null where those of either may be. -/
def union (o o' : Outline) : Outline := List.zipWith (fun l r => (l.1, l.2 || r.2)) o o'

/-- Whether the first column of the given name may be null. -/
def column? (m : NameMatching) (name : String) (o : Outline) : Option Bool :=
  (o.find? fun c => if m.isCaseSensitive then c.1 == name else Text.sameIgnoringCase c.1 name).map (·.2)

end Outline

section

variable {row left right : DataType}

theorem DataType.map_numbered (start : Nat) (columns : Columns) :
    ((numbered start columns).map fun f => (f.name, f.type.nullable)) = columns.outline := by
  induction columns generalizing start with
  | nil => rfl
  | cons c rest ih =>
    show _ :: _ = _ :: _
    rw [ih]
    rfl

/-- A row type made of columns has their outline. -/
@[simp] theorem DataType.outline_row (columns : Columns) :
    (DataType.row columns).outline = columns.outline :=
  DataType.map_numbered 0 columns

theorem DataType.length_outline (row : DataType) : row.outline.length = row.fieldCount :=
  List.length_map ..

theorem Columns.map_names (columns : Columns) : columns.outline.map (·.1) = columns.names := by
  unfold Columns.outline Columns.names
  rw [List.map_map]
  rfl

theorem Columns.outline_add (columns : Columns) (name : String) (type : DataType) :
    (columns.add name type).outline = columns.outline.add name type.nullable := by
  unfold Outline.add
  rw [Columns.map_names]
  exact List.map_append

theorem Columns.outline_addRow (columns : Columns) (row : DataType) (nullable : Bool) :
    (columns.addRow row nullable).outline = columns.outline.addAll row.outline nullable := by
  unfold Columns.addRow Outline.addAll DataType.outline
  induction row.fields generalizing columns with
  | nil => rfl
  | cons f rest ih =>
    rw [List.foldl_cons, ih, Columns.outline_add]
    rfl

/-- A column list changes names only. -/
theorem outline_of_renamed {name : String} {columns : Option (List String)}
    (h : renamed name columns row = .ok left) : left.outline = row.outline.renamed columns := by
  unfold renamed at h
  cases columns with
  | none =>
    cases h
    rfl
  | some names =>
    cases hnames : row.renameFields? names with
    | none => simp [hnames] at h
    | some r =>
      simp only [hnames, Except.ok.injEq] at h
      subst h
      unfold DataType.renameFields? at hnames
      split at hnames
      · cases hnames
        rw [DataType.outline_row]
        unfold Columns.outline
        rw [List.map_zipWith]
        show _ = List.zipWith (fun name c => (name, c.2)) names
          (row.fields.map fun f => (f.name, f.type.nullable))
        rw [List.zipWith_map_right]
      · cases hnames

/-- The row type of a set operation has the names of the left input, and a column may be null when it may
    be on either side. -/
theorem outline_of_unionRow {operation : String} (h : unionRow operation left right = .ok row) :
    row.outline = left.outline.union right.outline ∧ left.fieldCount = right.fieldCount := by
  unfold unionRow at h
  split at h
  · rename_i hcount
    cases h
    refine ⟨?_, hcount⟩
    rw [DataType.outline_row]
    unfold Columns.outline Outline.union DataType.outline
    rw [List.map_zipWith, List.zipWith_map]
    rfl
  · cases h

/-- The nullability of a column is read from the outline. -/
theorem DataType.column?_outline (name : String) (m : NameMatching) :
    row.outline.column? m name = (row.field? name m.isCaseSensitive).map (·.type.nullable) := by
  unfold Outline.column? DataType.outline DataType.field?
  rw [List.find?_map, Option.map_map]
  rfl

end

/-! ### Outlooks -/

namespace Outlook

/-- A table in sight. -/
structure Entry where
  names : List String
  nullable : Bool
  columns : Outline

/-- What one scope shows. -/
inductive Level where
  | catalog (tables : List Entry)
  | block (entries : List Entry)
  | item (item : NodeId) (name : String) (columns : Outline)

/-- What a table name stands for. -/
structure Found where
  /-- The parts of the name behind the match. -/
  remaining : List String
  nullable : Bool
  columns : Outline
  catalog : Bool

/-- What the first of several tables under a name stands for. -/
def leading? (m : NameMatching) (names : List String) (catalog : Bool) (entries : List Entry) :
    Option Found :=
  (entries.find? fun e => m.leads e.names names).map fun e =>
    { remaining := names.drop e.names.length, nullable := e.nullable, columns := e.columns, catalog }

/-- The table that one level has for a name. -/
def Level.table? (m : NameMatching) (names : List String) : Level → Option Found
  | .catalog tables => leading? m names true tables
  | .block entries => leading? m names false entries
  | .item _ name columns => if names = [name] then some ⟨[], false, columns, false⟩ else none

/-- Whether the column of a name may be null, by what one level shows. -/
def Level.column? (m : NameMatching) (name : String) : Level → Option Bool
  | .block entries =>
    match entries.filterMap fun e => (e.columns.column? m name).map (· || e.nullable) with
    | [nullable] => some nullable
    | _ => none
  | _ => none

end Outlook

/-- What is in sight from a scope, innermost first. -/
abbrev Outlook := List Outlook.Level

namespace Outlook

/-- What a table name stands for. -/
def table? (m : NameMatching) (names : List String) (view : Outlook) : Option Found :=
  view.findSome? (Level.table? m names)

/-- Whether a column reference may be null. -/
def reference? (m : NameMatching) (view : Outlook) : List String → Option Bool
  | [] => none
  | [name] => view.findSome? (Level.column? m name)
  | names =>
    match view.table? m names with
    | none => none
    | some found =>
      if found.catalog then none
      else
        match found.remaining with
        | [column] => (found.columns.column? m column).map (· || found.nullable)
        | _ => none

variable {m : NameMatching} {names : List String} {inner outer : Outlook} {item : NodeId}
  {name : String} {columns : Outline}

/-- A WITH item is of no concern to names other than its own. -/
theorem table?_skip (h : names ≠ [name]) :
    Outlook.table? m names (inner ++ .item item name columns :: outer) =
      Outlook.table? m names (inner ++ outer) := by
  simp only [Outlook.table?, List.findSome?_append, List.findSome?_cons, Level.table?, if_neg h]

/-- A column reference never means a WITH item. -/
theorem reference?_skip :
    Outlook.reference? m (inner ++ .item item name columns :: outer) names =
      Outlook.reference? m (inner ++ outer) names := by
  match names with
  | [] => rfl
  | [column] =>
    show List.findSome? _ _ = List.findSome? _ _
    rw [List.findSome?_append, List.findSome?_append, List.findSome?_cons]
    rfl
  | first :: second :: rest =>
    have hskip : Outlook.table? m (first :: second :: rest)
        (inner ++ .item item name columns :: outer) = _ := table?_skip (by simp)
    simp only [Outlook.reference?, hskip]

end Outlook

/-! ### Outlooks of scopes -/

/-- A binding shows a table whose source belongs to none of the nodes `own`. -/
structure Binding.Outlined (own : NodeId → Prop) (sources : RowSources) (b : Binding)
    (e : Outlook.Entry) : Prop where
  names : b.names = e.names
  nullable : b.nullable = e.nullable
  source : ∃ x, sources.get? b.source = some x ∧ x.row.outline = e.columns ∧
    ∀ node, x.node = some node → ¬ own node

/-- A scope shows a level. A WITH item is shown to others, or to its own body. -/
inductive Scope.Outlined (own : NodeId → Prop) (sources : RowSources) (scope : Scope) :
    Outlook.Level → Prop
  | catalog {tables} (hrole : scope.role = .catalog)
    (h : List.Forall₂ (Binding.Outlined own sources) scope.bindings tables) :
    Outlined own sources scope (.catalog tables)
  | block {entries} (hrole : scope.role = .block)
    (h : List.Forall₂ (Binding.Outlined own sources) scope.bindings entries) :
    Outlined own sources scope (.block entries)
  | item {item name columns id x}
    (hrole : scope.role = .withItem item name ∧ sources.ofNode? item = some id ∨
      scope.role = .recursiveItem item name ∧ sources.selfViewOf? item = some id)
    (hbindings : scope.bindings = []) (hsource : sources.get? id = some x)
    (hnode : x.node = some item) (hcolumns : x.row.outline = columns) (hown : ¬ own item) :
    Outlined own sources scope (.item item name columns)

/-- A scope has an outlook: it shows the first level, and the scopes around it show the others. Nothing
    in sight belongs to the nodes `own`. -/
inductive Session.Overlooks (own : NodeId → Prop) (s : Session) : ScopeId → Outlook → Prop
  | root {id scope level} (h : s.scopes.get? id = some scope) (hparent : scope.parent = none)
    (hlevel : scope.Outlined own s.sources level) : Overlooks own s id [level]
  | inner {id parent scope around level view} (h : s.scopes.get? id = some scope)
    (hparent : scope.parent = some parent) (haround : s.scopes.get? parent = some around)
    (hdepth : scope.depth = around.depth + 1) (hlevel : scope.Outlined own s.sources level)
    (hrest : Overlooks own s parent view) : Overlooks own s id (level :: view)

section

variable {b s s' : Session} {own own' retyped rewritten : NodeId → Prop} {id : ScopeId} {view : Outlook}

theorem Session.Overlooks.exists_scope (h : s.Overlooks own id view) :
    ∃ scope, s.scopes.get? id = some scope := by
  cases h with
  | root h => exact ⟨_, h⟩
  | inner h => exact ⟨_, h⟩

theorem Session.Overlooks.lt_size (h : s.Overlooks own id view) : id.index < s.scopes.size := by
  obtain ⟨scope, hs⟩ := h.exists_scope
  exact (Array.getElem?_eq_some_iff.mp hs).1

/-! ### Outlooks that stay -/

/-- Bindings show the same as long as their sources are as they were. -/
theorem Binding.Outlined.kept {sources sources' : RowSources} {x : Binding} {e : Outlook.Entry}
    (h : x.Outlined own sources e)
    (hkept : ∀ id y, sources.get? id = some y → (∀ node, y.node = some node → ¬ own node) →
      sources'.get? id = some y) (hown : ∀ node, own' node → own node) : x.Outlined own' sources' e := by
  obtain ⟨y, hy, hcolumns, hnot⟩ := h.source
  exact ⟨h.names, h.nullable, y, hkept _ y hy hnot, hcolumns, fun node hn ho => hnot node hn (hown node ho)⟩

/-- A scope overlooks the same after nodes to which nothing in sight belongs have been dealt with. -/
theorem Session.Overlooks.confined (h : s.Overlooks own id view) (hc : b.Confined retyped rewritten s s')
    (hretyped : ∀ node, retyped node → own node) (hown : ∀ node, own' node → own node) :
    s'.Overlooks own' id view := by
  have hkept : ∀ id y, s.sources.get? id = some y → (∀ node, y.node = some node → ¬ own node) →
      s'.sources.get? id = some y := fun id y hy hnot =>
    hc.sources id y hy fun node hn hr => hnot node hn (hretyped node hr)
  have hlevel : ∀ {scope : Scope} {level : Outlook.Level}, scope.Outlined own s.sources level →
      scope.Outlined own' s'.sources level := by
    intro scope level hl
    cases hl with
    | catalog hrole h => exact .catalog hrole (h.imp fun _ _ hb => hb.kept hkept hown)
    | block hrole h => exact .block hrole (h.imp fun _ _ hb => hb.kept hkept hown)
    | @item item name columns source x hrole hbindings hsource hnode hcolumns hnot =>
      have hspared : ¬ retyped item := fun hr => hnot (hretyped item hr)
      refine .item ?_ hbindings (hkept source x hsource ?_) hnode hcolumns fun ho => hnot (hown item ho)
      · rcases hrole with ⟨hrole, hid⟩ | ⟨hrole, hid⟩
        · exact .inl ⟨hrole, (hc.item item hspared).trans hid⟩
        · exact .inr ⟨hrole, (hc.selfView item hspared).trans hid⟩
      · intro node hn
        obtain rfl := Option.some.inj (hnode.symm.trans hn)
        exact hnot
  induction h with
  | root h hparent hl => exact .root (hc.scopes _ _ h) hparent (hlevel hl)
  | inner h hparent haround hdepth hl _ ih =>
    exact .inner (hc.scopes _ _ h) hparent (hc.scopes _ _ haround) hdepth (hlevel hl) ih

/-! ### Lookups -/

/-- A lookup along the chain of a scope is a lookup in its outlook. -/
theorem Session.Overlooks.firstAlong {α β : Type} (h : s.Overlooks own id view) {R : α → β → Prop}
    {ask : ScopeId → Scope → Except Fault (Option α)} {look : Outlook.Level → Option β}
    (hask : ∀ level id scope, s.scopes.get? id = some scope → scope.Outlined own s.sources level →
      ∀ answer, ask id scope = .ok answer → Option.Rel R answer (look level))
    {answer : Option α} (hanswer : s.scopes.firstAlong ask (s.scopes.chain id) = .ok answer) :
    Option.Rel R answer (view.findSome? look) := by
  -- One scope, then the ones around it.
  have hcons : ∀ {level id rest view} {scope : Scope} {answer : Option α},
      s.scopes.get? id = some scope → scope.Outlined own s.sources level →
        (∀ answer, s.scopes.firstAlong ask rest = .ok answer →
          Option.Rel R answer (view.findSome? look)) →
        s.scopes.firstAlong ask (id :: rest) = .ok answer →
          Option.Rel R answer ((level :: view).findSome? look) := by
    intro level id rest view scope answer hs hl hrest hanswer
    unfold ScopeTree.firstAlong at hanswer
    simp only [hs] at hanswer
    rw [List.findSome?_cons]
    cases hx : ask id scope with
    | error e =>
      rw [hx] at hanswer
      cases hanswer
    | ok found =>
      have hone := hask level id scope hs hl found hx
      rw [hx] at hanswer
      generalize look level = seen at hone ⊢
      cases hone with
      | none => exact hrest answer hanswer
      | some hone =>
        cases hanswer
        exact .some hone
  induction h generalizing answer with
  | root h hparent hl =>
    rw [ScopeTree.chain_of_root h hparent] at hanswer
    refine hcons h hl ?_ hanswer
    rintro _ ⟨⟩
    exact .none
  | inner h hparent haround hdepth hl _ ih =>
    rw [ScopeTree.chain_of_parent h hparent haround hdepth] at hanswer
    exact hcons h hl (fun _ hrest => ih hrest) hanswer

/-- What was found in the session is what the name means in the outlook. -/
structure TableMatch.Means (own : NodeId → Prop) (s : Session) (t : TableMatch)
    (found : Outlook.Found) : Prop where
  remaining : t.remaining = found.remaining
  nullable : t.nullable = found.nullable
  catalog : s.isCatalog t.scope = found.catalog
  source : ∃ x, s.sources.get? t.source = some x ∧ x.row.outline = found.columns ∧
    ∀ node, x.node = some node → ¬ own node

/-- The first binding that leads a name shows the first table that does. -/
theorem ScopeTree.leadingBinding?_of_outlined {sources : RowSources} {bindings : List Binding}
    {entries : List Outlook.Entry} (m : NameMatching) (names : List String) (start : Nat)
    (h : List.Forall₂ (Binding.Outlined own sources) bindings entries) :
    Option.Rel (fun x e => x.2.Outlined own sources e) (leadingBinding? m names start bindings)
      (entries.find? fun e => m.leads e.names names) := by
  induction h generalizing start with
  | nil => exact .none
  | @cons x e bindings entries hb _ ih =>
    unfold leadingBinding?
    rw [List.find?_cons, hb.names]
    cases m.leads e.names names with
    | true => exact .some hb
    | false => exact ih (start + 1)

/-- One scope has for a name what its level has. -/
theorem ScopeTree.tableIn_of_outlined {level : Outlook.Level} {scope : Scope} (m : NameMatching)
    (names : List String) (hs : s.scopes.get? id = some scope)
    (hl : scope.Outlined own s.sources level) {answer : Option TableMatch}
    (hanswer : tableIn names m .empty s.sources id scope = .ok answer) :
    Option.Rel (TableMatch.Means own s) answer (level.table? m names) := by
  have hcatalog : s.isCatalog id = (scope.role == .catalog) := by
    unfold Session.isCatalog
    rw [hs]
  have hbound : ∀ entries catalog, itemMatch scope names s.sources = .ok none →
      s.isCatalog id = catalog → List.Forall₂ (Binding.Outlined own s.sources) scope.bindings entries →
        Option.Rel (TableMatch.Means own s) answer (Outlook.leading? m names catalog entries) := by
    intro entries catalog hitem hrole h
    have hrel := leadingBinding?_of_outlined m names 0 h
    rw [tableIn_of_not_shown hitem] at hanswer
    obtain rfl := Except.ok.inj hanswer
    unfold Outlook.leading?
    generalize leadingBinding? m names 0 scope.bindings = found at hrel ⊢
    generalize (entries.find? fun e => m.leads e.names names) = entry at hrel ⊢
    cases hrel with
    | none => exact .none
    | some hb =>
      exact .some ⟨congrArg (fun lead : List String => names.drop lead.length) hb.names, hb.nullable,
        hrole, hb.source⟩
  cases hl with
  | catalog hrole h => exact hbound _ true (itemMatch_of_catalog hrole) (by simp [hcatalog, hrole]) h
  | block hrole h => exact hbound _ false (itemMatch_of_block hrole) (by simp [hcatalog, hrole]) h
  | @item item name columns source x hrole hbindings hsource hnode hcolumns hnot =>
    have hitem : itemMatch scope names s.sources = itemNamed names item name (some source) := by
      rcases hrole with ⟨hrole, hid⟩ | ⟨hrole, hid⟩
      · rw [itemMatch_of_withItem hrole, hid]
      · rw [itemMatch_of_recursiveItem hrole, hid]
    have hother : s.isCatalog id = false := by
      rcases hrole with ⟨hrole, -⟩ | ⟨hrole, -⟩
      · simp [hcatalog, hrole]
      · simp [hcatalog, hrole]
    by_cases hname : names = [name]
    · subst hname
      rw [tableIn_of_shown (hitem.trans (itemNamed_self ..))] at hanswer
      obtain rfl := Except.ok.inj hanswer
      unfold Outlook.Level.table?
      simp only [if_pos]
      refine .some ⟨rfl, rfl, hother, x, hsource, hcolumns, fun node hn => ?_⟩
      obtain rfl := Option.some.inj (hnode.symm.trans hn)
      exact hnot
    · have hnone := hbound [] false (hitem.trans (itemNamed_of_ne hname)) hother
        (by rw [hbindings]; exact .nil)
      unfold Outlook.Level.table?
      simp only [if_neg hname]
      exact hnone

/-- A table name stands for what it means in the outlook. -/
theorem Session.Overlooks.lookupTable (h : s.Overlooks own id view) {m : NameMatching}
    {names : List String} {answer : Option TableMatch}
    (hanswer : s.scopes.lookupTable id names m .empty s.sources = .ok answer) :
    Option.Rel (TableMatch.Means own s) answer (view.table? m names) :=
  h.firstAlong (fun _ _ _ hs hl _ => ScopeTree.tableIn_of_outlined m names hs hl) hanswer

theorem Session.Overlooks.requireTable (h : s.Overlooks own id view) {m : NameMatching}
    {names : List String} {t : TableMatch}
    (ht : s.scopes.requireTable id names m s.sources = .ok t) :
    ∃ found, view.table? m names = some found ∧ t.Means own s found := by
  have hrel := h.lookupTable (ScopeTree.requireTable_eq_ok_iff.mp ht)
  generalize view.table? m names = seen at hrel ⊢
  cases hrel with
  | some hrel => exact ⟨_, rfl, hrel⟩

/-- The column of a binding is that of the table it shows. -/
theorem ScopeTree.columnOf_of_outlined {sources : RowSources} {bindings : List Binding}
    {entries : List Outlook.Entry} (m : NameMatching) (name : String) (id : ScopeId)
    (h : List.Forall₂ (Binding.Outlined own sources) bindings entries) :
    (bindings.filterMap (columnOf name m sources id)).map (·.type.nullable) =
      entries.filterMap fun e => (e.columns.column? m name).map (· || e.nullable) := by
  induction h with
  | nil => rfl
  | @cons x e bindings entries hb _ ih =>
    obtain ⟨y, hy, hcolumns, -⟩ := hb.source
    have hrow : sources.row? x.source = some y.row := RowSources.row?_of_get? hy
    rw [List.filterMap_cons, List.filterMap_cons, ← hcolumns, DataType.column?_outline, ← hb.nullable]
    unfold columnOf at ih ⊢
    rw [hrow]
    simp only [Option.bind_some]
    cases y.row.field? name m.isCaseSensitive with
    | none => exact ih
    | some field =>
      simp only [Option.map_some, List.map_cons, ih]
      rfl

/-- One scope has for a column what its level has. -/
theorem ScopeTree.columnIn_of_outlined {level : Outlook.Level} {scope : Scope} (m : NameMatching)
    (name : String) (hl : scope.Outlined own s.sources level) {answer : Option ColumnMatch}
    (hanswer : columnIn name m s.sources id scope = .ok answer) :
    Option.Rel (fun c nullable => c.type.nullable = nullable) answer (level.column? m name) := by
  unfold columnIn at hanswer
  cases hl with
  | catalog hrole =>
    rw [if_pos hrole] at hanswer
    cases hanswer
    exact .none
  | block hrole h =>
    have hcolumns := columnOf_of_outlined m name id h
    rw [if_neg (by simp [hrole])] at hanswer
    unfold Outlook.Level.column?
    simp only
    rw [← hcolumns]
    split at hanswer
    · rename_i hnil
      cases hanswer
      rw [hnil]
      exact .none
    · rename_i column hone
      cases hanswer
      rw [hone]
      exact .some rfl
    · cases hanswer
  | item hrole hbindings =>
    have hnil : scope.bindings.filterMap (columnOf name m s.sources id) = [] := by
      rw [hbindings]
      rfl
    have hother : scope.role ≠ .catalog := by
      rcases hrole with ⟨hrole, -⟩ | ⟨hrole, -⟩
      · simp [hrole]
      · simp [hrole]
    rw [if_neg hother, hnil] at hanswer
    cases hanswer
    exact .none

/-- The type of a column of a table that is matched may be null as the outlook says. -/
theorem TableMatch.Means.columnType {t : TableMatch} {found : Outlook.Found}
    (hm : t.Means own s found) {names : List String} {type : DataType}
    (htype : s.columnType names t = .ok type) :
    ∃ column, found.remaining = [column] ∧
      (found.columns.column? s.settings.matching column).map (· || found.nullable) =
        some type.nullable := by
  obtain ⟨column, row, field, hremaining, hrow, hfield, rfl⟩ := Session.columnType_eq_ok_iff.mp htype
  obtain ⟨x, hx, hcolumns, -⟩ := hm.source
  obtain rfl := Option.some.inj ((RowSources.row?_of_get? hx).symm.trans hrow)
  have hcase : s.settings.matching.isCaseSensitive = s.settings.caseSensitive := by
    simp [Settings.matching]
  refine ⟨column, hm.remaining.symm.trans hremaining, ?_⟩
  rw [← hcolumns, DataType.column?_outline, hcase, hfield, hm.nullable]
  rfl

/-- The type of a column reference may be null when the reference may. -/
theorem Session.Overlooks.referenceType (h : s.Overlooks own id view) {names : List String}
    {type : DataType} (htype : s.referenceType id names = .ok type) :
    view.reference? s.settings.matching names = some type.nullable := by
  match names with
  | [] => cases htype
  | [column] =>
    obtain ⟨answer, hanswer, rfl⟩ := Session.referenceType_one_eq_ok_iff.mp htype
    have hrel : Option.Rel _ (some answer) (view.findSome? _) := h.firstAlong
      (fun _ _ _ _ hl _ => ScopeTree.columnIn_of_outlined s.settings.matching column hl) hanswer
    show view.findSome? _ = _
    generalize view.findSome? _ = seen at hrel ⊢
    cases hrel with
    | some hnullable => rw [hnullable]
  | first :: second :: rest =>
    obtain ⟨answer, hanswer, hcatalog, hcolumn⟩ := Session.qualifiedType_eq_ok_iff.mp htype
    have hrel := h.lookupTable hanswer
    unfold Outlook.reference?
    simp only
    generalize view.table? s.settings.matching (first :: second :: rest) = seen at hrel ⊢
    cases hrel with
    | some hmeans =>
      obtain ⟨column, hremaining, hnullable⟩ := hmeans.columnType hcolumn
      simp only [← hmeans.catalog, hcatalog, hremaining]
      exact hnullable

/-- The columns of all bindings of a scope. -/
theorem Columns.outline_addBindings {sources : RowSources} {bindings : List Binding}
    {entries : List Outlook.Entry} (h : List.Forall₂ (Binding.Outlined own sources) bindings entries)
    (columns : Columns) : (columns.addBindings sources bindings).outline =
      entries.foldl (fun o e => o.addAll e.columns e.nullable) columns.outline := by
  induction h generalizing columns with
  | nil => rfl
  | @cons x e bindings entries hb _ ih =>
    obtain ⟨y, hy, hcolumns, -⟩ := hb.source
    have hrow : sources.rowOrEmpty x.source = y.row := by
      unfold RowSources.rowOrEmpty RowSources.row?
      rw [hy]
      rfl
    have hrest := ih (columns.addRow y.row x.nullable)
    rw [Columns.outline_addRow, hcolumns, hb.nullable] at hrest
    show (List.foldl _ (columns.addRow (sources.rowOrEmpty x.source) x.nullable) bindings).outline = _
    rw [hrow, hb.nullable]
    rw [List.foldl_cons]
    exact hrest

end

end SqlTyping
