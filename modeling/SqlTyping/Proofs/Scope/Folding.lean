import SqlTyping.Proofs.Scope.Ambiguity

namespace SqlTyping

/-!
# Folded names

A lookup without regard to case is the exact lookup among folded names. The setting is read in two
ways: bindings are compared by `NameMatching.same`, columns by `NameMatching.isCaseSensitive`.

* `DataType.folded`, `RowSources.folded`, `ScopeTree.folded` — types, row sources and scopes with
  the names of columns and bindings folded;
* `TableMatch.folded`, `ColumnMatch.folded`, `foldedResult` — what a lookup comes to, with its names
  folded and everything else kept;
* `ScopeTree.firstAlong_folded` — what holds of the single scopes of a chain holds of the chain;
* `ScopeTree.lookups_folded` — the three lookups. Names of WITH items are compared exactly under
  both settings, so no scope of the chain may show one.
-/

namespace Text

theorem fold_append (a b : String) : fold (a ++ b) = fold a ++ fold b := by
  simp [fold]

/-- A point has no case. -/
theorem fold_qualifiedName (parts : List String) :
    fold (qualifiedName parts) = qualifiedName (parts.map fold) := by
  have hpoint : fold "." = "." := by decide
  unfold qualifiedName
  induction parts with
  | nil => rfl
  | cons part rest ih =>
    cases rest with
    | nil => simp
    | cons next rest =>
      rw [List.map_cons, List.map_cons, String.intercalate_cons_cons, String.intercalate_cons_cons,
        fold_append, fold_append, hpoint, ih, List.map_cons]

end Text

namespace NameMatching

/-- Whole names are compared part by part, so they may be folded first. -/
theorem sameAll_fold (a b : List String) :
    exact.sameAll (a.map Text.fold) (b.map Text.fold) = ignoringCase.sameAll a b := by
  induction a generalizing b with
  | nil => cases b <;> rfl
  | cons x xs ih =>
    cases b with
    | nil => rfl
    | cons y ys => simp only [List.map_cons, sameAll, ih]; rfl

/-- So may leading parts. -/
theorem leads_fold (a b : List String) :
    exact.leads (a.map Text.fold) (b.map Text.fold) = ignoringCase.leads a b := by
  induction a generalizing b with
  | nil => rfl
  | cons x xs ih =>
    cases b with
    | nil => rfl
    | cons y ys => simp only [List.map_cons, leads, ih]; rfl

end NameMatching

/-! ### Names folded -/

namespace DataType

mutual

/-- The type with the names of its columns folded, at every depth. -/
def folded : DataType → DataType
  | ⟨name, nullable, precision, scale, fields, component⟩ =>
    ⟨name, nullable, precision, scale, foldedFields fields, foldedComponent component⟩

/-- The columns with their names folded. -/
def foldedFields : List (Field DataType) → List (Field DataType)
  | [] => []
  | ⟨name, index, type⟩ :: rest => ⟨Text.fold name, index, folded type⟩ :: foldedFields rest

/-- The element type with its names folded. -/
def foldedComponent : Option DataType → Option DataType
  | none => none
  | some type => some (folded type)

end

end DataType

/-- The column with its name folded; its place stays. -/
def Field.folded (f : Field DataType) : Field DataType := ⟨Text.fold f.name, f.index, f.type.folded⟩

theorem DataType.foldedFields_eq_map (fields : List (Field DataType)) :
    foldedFields fields = fields.map Field.folded := by
  induction fields with
  | nil => rfl
  | cons f rest ih => rw [foldedFields, ih]; rfl

@[simp] theorem DataType.fields_folded (t : DataType) :
    t.folded.fields = t.fields.map Field.folded := by
  rw [← foldedFields_eq_map]
  cases t
  rfl

/-- The row source with the names of its columns folded. -/
def RowSource.folded (s : RowSource) : RowSource := { s with row := s.row.folded }

/-- The registry with the names of all columns folded. -/
def RowSources.folded (s : RowSources) : RowSources :=
  { s with sources := s.sources.map RowSource.folded }

/-- The binding with the parts of its name folded. -/
def Binding.folded (b : Binding) : Binding := { b with names := b.names.map Text.fold }

/-- The scope with the names of its bindings folded. -/
def Scope.folded (s : Scope) : Scope := { s with bindings := s.bindings.map Binding.folded }

/-- The scopes with the names of all bindings folded. -/
def ScopeTree.folded (t : ScopeTree) : ScopeTree := ⟨t.scopes.map Scope.folded⟩

/-- The path with its names folded; the places of its steps stay. -/
def Path.folded (p : Path) : Path :=
  ⟨p.steps.map fun step => ⟨step.row.folded, step.ordinal, Text.fold step.name⟩⟩

/-- The match with the names in it folded. Source, nullability and scope stay, and as many parts of
    the name are left over. -/
def TableMatch.folded (found : TableMatch) : TableMatch :=
  { found with path := found.path.folded, remaining := found.remaining.map Text.fold }

/-- The matches of a sink with the names in them folded. -/
def Matches.folded (ms : Matches) : Matches := ⟨ms.found.map TableMatch.folded⟩

/-- The column with the names in it folded. Scope, source, nullability and the place in the row type
    stay. -/
def ColumnMatch.folded (c : ColumnMatch) : ColumnMatch :=
  { c with table := Text.fold c.table, field := c.field.folded }

/-- The fault with the looked-up name folded; its kind stays. -/
def Fault.folded : Fault → Fault
  | .ambiguousColumn name => .ambiguousColumn (Text.fold name)
  | fault => fault

/-- What a lookup comes to, with its names folded. -/
def foldedResult {α β : Type} (f : α → β) : Except Fault α → Except Fault β
  | .ok a => .ok (f a)
  | .error fault => .error fault.folded

/-! ### Reading folded data -/

namespace RowSources

theorem row?_folded (s : RowSources) (id : SourceId) :
    s.folded.row? id = (s.row? id).map DataType.folded := by
  simp only [row?, get?, folded, Array.getElem?_map, Option.map_map]
  rfl

theorem rowOrEmpty_folded (s : RowSources) (id : SourceId) :
    s.folded.rowOrEmpty id = (s.rowOrEmpty id).folded := by
  unfold rowOrEmpty
  rw [row?_folded]
  cases s.row? id <;> rfl

end RowSources

namespace ScopeTree

theorem get?_folded (t : ScopeTree) (id : ScopeId) :
    t.folded.get? id = (t.get? id).map Scope.folded := by
  simp [get?, folded]

/-- Folding keeps what is around a scope. -/
theorem chain_folded (t : ScopeTree) (id : ScopeId) : t.folded.chain id = t.chain id := by
  refine chain_congr (fun id => ?_) id
  rw [get?_folded]
  cases t.get? id <;> rfl

end ScopeTree

/-- The step that a lookup adds is folded with the path. -/
theorem Path.folded_plus (p : Path) (row : DataType) (ordinal : Nat) (name : String) :
    (p.plus row ordinal name).folded = p.folded.plus row.folded ordinal (Text.fold name) := by
  simp [folded, plus]

theorem Matches.folded_report (ms : Matches) (found : TableMatch) :
    (ms.report found).folded = ms.folded.report found.folded := by
  simp [folded, report]

theorem Binding.name_folded (b : Binding) : b.folded.name = Text.fold b.name :=
  (Text.fold_qualifiedName b.names).symm

/-- A column is found without regard to case as the folded one is found exactly. -/
theorem DataType.field?_folded (row : DataType) (name : String) :
    row.folded.field? (Text.fold name) true = (row.field? name false).map Field.folded := by
  simp only [field?, fields_folded, List.find?_map]
  rfl

/-! ### Twice folded -/

namespace DataType

mutual

@[simp] theorem folded_folded : ∀ t : DataType, t.folded.folded = t.folded
  | ⟨_, _, _, _, fields, component⟩ => by
    simp only [folded, foldedFields_foldedFields fields, foldedComponent_foldedComponent component]

theorem foldedFields_foldedFields :
    ∀ fields : List (Field DataType), foldedFields (foldedFields fields) = foldedFields fields
  | [] => rfl
  | ⟨_, _, type⟩ :: rest => by
    simp only [foldedFields, Text.fold_fold, folded_folded type, foldedFields_foldedFields rest]

theorem foldedComponent_foldedComponent : ∀ component : Option DataType,
    foldedComponent (foldedComponent component) = foldedComponent component
  | none => rfl
  | some type => by simp only [foldedComponent, folded_folded type]

end

end DataType

/-! ### The lookups -/

namespace ScopeTree

variable {t : ScopeTree} {scope : Scope}

/-- A lookup along a chain folds as the lookups in its scopes do. -/
theorem firstAlong_folded {α β : Type} {ask : ScopeId → Scope → Except Fault (Option α)}
    {askFolded : ScopeId → Scope → Except Fault (Option β)} {f : α → β} {ids : List ScopeId}
    (h : ∀ id ∈ ids, ∀ scope, t.get? id = some scope →
      askFolded id scope.folded = foldedResult (Option.map f) (ask id scope)) :
    t.folded.firstAlong askFolded ids = foldedResult (Option.map f) (t.firstAlong ask ids) := by
  induction ids with
  | nil => rfl
  | cons id rest ih =>
    have ih := ih fun other hmem => h other (List.mem_cons_of_mem _ hmem)
    unfold firstAlong
    rw [get?_folded]
    cases hscope : t.get? id with
    | none => rfl
    | some scope =>
      simp only [Option.map_some]
      rw [h id (List.mem_cons_self ..) scope hscope]
      rcases ask id scope with fault | _ | answer
      · rfl
      · exact ih
      · rfl

/-- What is read off the answer of a chain can be read off the answers of its scopes. -/
theorem map_firstAlong {α β : Type} (f : α → β)
    (ask : ScopeId → Scope → Except Fault (Option α)) (ids : List ScopeId) :
    (t.firstAlong ask ids).map (Option.map f) =
      t.firstAlong (fun id scope => (ask id scope).map (Option.map f)) ids := by
  induction ids with
  | nil => rfl
  | cons id rest ih =>
    unfold firstAlong
    cases t.get? id with
    | none => rfl
    | some scope =>
      simp only
      rcases ask id scope with fault | _ | answer
      · rfl
      · exact ih
      · rfl

/-- The first binding that leads a name leads it after folding. -/
theorem leadingBinding?_folded (names : List String) (start : Nat) (bindings : List Binding) :
    leadingBinding? .exact (names.map Text.fold) start (bindings.map Binding.folded) =
      (leadingBinding? .ignoringCase names start bindings).map fun (place, b) =>
        (place, b.folded) := by
  induction bindings generalizing start with
  | nil => rfl
  | cons b rest ih =>
    have hleads : NameMatching.exact.leads b.folded.names (names.map Text.fold) =
        NameMatching.ignoringCase.leads b.names names := NameMatching.leads_fold b.names names
    rw [List.map_cons, leadingBinding?, leadingBinding?, hleads]
    split
    · rfl
    · exact ih (start + 1)

/-- A scope that shows no WITH item has only its bindings to offer, under any name. -/
theorem answers_of_no_item (h : scope.role.itemName? = none) (names : List String)
    (m : NameMatching) (sources : RowSources) :
    namedIn names m sources scope =
        .ok ((scope.bindings.find? fun b => m.sameAll b.names names).map (·.source)) ∧
      itemMatch scope names sources = .ok none :=
  answers_of_not_item fun shown hshown => by simp [h] at hshown

/-- A table in one scope. -/
theorem tableIn_folded (h : scope.role.itemName? = none) (names : List String) (path : Path)
    (sources : RowSources) (id : ScopeId) :
    (tableIn (names.map Text.fold) .exact path sources.folded id scope.folded).map
        (Option.map TableMatch.folded) =
      foldedResult (Option.map TableMatch.folded)
        (tableIn names .ignoringCase path sources id scope) := by
  have hfolded : scope.folded.role.itemName? = none := h
  rw [tableIn_of_not_shown (answers_of_no_item h names .ignoringCase sources).2,
    tableIn_of_not_shown (answers_of_no_item hfolded _ .exact sources.folded).2, Scope.folded,
    leadingBinding?_folded]
  cases leadingBinding? .ignoringCase names 0 scope.bindings with
  | none => rfl
  | some leading =>
    obtain ⟨place, b⟩ := leading
    have hrow : (sources.folded.rowOrEmpty b.folded.source).folded =
        (sources.rowOrEmpty b.source).folded := by
      rw [show b.folded.source = b.source from rfl, RowSources.rowOrEmpty_folded,
        DataType.folded_folded]
    have hname : Text.fold b.folded.name = Text.fold b.name := by
      rw [b.name_folded, Text.fold_fold]
    simp only [Option.map_some, boundTable, foldedResult, Except.map, TableMatch.folded,
      Path.folded_plus, hrow, hname]
    simp [Binding.folded, ← List.map_drop]

/-- A table under its whole name in one scope. -/
theorem namedIn_folded (h : scope.role.itemName? = none) (names : List String)
    (sources : RowSources) :
    namedIn (names.map Text.fold) .exact sources.folded scope.folded =
      foldedResult (Option.map id) (namedIn names .ignoringCase sources scope) := by
  have hfolded : scope.folded.role.itemName? = none := h
  have hbound : scope.folded.bindings.find? (fun b =>
      NameMatching.exact.sameAll b.names (names.map Text.fold)) =
        (scope.bindings.find? fun b => NameMatching.ignoringCase.sameAll b.names names).map
          Binding.folded := by
    rw [Scope.folded, List.find?_map]
    simp only [Function.comp_def, Binding.folded, NameMatching.sameAll_fold]
  rw [(answers_of_no_item h names .ignoringCase sources).1,
    (answers_of_no_item hfolded _ .exact sources.folded).1, hbound, Option.map_map]
  cases scope.bindings.find? fun b => NameMatching.ignoringCase.sameAll b.names names with
  | none => rfl
  | some b => rfl

/-- A column of one binding. -/
theorem columnOf_folded (name : String) (sources : RowSources) (id : ScopeId) (b : Binding) :
    columnOf (Text.fold name) .exact sources.folded id b.folded =
      (columnOf name .ignoringCase sources id b).map ColumnMatch.folded := by
  have hname : b.folded.name = Text.fold b.name := b.name_folded
  unfold columnOf
  rw [hname, show b.folded.source = b.source from rfl, RowSources.row?_folded]
  cases sources.row? b.source with
  | none => rfl
  | some row =>
    have hfield := row.field?_folded name
    simp only [Option.map_some, Option.bind_some, NameMatching.exact, NameMatching.ignoringCase,
      hfield, Option.map_map]
    rfl

/-- A column in one scope. -/
theorem columnIn_folded (name : String) (sources : RowSources) (id : ScopeId) (scope : Scope) :
    columnIn (Text.fold name) .exact sources.folded id scope.folded =
      foldedResult (Option.map ColumnMatch.folded)
        (columnIn name .ignoringCase sources id scope) := by
  have hfound : scope.folded.bindings.filterMap (columnOf (Text.fold name) .exact sources.folded id) =
      (scope.bindings.filterMap (columnOf name .ignoringCase sources id)).map
        ColumnMatch.folded := by
    rw [Scope.folded, List.filterMap_map, List.map_filterMap]
    exact List.filterMap_congr fun b _ => columnOf_folded name sources id b
  unfold columnIn
  rw [hfound, show scope.folded.role = scope.role from rfl]
  split
  · rfl
  · rcases scope.bindings.filterMap (columnOf name .ignoringCase sources id) with _ | ⟨c, _ | ⟨d, more⟩⟩
    · rfl
    · rfl
    · rfl

/-- Along scopes that show no WITH items, a lookup without regard to case comes to what the exact
    lookup of the folded name comes to among folded names. -/
theorem lookups_folded (start : ScopeId)
    (hchain : ∀ id ∈ t.chain start, ∀ scope, t.get? id = some scope → scope.role.itemName? = none)
    (names : List String) (name : String) (path : Path) (sources : RowSources) (sink : Matches) :
    (t.folded.reportTable start (names.map Text.fold) .exact path sources.folded sink).map
        Matches.folded =
      foldedResult Matches.folded (t.reportTable start names .ignoringCase path sources sink) ∧
    t.folded.tableNamed start (names.map Text.fold) .exact sources.folded =
      foldedResult id (t.tableNamed start names .ignoringCase sources) ∧
    t.folded.lookupColumn start (Text.fold name) .exact sources.folded =
      foldedResult (Option.map ColumnMatch.folded)
        (t.lookupColumn start name .ignoringCase sources) := by
  refine ⟨?_, ?_, ?_⟩
  · have hlookup : (t.folded.lookupTable start (names.map Text.fold) .exact path sources.folded).map
        (Option.map TableMatch.folded) = foldedResult (Option.map TableMatch.folded)
          (t.lookupTable start names .ignoringCase path sources) := by
      unfold lookupTable
      rw [chain_folded, map_firstAlong]
      exact firstAlong_folded fun id hmem scope hscope =>
        tableIn_folded (hchain id hmem scope hscope) names path sources id
    unfold reportTable
    revert hlookup
    generalize t.folded.lookupTable start (names.map Text.fold) .exact path sources.folded = exactly
    generalize t.lookupTable start names .ignoringCase path sources = ignoring
    intro hlookup
    rcases exactly with _ | _ | found <;> rcases ignoring with _ | _ | found' <;>
      simp_all [foldedResult, Except.map, Matches.folded_report]
  · unfold tableNamed
    rw [chain_folded, ← Option.map_id]
    exact firstAlong_folded fun id hmem scope hscope =>
      namedIn_folded (hchain id hmem scope hscope) names sources
  · unfold lookupColumn
    rw [chain_folded]
    exact firstAlong_folded fun id _ scope _ => columnIn_folded name sources id scope

/-- Neither a query block nor the catalog shows a WITH item. -/
theorem no_item_ofBlock (bindings : List Binding) :
    ∀ id ∈ (ofBlock bindings).chain ⟨1⟩, ∀ scope, (ofBlock bindings).get? id = some scope →
      scope.role.itemName? = none := by
  have hchain : (ofBlock bindings).chain ⟨1⟩ = [⟨1⟩, rootId] := rfl
  rw [hchain]
  intro id hmem scope hscope
  rcases List.mem_pair.mp hmem with rfl | rfl <;>
    obtain rfl := Option.some.inj hscope <;> rfl

/-- Names that differ in the case of a letter outside ASCII stay different: among the names of the
    two bindings and the columns of the two tables, only `Q` and `q` become one. -/
theorem lookups_folded_beyond_ascii :
    let t := ofBlock [⟨["Äb"], ⟨0⟩, true⟩, ⟨["äb", "c"], ⟨1⟩, false⟩]
    let row := DataType.row [("Ä", .any), ("q", .any)]
    let sources := ((onlyTable (.row [("ä", .any), ("Q", .any)])).registerTable ["U"] row).2
    (∀ id ∈ t.chain ⟨1⟩, ∀ scope, t.get? id = some scope → scope.role.itemName? = none) ∧
    (t.folded.reportTable ⟨1⟩ ["äB", "C", "D"] .exact .empty sources.folded {}).map Matches.folded =
      .ok (Matches.report {}
        ⟨⟨1⟩, false, ⟨1⟩, Path.empty.plus (.row [("Ä", .any), ("Q", .any)]) 1 "äB.C", ["D"]⟩) ∧
    t.folded.tableNamed ⟨1⟩ ["ÄB"] .exact sources.folded = .ok (some ⟨0⟩) ∧
    t.folded.lookupColumn ⟨1⟩ "Q" .exact sources.folded = .error (.ambiguousColumn "Q") := by
  intro t row sources
  have hchain := no_item_ofBlock [⟨["Äb"], ⟨0⟩, true⟩, ⟨["äb", "c"], ⟨1⟩, false⟩]
  obtain ⟨htable, -⟩ := lookups_folded ⟨1⟩ hchain ["äb", "c", "d"] "q" .empty sources {}
  obtain ⟨-, hnamed, hcolumn⟩ := lookups_folded ⟨1⟩ hchain ["Äb"] "q" .empty sources {}
  exact ⟨hchain, htable.trans (by decide +kernel), hnamed.trans (by decide +kernel),
    hcolumn.trans (by decide +kernel)⟩

end ScopeTree

end SqlTyping
