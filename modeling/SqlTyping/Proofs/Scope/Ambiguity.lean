import SqlTyping.Proofs.Scope.Agreement

namespace SqlTyping

/-!
# Ambiguous column names

A column name is decided by the nearest scope that has a column of that name: it is ambiguous when
two bindings of that scope have one. Several columns of that name in one row type do not make it
ambiguous, the first of them is taken.

* `NameMatching.finds` — the comparison of column names;
* `ScopeTree.columnsNamed` — every column of that name in a scope, with the place of its binding;
* `ScopeTree.lookupColumn_decided` — what the columns of the nearest scope decide;
* `ScopeTree.repeated_column_accepted` — a row type with two columns of one name.
-/

/-- Whether a column is found under a name. Only the case setting of the matching counts. -/
def NameMatching.finds (m : NameMatching) (column name : String) : Bool :=
  if m.isCaseSensitive then column == name else Text.sameIgnoringCase column name

/-- Under the matchings that settings choose from, columns are compared like every other name. -/
theorem NameMatching.finds_ofCaseSensitive (b : Bool) :
    (ofCaseSensitive b).finds = (ofCaseSensitive b).same := by
  cases b with
  | false => rfl
  | true => rfl

namespace ScopeTree

/-- Every column of a binding with the given name. -/
def columnsOf (name : String) (m : NameMatching) (sources : RowSources) (id : ScopeId)
    (b : Binding) : List ColumnMatch :=
  ((sources.rowOrEmpty b.source).fields.filter fun f => m.finds f.name name).map fun field =>
    { scope := id, source := b.source, table := b.name, field, nullable := b.nullable }

/-- Every column with the given name in bindings of a scope, each with the place of its binding. -/
def columnsIn (name : String) (m : NameMatching) (sources : RowSources) (id : ScopeId)
    (bindings : List (Binding × Nat)) : List (Nat × ColumnMatch) :=
  bindings.flatMap fun b => (columnsOf name m sources id b.1).map (b.2, ·)

/-- Every column with the given name in a scope, each with the place of its binding. The catalog
    shows no columns. -/
def columnsNamed (t : ScopeTree) (name : String) (m : NameMatching) (sources : RowSources)
    (id : ScopeId) : List (Nat × ColumnMatch) :=
  match t.get? id with
  | none => []
  | some scope =>
    if scope.role = .catalog then [] else columnsIn name m sources id scope.bindings.zipIdx

variable {t : ScopeTree} {name : String} {m : NameMatching} {sources : RowSources} {id : ScopeId}

/-! ### One scope -/

/-- What a binding answers is the first of its columns. -/
theorem columnOf_eq_head? (b : Binding) :
    columnOf name m sources id b = (columnsOf name m sources id b).head? := by
  unfold columnOf columnsOf RowSources.rowOrEmpty
  rw [List.head?_map, List.head?_filter]
  cases sources.row? b.source with
  | none => rfl
  | some row => rfl

theorem columnsIn_cons (b : Binding) (place : Nat) (rest : List (Binding × Nat)) :
    columnsIn name m sources id ((b, place) :: rest) =
      (columnsOf name m sources id b).map (place, ·) ++ columnsIn name m sources id rest :=
  List.flatMap_cons

/-- The columns of later bindings have later places. -/
theorem le_of_mem_columnsIn {bindings : List Binding} {start : Nat} {found : Nat × ColumnMatch}
    (h : found ∈ columnsIn name m sources id (bindings.zipIdx start)) : start ≤ found.1 := by
  obtain ⟨⟨b, place⟩, hmem, hfound⟩ := List.mem_flatMap.mp h
  obtain ⟨column, -, rfl⟩ := List.mem_map.mp hfound
  exact List.le_snd_of_mem_zipIdx hmem

/-- How the answers of single bindings go with all columns of the name: there is no answer when
    there is no column, one when all columns are of one binding, and several otherwise. -/
theorem filterMap_columnOf (name : String) (m : NameMatching) (sources : RowSources) (id : ScopeId)
    (bindings : List Binding) (start : Nat) :
    match columnsIn name m sources id (bindings.zipIdx start) with
    | [] => bindings.filterMap (columnOf name m sources id) = []
    | first :: rest =>
      ((∀ other ∈ rest, other.1 = first.1) →
        bindings.filterMap (columnOf name m sources id) = [first.2]) ∧
      ((∃ other ∈ rest, other.1 ≠ first.1) →
        ∃ a b more, bindings.filterMap (columnOf name m sources id) = a :: b :: more) := by
  induction bindings generalizing start with
  | nil => rfl
  | cons b bindings ih =>
    have ih := ih (start + 1)
    rw [List.zipIdx_cons, columnsIn_cons, List.filterMap_cons, columnOf_eq_head?]
    cases hb : columnsOf name m sources id b with
    | nil => exact ih
    | cons column more =>
      cases hrest : columnsIn name m sources id (bindings.zipIdx (start + 1)) with
      | nil =>
        rw [hrest] at ih
        refine ⟨fun _ => congrArg (column :: ·) ih, ?_⟩
        rintro ⟨other, hmem, hne⟩
        rcases List.mem_append.mp hmem with hmem | hmem
        · obtain ⟨_, -, rfl⟩ := List.mem_map.mp hmem
          exact absurd rfl hne
        · cases hmem
      | cons next later =>
        rw [hrest] at ih
        have hlater : start + 1 ≤ next.1 :=
          le_of_mem_columnsIn (hrest ▸ List.mem_cons_self (a := next))
        refine ⟨fun hall => ?_, fun _ => ?_⟩
        · have hsame : next.1 = start :=
            hall next (List.mem_append_right _ (List.mem_cons_self ..))
          omega
        -- The later columns are of one binding or of several; there is an answer either way.
        · by_cases hone : ∀ other ∈ later, other.1 = next.1
          · exact ⟨column, next.2, [], congrArg (column :: ·) (ih.1 hone)⟩
          · push Not at hone
            obtain ⟨a, b, more, hmore⟩ := ih.2 hone
            exact ⟨column, a, b :: more, congrArg (column :: ·) hmore⟩

/-- What the columns of a scope decide. -/
theorem columnIn_of_columnsNamed {scope : Scope} (h : t.get? id = some scope) (name : String)
    (m : NameMatching) (sources : RowSources) :
    match t.columnsNamed name m sources id with
    | [] => columnIn name m sources id scope = .ok none
    | first :: rest =>
      ((∀ other ∈ rest, other.1 = first.1) →
        columnIn name m sources id scope = .ok (some first.2)) ∧
      ((∃ other ∈ rest, other.1 ≠ first.1) →
        columnIn name m sources id scope = .error (.ambiguousColumn name)) := by
  unfold columnsNamed columnIn
  rw [h]
  by_cases hrole : scope.role = .catalog
  · simp only [if_pos hrole]
  · simp only [if_neg hrole]
    have hfound := filterMap_columnOf name m sources id scope.bindings 0
    cases hcolumns : columnsIn name m sources id scope.bindings.zipIdx with
    | nil =>
      rw [hcolumns] at hfound
      simp only at hfound
      rw [hfound]
    | cons first rest =>
      rw [hcolumns] at hfound
      refine ⟨fun hone => ?_, fun hseveral => ?_⟩
      · rw [hfound.1 hone]
      · obtain ⟨a, b, more, hmore⟩ := hfound.2 hseveral
        rw [hmore]

/-! ### Along the scopes -/

/-- Scopes without an answer are passed over. -/
theorem firstAlong_append {α : Type} {ask : ScopeId → Scope → Except Fault (Option α)}
    {inner : List ScopeId} (outer : List ScopeId)
    (h : ∀ id ∈ inner, ∃ scope, t.get? id = some scope ∧ ask id scope = .ok none) :
    t.firstAlong ask (inner ++ outer) = t.firstAlong ask outer := by
  induction inner with
  | nil => rfl
  | cons id inner ih =>
    obtain ⟨scope, hscope, hnone⟩ := h id (List.mem_cons_self ..)
    rw [List.cons_append, firstAlong, hscope]
    simp only [hnone]
    exact ih fun other hmem => h other (List.mem_cons_of_mem _ hmem)

theorem columnIn_of_none {scope : Scope} (h : t.get? id = some scope)
    (hnone : t.columnsNamed name m sources id = []) :
    columnIn name m sources id scope = .ok none := by
  have hdecided := columnIn_of_columnsNamed h name m sources
  rw [hnone] at hdecided
  exact hdecided

/-- A column name is decided by the nearest scope with a column of that name. Without one nothing is
    found. When all its columns of that name are of one binding, the first of them is found. When
    two of them are of different bindings, the name is ambiguous. -/
theorem lookupColumn_decided {start : ScopeId} {scope : Scope} (hbuilt : t.Built)
    (h : t.get? start = some scope) (name : String) (m : NameMatching) (sources : RowSources) :
    ((∀ id ∈ t.chain start, t.columnsNamed name m sources id = []) →
      t.lookupColumn start name m sources = .ok none) ∧
    (∀ inner nearest outer first rest, t.chain start = inner ++ nearest :: outer →
      (∀ id ∈ inner, t.columnsNamed name m sources id = []) →
      t.columnsNamed name m sources nearest = first :: rest →
        ((∀ other ∈ rest, other.1 = first.1) →
          t.lookupColumn start name m sources = .ok (some first.2)) ∧
        ((∃ other ∈ rest, other.1 ≠ first.1) →
          t.lookupColumn start name m sources = .error (.ambiguousColumn name))) := by
  have hthere : ∀ id ∈ t.chain start, ∃ scope, t.get? id = some scope := fun id hmem =>
    hbuilt.nested.exists_of_mem_chain h hmem
  unfold lookupColumn
  refine ⟨fun hnone => ?_, fun inner nearest outer first rest hchain hinner hnearest => ?_⟩
  · rw [← List.append_nil (t.chain start)]
    rw [firstAlong_append [] fun id hmem => ?_]
    · rfl
    · obtain ⟨around, haround⟩ := hthere id hmem
      exact ⟨around, haround, columnIn_of_none haround (hnone id hmem)⟩
  · rw [hchain] at hthere ⊢
    obtain ⟨around, haround⟩ := hthere nearest (by simp)
    have hdecided := columnIn_of_columnsNamed haround name m sources
    rw [hnearest] at hdecided
    rw [firstAlong_append (nearest :: outer) fun id hmem => ?_]
    · unfold firstAlong
      rw [haround]
      refine ⟨fun hone => ?_, fun hseveral => ?_⟩
      · simp only [hdecided.1 hone]
      · simp only [hdecided.2 hseveral]
    · obtain ⟨inside, hinside⟩ := hthere id (List.mem_append_left _ hmem)
      exact ⟨inside, hinside, columnIn_of_none hinside (hinner id hmem)⟩

/-! ### Two columns of one name -/

/-- The catalog and the scope of a query block with the given bindings. -/
def ofBlock (bindings : List Binding) : ScopeTree :=
  ⟨#[.root, { parent := some rootId, role := .block, node := none, bindings, depth := 1 }]⟩

theorem built_ofBlock (bindings : List Binding) : (ofBlock bindings).Built := by
  induction bindings using List.reverseRecOn with
  | nil => exact Built.root.newScope (show newBlock {} rootId none = .ok (⟨1⟩, ofBlock []) from rfl)
  | append_singleton earlier b ih =>
    exact ih.addBinding (show (ofBlock earlier).addBinding ⟨1⟩ b = .ok _ from rfl)

/-- A registry with one table of the given row type. -/
def onlyTable (row : DataType) : RowSources := (RowSources.registerTable {} ["T"] row).2

/-- Two bindings of the same table make its only column ambiguous. -/
theorem lookupColumn_decided_two_bindings :
    let t := ofBlock [⟨["X"], ⟨0⟩, false⟩, ⟨["Y"], ⟨0⟩, true⟩]
    let sources := onlyTable (.row [("C", .notNull .integer)])
    t.Built ∧ t.lookupColumn ⟨1⟩ "c" .ignoringCase sources = .error (.ambiguousColumn "c") := by
  intro t sources
  have hbuilt := built_ofBlock [⟨["X"], ⟨0⟩, false⟩, ⟨["Y"], ⟨0⟩, true⟩]
  have hblock : t.get? ⟨1⟩ = some _ := rfl
  have hchain : t.chain ⟨1⟩ = [] ++ ⟨1⟩ :: [rootId] := rfl
  obtain ⟨-, hambiguous⟩ :=
    (lookupColumn_decided hbuilt hblock "c" .ignoringCase sources).2 _ _ _ _ _ hchain (by simp) rfl
  exact ⟨hbuilt, hambiguous (by decide +kernel)⟩

/-- A column is found although the row type of its binding has a second column of that name: it is
    not so that two columns of one name in the nearest scope always make the name ambiguous. -/
theorem repeated_column_accepted :
    ¬ ∀ (t : ScopeTree) (sources : RowSources) (start : ScopeId) (scope : Scope) (m : NameMatching)
      (name : String) (inner outer : List ScopeId) (nearest : ScopeId)
      (first second : Nat × ColumnMatch) (rest : List (Nat × ColumnMatch)),
      t.Built → t.get? start = some scope → t.chain start = inner ++ nearest :: outer →
        (∀ id ∈ inner, t.columnsNamed name m sources id = []) →
        t.columnsNamed name m sources nearest = first :: second :: rest →
          t.lookupColumn start name m sources = .error (.ambiguousColumn name) := by
  intro h
  let bindings : List Binding := [⟨["T"], ⟨0⟩, false⟩]
  let sources := onlyTable (.row [("C", .notNull .integer), ("C", .notNull .date)])
  have hambiguous := h (ofBlock bindings) sources ⟨1⟩ _ .exact "C" [] [rootId] ⟨1⟩ _ _ _
    (built_ofBlock bindings) rfl rfl (by simp) rfl
  have hfound : ((ofBlock bindings).lookupColumn ⟨1⟩ "C" .exact sources).map
      (·.map fun column => column.field.type.name) = .ok (some .integer) := by decide +kernel
  rw [hambiguous] at hfound
  cases hfound

end ScopeTree

end SqlTyping
