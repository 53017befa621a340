import Mathlib.Data.List.Perm.Subperm
import Mathlib.Data.Nat.Find
import SqlTyping.Proofs.Scope.Ambiguity
import SqlTyping.Proofs.Session.Appending
import SqlTyping.Proofs.Session.Padding
import SqlTyping.Proofs.Session.Providing

namespace SqlTyping

/-!
# Column names of queries

A query has a NOT NULL row type whose columns are numbered in order and have different names. Those of
a SELECT are the columns that its list asks for, each under a name that no earlier one has.

* `NamedAmong` — the name of a column behind others: its base name, or the base name with the least
  counter that makes it new; there is one among the first counters, as they make different names
  (`exists_counter`), so `freshName` finds it (`namedAmong_freshName`);
* `Columns.addAll` — columns behind others, one after the other; `Columns.getElem?_addAll` is what
  becomes of each;
* `DataType.IsQueryRow` — the row types of queries, which set operations and WITH keep;
* `Visit.Selects` — the run of a SELECT with the columns that it asks for: those of its expressions,
  and for `*` those of the sources that its FROM entries are bound to;
* `Session.validated_columns` — the row type of a query that has been validated.
-/

open Checking

/-! ### Fresh names -/

/-- What a column is named behind columns with the names `taken`: by its base name if that is new, and
    otherwise by the base name and the least number that makes it new. -/
inductive NamedAmong (taken : List String) (base : String) : String → Prop
  | base (hnew : base ∉ taken) : NamedAmong taken base base
  | counted {k : Nat} (htaken : base ∈ taken) (hnew : base ++ toString k ∉ taken)
    (hleast : ∀ j < k, base ++ toString j ∈ taken) : NamedAmong taken base (base ++ toString k)

theorem NamedAmong.not_mem {taken : List String} {base name : String}
    (h : NamedAmong taken base name) : name ∉ taken := by
  cases h with
  | base hnew => exact hnew
  | counted _ hnew => exact hnew

/-- Different counters make different names. -/
theorem counter_injective (base : String) : Function.Injective fun k : Nat => base ++ toString k := by
  intro j k h
  have hdigits : toString j = toString k := (String.append_right_inj base).mp h
  rw [Nat.toString_eq_ofList_toDigits, Nat.toString_eq_ofList_toDigits] at hdigits
  exact Text.digits_injective (String.ofList_injective hdigits)

/-- There are more counters up to the number of names than names, so one of them makes a new name. -/
theorem exists_counter (base : String) (taken : List String) :
    ∃ k ≤ taken.length, base ++ toString k ∉ taken := by
  by_contra hnone
  push Not at hnone
  let tried := (List.range (taken.length + 1)).map fun k => base ++ toString k
  have hnodup : tried.Nodup := List.nodup_range.map (counter_injective base)
  have hsubset : tried ⊆ taken := by
    intro name hmem
    obtain ⟨k, hk, rfl⟩ := List.mem_map.mp hmem
    exact hnone k (Nat.lt_succ_iff.mp (List.mem_range.mp hk))
  have hle := (List.subperm_of_subset hnodup hsubset).length_le
  simp only [tried, List.length_map, List.length_range] at hle
  omega

/-- The search stops at the least counter that makes a new name, if it is given enough tries. -/
theorem firstFresh_eq {base : String} {taken : List String} {start tries k : Nat}
    (hstart : start ≤ k) (htries : k ≤ start + tries) (hnew : base ++ toString k ∉ taken)
    (hleast : ∀ j < k, base ++ toString j ∈ taken) :
    firstFresh base taken start tries = base ++ toString k := by
  induction tries generalizing start with
  | zero =>
    obtain rfl : start = k := by omega
    rfl
  | succ tries ih =>
    unfold firstFresh
    by_cases hreached : start = k
    · rw [hreached, if_neg hnew]
    · rw [if_pos (hleast start (by omega))]
      exact ih (by omega) (by omega)

/-- A name that is made fresh is new, by the least counter if it needs one. -/
theorem namedAmong_freshName (base : String) (taken : List String) :
    NamedAmong taken base (freshName base taken) := by
  unfold freshName
  split
  · rename_i htaken
    have hexists : ∃ k, base ++ toString k ∉ taken := (exists_counter base taken).imp fun _ h => h.2
    have hnew := Nat.find_spec hexists
    have hleast : ∀ j < Nat.find hexists, base ++ toString j ∈ taken := fun j hj =>
      not_not.mp (Nat.find_min hexists hj)
    have hbound : Nat.find hexists ≤ taken.length := by
      obtain ⟨k, hk, hfree⟩ := exists_counter base taken
      exact Nat.le_trans (Nat.find_min' hexists hfree) hk
    rw [firstFresh_eq (Nat.zero_le _) (by omega) hnew hleast]
    exact .counted htaken hnew hleast
  · rename_i hnew
    exact .base hnew

/-! ### Columns behind others -/

namespace Columns

/-- The columns with further ones behind them, each under a fresh name. -/
def addAll (cs bases : Columns) : Columns := bases.foldl (fun cs base => cs.add base.1 base.2) cs

/-- The columns that a binding shows, under the names they have there. -/
def ofBinding (sources : RowSources) (b : Binding) : Columns :=
  (sources.rowOrEmpty b.source).fields.map fun f => (f.name, f.type.orNullable b.nullable)

variable {cs : Columns}

@[simp] theorem addAll_nil (cs : Columns) : cs.addAll [] = cs := rfl

@[simp] theorem addAll_cons (cs : Columns) (base : String × DataType) (bases : Columns) :
    cs.addAll (base :: bases) = (cs.add base.1 base.2).addAll bases := rfl

theorem addAll_append (cs bases more : Columns) :
    cs.addAll (bases ++ more) = (cs.addAll bases).addAll more :=
  List.foldl_append

/-- The columns of several bindings are added one after the other. -/
theorem addBindings_eq (cs : Columns) (sources : RowSources) (bindings : List Binding) :
    cs.addBindings sources bindings = cs.addAll (bindings.flatMap (ofBinding sources)) := by
  induction bindings generalizing cs with
  | nil => rfl
  | cons b rest ih =>
    have hrow : cs.addRow (sources.rowOrEmpty b.source) b.nullable =
        cs.addAll (ofBinding sources b) := by
      simp only [addRow, addAll, ofBinding, List.foldl_map]
    rw [List.flatMap_cons, addAll_append, ← hrow]
    exact ih _

@[simp] theorem length_add (cs : Columns) (name : String) (type : DataType) :
    (cs.add name type).length = cs.length + 1 := by
  simp [add]

@[simp] theorem length_addAll (cs bases : Columns) :
    (cs.addAll bases).length = cs.length + bases.length := by
  induction bases generalizing cs with
  | nil => rfl
  | cons base rest ih => simp [ih]; omega

/-- Columns that are added stand behind the others. -/
theorem prefix_addAll (cs bases : Columns) : cs <+: cs.addAll bases := by
  induction bases generalizing cs with
  | nil => exact List.prefix_rfl
  | cons base rest ih => exact (List.prefix_append cs _).trans (ih _)

/-- The names of the first columns. -/
theorem take_names_addAll (cs bases : Columns) : (cs.addAll bases).names.take cs.length = cs.names := by
  obtain ⟨more, hmore⟩ := prefix_addAll cs bases
  unfold names
  rw [← hmore, List.map_append, List.take_left' (List.length_map _)]

/-- Each column keeps its type, and its name is made fresh behind those before it. -/
theorem getElem?_addAll (cs bases : Columns) (i : Nat) :
    (cs.addAll bases)[cs.length + i]? = bases[i]?.map fun base =>
      (freshName base.1 ((cs.addAll bases).names.take (cs.length + i)), base.2) := by
  induction bases generalizing cs i with
  | nil => simp
  | cons base rest ih =>
    rw [addAll_cons]
    cases i with
    | zero =>
      have hfirst : cs.addAll (base :: rest) = _ := addAll_cons cs base rest
      have hnames := take_names_addAll cs (base :: rest)
      rw [hfirst] at hnames
      obtain ⟨more, hmore⟩ := prefix_addAll (cs.add base.1 base.2) rest
      rw [Nat.add_zero, hnames, ← hmore, add]
      simp
    | succ i =>
      have hplace : cs.length + (i + 1) = (cs.add base.1 base.2).length + i := by
        rw [length_add]
        omega
      rw [hplace, ih]
      rfl

/-- Columns under fresh names have different names if the others have. -/
theorem nodup_addAll (h : cs.names.Nodup) (bases : Columns) : (cs.addAll bases).names.Nodup := by
  induction bases generalizing cs with
  | nil => exact h
  | cons base rest ih =>
    apply ih
    have hnew := (namedAmong_freshName base.1 cs.names).not_mem
    show ((cs ++ [(freshName base.1 cs.names, base.2)]).map (·.1)).Nodup
    rw [List.map_append]
    exact List.nodup_append_comm.mp (List.nodup_cons.mpr ⟨hnew, h⟩)

end Columns

/-! ### Row types of queries -/

/-- A row type that a query can have: NOT NULL, with columns that are numbered in order and have
    different names. -/
structure DataType.IsQueryRow (row : DataType) : Prop where
  isRow : row.isRow = true
  notNull : row.nullable = false
  index : ∀ i (field : Field DataType), row.fields[i]? = some field → field.index = i
  nodup : row.fieldNames.Nodup

namespace DataType

/-- Columns with different names make such a row type. -/
theorem isQueryRow_row {columns : Columns} (h : columns.names.Nodup) : (row columns).IsQueryRow where
  isRow := rfl
  notNull := rfl
  index i field hfield := by
    have hindex := row_fields_index columns i
    rw [hfield] at hindex
    cases hcolumn : columns[i]? with
    | none => simp [hcolumn] at hindex
    | some column => simpa [hcolumn] using hindex
  nodup := by
    rw [fieldNames, row, names_numbered]
    exact h

/-- A set operation has the names of its left input, and the types of its columns but for
    nullability. -/
theorem columns_of_unionRow {operation : String} {left right result : DataType}
    (h : unionRow operation left right = .ok result) :
    result.fieldNames = left.fieldNames ∧
      ∀ (i : Nat) (field : Field DataType), result.fields[i]? = some field →
        ∃ l r : Field DataType, left.fields[i]? = some l ∧ right.fields[i]? = some r ∧
          field.type = l.type.orNullable r.type.nullable := by
  unfold unionRow at h
  split at h
  · rename_i hcount
    unfold fieldCount at hcount
    obtain rfl := Except.ok.inj h
    refine ⟨?_, fun i field hfield => ?_⟩
    · rw [fieldNames, row, names_numbered]
      apply List.ext_getElem
      · simp [fieldNames, hcount]
      · simp [fieldNames]
    · rw [row, getElem?_numbered, Option.map_eq_some_iff] at hfield
      obtain ⟨column, hcolumn, rfl⟩ := hfield
      obtain ⟨l, r, hl, hr, rfl⟩ := List.getElem?_zipWith_eq_some.mp hcolumn
      exact ⟨l, r, hl, hr, rfl⟩
  · cases h

/-- So does a set operation on row types of queries. -/
theorem isQueryRow_unionRow {operation : String} {left right result : DataType}
    (hleft : left.IsQueryRow) (h : unionRow operation left right = .ok result) :
    result.IsQueryRow := by
  have hnames := (columns_of_unionRow h).1
  unfold unionRow at h
  split at h
  · obtain rfl := Except.ok.inj h
    apply isQueryRow_row
    rw [fieldNames, row, names_numbered] at hnames
    unfold Columns.names
    rw [hnames]
    exact hleft.nodup
  · cases h

end DataType

/-! ### The run of a SELECT -/

/-- One entry of a FROM list has been bound: a table, found by its name, under the name it shows, or a
    query, as a source of its own with the row type that it has come to, under its label. -/
inductive Visit.BindsEntry (v : Visit) (parent scope : ScopeId) (block entry : NodeId) :
    Session → Binding → Session → Prop
  | table {s t name label found exposed} (hn : s.tree.node? entry = some (.tableRef name label))
    (hfound : s.scopes.requireTable parent name s.settings.matching s.sources = .ok found)
    (hremaining : found.remaining = []) (hexposed : exposedName? name label = some exposed)
    (hrun : bindSource v parent scope block entry s = (.ok (), t))
    (hsources : t.sources = s.sources) :
    BindsEntry v parent scope block entry s ⟨[exposed], found.source, false⟩ t
  | query {s s' t query label row} (hn : s.tree.node? entry = some (.subqueryRef query label))
    (hquery : v.query parent query s = (.ok row, s'))
    (hrun : bindSource v parent scope block entry s = (.ok (), t))
    (hrow : t.sources.row? s'.sources.nextId = some row) :
    BindsEntry v parent scope block entry s ⟨[label], s'.sources.nextId, false⟩ t

/-- The entries of a FROM list have been bound, in order, one binding for each. -/
inductive Visit.BindsEntries (v : Visit) (parent scope : ScopeId) (block : NodeId) :
    List NodeId → Session → List Binding → Session → Prop
  | nil {s} : BindsEntries v parent scope block [] s [] s
  | cons {entry rest s s' t b bindings} (hentry : v.BindsEntry parent scope block entry s b s')
    (hrest : BindsEntries v parent scope block rest s' bindings t) :
    BindsEntries v parent scope block (entry :: rest) s (b :: bindings) t

/-- One entry of a SELECT list has been validated, and asks for columns: an expression for one of its
    type, and `*` for those of all bindings, in order. -/
inductive Visit.Lists (v : Visit) (scope : ScopeId) (bindings : List Binding) (place : Nat) :
    SelectItem → Session → Columns → Session → Prop
  | star {s} : Lists v scope bindings place .star s (bindings.flatMap (Columns.ofBinding s.sources)) s
  | expression {s t id label node type} (hn : s.tree.node? id = some node)
    (hrun : v.expression scope id s = (.ok type, t)) :
    Lists v scope bindings place (.expression id label) s [(baseName label node place, type)] t

/-- The entries of a SELECT list from `place` on have been validated, in order. -/
inductive Visit.ListsAll (v : Visit) (scope : ScopeId) (bindings : List Binding) :
    Nat → List SelectItem → Session → Columns → Session → Prop
  | nil {place s} : ListsAll v scope bindings place [] s [] s
  | cons {place item rest s s' t bases more} (hitem : v.Lists scope bindings place item s bases s')
    (hrest : ListsAll v scope bindings (place + 1) rest s' more t) :
    ListsAll v scope bindings place (item :: rest) s (bases ++ more) t

/-- A SELECT has been validated and asks for the columns `bases`: its scope has been added, its FROM
    list bound, its condition validated, and then the entries of its list. -/
inductive Visit.Selects (v : Visit) (parent : ScopeId) (query : NodeId) (block : SelectBlock) :
    Session → Columns → Session → Prop
  | intro {s s₁ s₂ s₃ t scope bindings bases}
    (hscope : Validation.onScopes (·.newBlock parent (some query)) s = (.ok scope, s₁))
    (hfrom : v.BindsEntries parent scope query block.sources s₁ bindings s₂)
    (hcondition : match block.condition with
      | none => s₃ = s₂
      | some condition => ∃ type, v.expression scope condition s₂ = (.ok type, s₃))
    (hitems : v.ListsAll scope bindings 0 block.items s₃ bases t) :
    Selects v parent query block s bases t

/-- The bindings of a scope in a session. -/
def Session.BindsIn (s : Session) (scope : ScopeId) (bindings : List Binding) : Prop :=
  ∃ found, s.scopes.get? scope = some found ∧ found.bindings = bindings

section

variable {v : Visit} {s t : Session} {parent scope : ScopeId} {block : NodeId}
  {bindings : List Binding} (hv : ∀ s : Session, v.Keeps s.Appends)
  (hretains : ∀ tree : Tree, v.Keeps fun s => tree.Retains s.tree)
  (hwritten : ∀ scope id s type t, v.expression scope id s = (.ok type, t) →
    ∃ node, s.tree.node? id = some node)

/-- Scopes that there are keep their bindings. -/
theorem Session.BindsIn.appends (h : s.BindsIn scope bindings) (ht : s.Appends t) :
    t.BindsIn scope bindings := by
  obtain ⟨found, hfound, hbindings⟩ := h
  exact ⟨found, ht.scopes scope found hfound, hbindings⟩

/-- A name that is bound comes behind the others. -/
theorem Session.BindsIn.bindName {name : String} {source : SourceId} {x : Unit}
    (h : s.BindsIn scope bindings) (hrun : Validation.bindName scope name source s = (.ok x, t)) :
    t.BindsIn scope (bindings ++ [⟨[name], source, false⟩]) := by
  obtain ⟨found, hfound, rfl⟩ := h
  obtain ⟨found', hfound', hbound⟩ := get?_of_bindName hrun
  obtain rfl := Option.some.inj (hfound.symm.trans hfound')
  exact ⟨_, hbound, rfl⟩

include hv in
/-- An entry of a FROM list that has been bound has one binding, behind those of the entries before. -/
theorem Visit.Keeps.bindsEntry {entry : NodeId} {x : Unit} (hs : s.BindsIn scope bindings)
    (h : bindSource v parent scope block entry s = (.ok x, t)) :
    ∃ b, v.BindsEntry parent scope block entry s b t ∧ t.BindsIn scope (bindings ++ [b]) := by
  have hrun := h
  obtain ⟨node, s', hread, hrest⟩ := bind_eq_ok_iff.mp h
  obtain ⟨rfl, hn⟩ := node_eq_ok hread
  cases node with
  | tableRef name label =>
    rcases bindTable_cases parent scope entry name label s' with
      ⟨e, he⟩ | ⟨found, hfound, hremaining, ⟨-, -, e, he⟩ | ⟨exposed, types, hexposed, hbind⟩⟩
    · cases he.symm.trans hrest
    · cases he.symm.trans (congrArg Prod.fst hrest)
    · have hrest := hbind.symm.trans hrest
      obtain ⟨scopes, -, rfl⟩ := Validation.bindName_eq_ok hrest
      refine ⟨_, .table hn hfound hremaining hexposed hrun rfl, ?_⟩
      exact Session.BindsIn.bindName (s := { s' with
        selfReferences := s'.listing entry found.source, types }) hs hrest
  | subqueryRef query label =>
    obtain ⟨row, s₁, sources, hquery, hset, hrest⟩ := bindSubquery_eq_ok hrest
    have happends : s'.Appends s₁ := by
      have h := (hv s').query parent query s' (.refl s')
      rwa [hquery] at h
    -- Neither the source nor its row type touches the scopes.
    have hs₁ : s₁.BindsIn scope bindings := hs.appends happends
    have hbound := Session.BindsIn.bindName (s := { s₁ with
      sources, types := s₁.types.put entry row }) hs₁ hrest
    obtain ⟨scopes, -, rfl⟩ := Validation.bindName_eq_ok hrest
    refine ⟨_, .query hn hquery hrun ?_, hbound⟩
    show sources.row? s₁.sources.nextId = some row
    have hnew := RowSources.get?_register_self s₁.sources entry .query (some block)
    rw [RowSources.row?, RowSources.get?_setRow hset, if_pos rfl]
    exact congrArg (fun e => (Option.map _ e).map _) hnew
  | _ => cases hrest

include hv in
/-- So it is for a FROM list. -/
theorem Visit.Keeps.bindsEntries {entries : List NodeId} {x : Unit} (hs : s.BindsIn scope bindings)
    (h : entries.forM (bindSource v parent scope block) s = (.ok x, t)) :
    ∃ bound, v.BindsEntries parent scope block entries s bound t ∧ t.BindsIn scope (bindings ++ bound) := by
  induction entries generalizing s bindings with
  | nil =>
    cases h
    exact ⟨[], .nil, by rwa [List.append_nil]⟩
  | cons entry rest ih =>
    obtain ⟨_, s', hentry, hrest⟩ := bind_eq_ok_iff.mp h
    obtain ⟨b, hbinds, hs'⟩ := Visit.Keeps.bindsEntry hv hs hentry
    obtain ⟨bound, hbound, ht⟩ := ih hs' hrest
    exact ⟨b :: bound, .cons hbinds hbound, by rwa [List.append_assoc] at ht⟩

/-- The name of a column before it is made fresh is that of the node as it was written. -/
theorem baseName_of_resembles {node node' : Node} (h : node.Resembles node') (label : Option String)
    (place : Nat) : baseName label node' place = baseName label node place := by
  cases h with
  | same => rfl
  | call => cases label <;> rfl

include hv hretains hwritten in
/-- The columns of a SELECT list are those that its entries ask for, added one after the other. -/
theorem Visit.Keeps.listsAll {columns result : Columns} {place : Nat} {items : List SelectItem}
    (hs : s.BindsIn scope bindings)
    (h : selectColumns v scope columns place items s = (.ok result, t)) :
    ∃ bases, v.ListsAll scope bindings place items s bases t ∧ result = columns.addAll bases := by
  induction items generalizing s columns place with
  | nil =>
    cases h
    exact ⟨[], .nil, rfl⟩
  | cons item rest ih =>
    obtain ⟨next, s', hitem, hrest⟩ := bind_eq_ok_iff.mp h
    have hlists : ∃ bases, v.Lists scope bindings place item s bases s' ∧
        next = columns.addAll bases ∧ s.Appends s' := by
      cases item with
      | star =>
        cases hitem
        obtain ⟨found, hfound, rfl⟩ := hs
        refine ⟨_, .star, ?_, .refl s⟩
        rw [hfound]
        exact Columns.addBindings_eq columns s.sources found.bindings
      | expression id label =>
        obtain ⟨type, u, hrun, hnamed⟩ := bind_eq_ok_iff.mp hitem
        obtain ⟨node', u', hread, hadded⟩ := bind_eq_ok_iff.mp hnamed
        obtain ⟨rfl, hn'⟩ := node_eq_ok hread
        cases hadded
        have happends : s.Appends s' := by
          have h := (hv s).expression scope id s (.refl s)
          rwa [hrun] at h
        have hkept : s.tree.Retains s'.tree := by
          have h := (hretains s.tree).expression scope id s (.refl _)
          rwa [hrun] at h
        obtain ⟨node, hn⟩ := hwritten scope id s type s' hrun
        obtain ⟨node'', hn'', hsame⟩ := hkept id node hn
        obtain rfl := Option.some.inj (hn'.symm.trans hn'')
        refine ⟨_, .expression hn hrun, ?_, happends⟩
        rw [baseName_of_resembles hsame]
        rfl
    obtain ⟨bases, hbases, rfl, happends⟩ := hlists
    obtain ⟨more, hmore, rfl⟩ := ih (hs.appends happends) hrest
    exact ⟨bases ++ more, .cons hbases hmore, (Columns.addAll_append _ _ _).symm⟩

include hv hretains hwritten in
/-- The row type of a SELECT consists of the columns that its run asks for. -/
theorem Visit.Keeps.selects {query : NodeId} {select : SelectBlock} {row : DataType}
    (h : selectRow v parent query select s = (.ok row, t)) :
    ∃ bases, v.Selects parent query select s bases t ∧ row = .row (Columns.addAll [] bases) := by
  rw [selectRow_eq] at h
  obtain ⟨scope, s₁, hscope, h⟩ := bind_eq_ok_iff.mp h
  obtain ⟨_, s₂, hfrom, h⟩ := bind_eq_ok_iff.mp h
  have hnew : s₁.BindsIn scope [] := by
    obtain ⟨found, hfound, -, -, hbindings⟩ := get?_of_newScope hscope
    exact ⟨found, hfound, hbindings⟩
  obtain ⟨bindings, hbound, hs₂⟩ := Visit.Keeps.bindsEntries hv hnew hfrom
  obtain ⟨columns, s₃, hcondition, hcolumns, rfl⟩ := selectTail_eq_ok h
  have happends : s₂.Appends s₃ := by
    cases hselect : select.condition with
    | none =>
      rw [hselect] at hcondition
      exact hcondition ▸ .refl s₂
    | some condition =>
      rw [hselect] at hcondition
      obtain ⟨type, hrun⟩ := hcondition
      have happends := (hv s₂).expression scope condition s₂ (.refl s₂)
      rwa [hrun] at happends
  obtain ⟨bases, hbases, rfl⟩ :=
    Visit.Keeps.listsAll hv hretains hwritten (hs₂.appends happends) hcolumns
  exact ⟨bases, .intro hscope hbound hcondition hbases, rfl⟩

end

/-! ### Validated queries -/

/-- What has a type is a node of the statement. -/
theorem exists_node_of_expression {depth : Nat} {scope : ScopeId} {id : NodeId} {s t : Session}
    {type : DataType} (h : (visitAt depth).expression scope id s = (.ok type, t)) :
    ∃ node, s.tree.node? id = some node := by
  cases hn : s.tree.node? id with
  | some node => exact ⟨node, rfl⟩
  | none =>
    cases depth with
    | zero => cases h
    | succ depth =>
      have hpeel : s.tree.peelCasts s.tree.size id = ([], id) :=
        Tree.peelCasts_of_not_cast (fun _ _ _ hcast => by rw [hn] at hcast; cases hcast) _
      have hstep : expressionStep (visitAt depth) scope id s = (.ok type, t) := h
      unfold expressionStep at hstep
      rw [bind_of_ok (state_apply s)] at hstep
      simp only [Host.session_self, Host.lift_self, hpeel] at hstep
      rw [bind_of_error (node_of_none hn)] at hstep
      cases hstep

/-- A SELECT that is validated to some depth has the columns that its run asks for. -/
theorem selects_of_selectRow {depth : Nat} {parent : ScopeId} {query : NodeId} {block : SelectBlock}
    {s t : Session} {row : DataType}
    (h : selectRow (visitAt depth) parent query block s = (.ok row, t)) :
    ∃ bases, (visitAt depth).Selects parent query block s bases t ∧
      row = .row (Columns.addAll [] bases) :=
  Visit.Keeps.selects (fun s => s.visitAt_appends depth) (fun tree => visitAt_retains tree depth)
    (fun _ _ _ _ _ => exists_node_of_expression) h

/-- Whatever a query is, its row type is NOT NULL, with columns numbered in order and of different
    names. -/
theorem isQueryRow_of_visitAt {depth : Nat} {scope : ScopeId} {query : NodeId} {s t : Session}
    {row : DataType} (h : (visitAt depth).query scope query s = (.ok row, t)) : row.IsQueryRow := by
  induction depth generalizing scope query s t row with
  | zero => cases h
  | succ depth ih =>
    obtain ⟨node, u, -, hrow, -⟩ := queryStep_eq_ok h
    cases node with
    | select block =>
      obtain ⟨bases, -, rfl⟩ := selects_of_selectRow hrow
      have hnone : (Columns.names []).Nodup := List.nodup_nil
      exact DataType.isQueryRow_row (Columns.nodup_addAll hnone bases)
    | setOperation operation =>
      obtain ⟨left, right, s', hleft, -, hunion⟩ := setOperationRow_eq_ok hrow
      exact DataType.isQueryRow_unionRow (ih hleft) hunion
    | withQuery items body =>
      obtain ⟨behind, s', hbody⟩ := withRow_eq_ok hrow
      exact ih hbody
    | _ => cases hrow

namespace Session

/-- A query that has been validated, at the top or in any scope, has a NOT NULL row type, whose columns
    are numbered in order and have different names. A SELECT has the columns that its run asks for, in
    order and with their types. Each is named by its base name if no earlier column has that name, and
    otherwise by the base name and the least number that makes it different from all earlier names. -/
theorem validated_columns {s t : Session} {scope : ScopeId} {query : NodeId} {row : DataType}
    (h : validateQueryIn scope query s = (.ok row, t)) :
    row.isRow = true ∧ row.nullable = false ∧
    (∀ i (field : Field DataType), row.fields[i]? = some field → field.index = i) ∧
    row.fieldNames.Nodup ∧
    ∀ block, s.tree.node? query = some (.select block) →
      ∃ bases u, (visitAt s.tree.size).Selects scope query block s bases u ∧
        row.fieldCount = bases.length ∧
        ∀ i base, bases[i]? = some base → ∃ field, row.fields[i]? = some field ∧
          field.type = base.2 ∧ NamedAmong (row.fieldNames.take i) base.1 field.name := by
  have hrow := isQueryRow_of_visitAt h
  refine ⟨hrow.isRow, hrow.notNull, hrow.index, hrow.nodup, fun block hblock => ?_⟩
  obtain ⟨node, u, hn, hselect, -⟩ := queryStep_eq_ok (v := visitAt s.tree.size) h
  obtain rfl := Option.some.inj (hblock.symm.trans hn)
  obtain ⟨bases, hrun, rfl⟩ := selects_of_selectRow hselect
  refine ⟨bases, u, hrun, ?_, fun i base hbase => ?_⟩
  · simp [DataType.fieldCount, DataType.row]
  · have hcolumn := Columns.getElem?_addAll [] bases i
    simp only [List.length_nil, Nat.zero_add, hbase, Option.map_some] at hcolumn
    refine ⟨_, by rw [DataType.row, DataType.getElem?_numbered, hcolumn]; rfl, rfl, ?_⟩
    rw [DataType.fieldNames, DataType.row, DataType.names_numbered]
    exact namedAmong_freshName base.1 _

/-- The statement `SELECT *, 1 AS A1 FROM T, U` over tables `T (A, A0)` and `U (A)`. -/
def sameNames : Session where
  tree := ⟨#[⟨.tableRef ["T"] none, ⟨24, 25⟩⟩, ⟨.tableRef ["U"] none, ⟨27, 28⟩⟩,
    ⟨.literal (.integer 1), ⟨10, 11⟩⟩,
    ⟨.select ⟨[.star, .expression ⟨2⟩ (some "A1")], [⟨0⟩, ⟨1⟩], none⟩, ⟨0, 28⟩⟩]⟩
  scopes := .ofCatalog [⟨["T"], ⟨0⟩, false⟩, ⟨["U"], ⟨1⟩, false⟩]
  sources := ((ScopeTree.onlyTable (.row [("A", .notNull .integer), ("A0", .notNull .date)])
    ).registerTable ["U"] (.row [("A", .orNull .varchar)])).2

/-- The column of `U` gets the first counter that no column of `T` has, and so takes the written name
    away from the last column. -/
theorem validated_columns_sameNames :
    ∃ row t, validateQuery ⟨3⟩ sameNames = (.ok row, t) ∧
      row.fieldNames = ["A", "A0", "A1", "A10"] ∧ row.fieldNames.Nodup ∧
        ∃ bases u, (visitAt 4).Selects ScopeTree.rootId ⟨3⟩
          ⟨[.star, .expression ⟨2⟩ (some "A1")], [⟨0⟩, ⟨1⟩], none⟩ sameNames bases u ∧
            bases.length = 4 := by
  have hnames : (validateQuery ⟨3⟩ sameNames).1.map DataType.fieldNames =
      .ok ["A", "A0", "A1", "A10"] := by decide +kernel
  cases hrun : validateQuery ⟨3⟩ sameNames with
  | mk answer t =>
    rw [hrun] at hnames
    cases answer with
    | error e => cases hnames
    | ok row =>
      have hrow : row.fieldNames = ["A", "A0", "A1", "A10"] := Except.ok.inj hnames
      obtain ⟨-, -, -, hnodup, hselect⟩ := validated_columns hrun
      obtain ⟨bases, u, hbases, hcount, -⟩ := hselect _ rfl
      refine ⟨row, t, rfl, hrow, hnodup, bases, u, hbases, ?_⟩
      rw [← hcount, DataType.fieldCount, ← List.length_map, ← DataType.fieldNames, hrow]
      rfl

end Session

end SqlTyping
