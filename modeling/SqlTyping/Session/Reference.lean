import SqlTyping.Session

namespace SqlTyping

/-!
# Column references

`Session.referenceType` gives the type of a column reference as seen from a scope. A one-part name
is looked up as a column; in a longer name the leading parts name a binding and exactly one part must
be left for the column. Tables of the catalog are visible only through a FROM list.
-/

namespace Session

/-- Whether the scope with the given number is the catalog. -/
def isCatalog (s : Session) (scope : ScopeId) : Bool :=
  match s.scopes.get? scope with
  | some found => found.role == .catalog
  | none => false

/-- The type of a column of a matched table. -/
def columnType (s : Session) (names : List String) (found : TableMatch) : Except Fault DataType :=
  match found.remaining with
  -- Columns have no parts of their own, so exactly one part must be left.
  | [column] =>
    match s.sources.row? found.source with
    | none => .error (.internal s!"unknown namespace {found.source.text}")
    | some row =>
      match row.field? column s.settings.caseSensitive with
      | none => .error (.columnNotInTable column found.path.text)
      | some field => .ok (field.type.orNullable found.nullable)
  | _ => .error (.columnNotFound (qualifiedName names))

/-- The type of a column named with its table. -/
def qualifiedType (s : Session) (scope : ScopeId) (names : List String) :
    Except Fault DataType :=
  let missing := Fault.objectNotFound (qualifiedName names.dropLast)
  match s.scopes.lookupTable scope names s.settings.matching .empty s.sources with
  | .error e => .error e
  | .ok none => .error missing
  | .ok (some found) => if s.isCatalog found.scope then .error missing else s.columnType names found

/-- The type of a column reference as seen from a scope. -/
def referenceType (s : Session) (scope : ScopeId) (names : List String) : Except Fault DataType :=
  match names with
  | [] => .error (.internal "empty identifier")
  | [column] =>
    match s.scopes.lookupColumn scope column s.settings.matching s.sources with
    | .error e => .error e
    | .ok none => .error (.columnNotFound column)
    | .ok (some found) => .ok found.type
  | _ => s.qualifiedType scope names

/-! ### What a reference that has a type stands for -/

variable {s : Session} {scope : ScopeId} {names : List String} {type : DataType}

theorem columnType_eq_ok_iff {found : TableMatch} :
    s.columnType names found = .ok type ↔ ∃ column row field, found.remaining = [column] ∧
      s.sources.row? found.source = some row ∧
        row.field? column s.settings.caseSensitive = some field ∧
          field.type.orNullable found.nullable = type := by
  unfold columnType
  constructor
  · intro h
    split at h
    · rename_i column hremaining
      split at h
      · cases h
      · rename_i row hrow
        split at h
        · cases h
        · rename_i field hfield
          exact ⟨column, row, field, hremaining, hrow, hfield, Except.ok.inj h⟩
    · cases h
  · rintro ⟨column, row, field, hremaining, hrow, hfield, rfl⟩
    rw [hremaining, hrow]
    simp only [hfield]

theorem qualifiedType_eq_ok_iff :
    s.qualifiedType scope names = .ok type ↔ ∃ found,
      s.scopes.lookupTable scope names s.settings.matching .empty s.sources = .ok (some found) ∧
        s.isCatalog found.scope = false ∧ s.columnType names found = .ok type := by
  unfold qualifiedType
  constructor
  · intro h
    simp only at h
    split at h
    · cases h
    · cases h
    · rename_i found hfound
      split at h
      · cases h
      · rename_i hcatalog
        exact ⟨found, hfound, (Bool.not_eq_true _).mp hcatalog, h⟩
  · rintro ⟨found, hfound, hcatalog, h⟩
    simp [hfound, hcatalog, h]

theorem referenceType_one_eq_ok_iff {column : String} :
    s.referenceType scope [column] = .ok type ↔ ∃ found,
      s.scopes.lookupColumn scope column s.settings.matching s.sources = .ok (some found) ∧
        found.type = type := by
  simp only [referenceType]
  cases s.scopes.lookupColumn scope column s.settings.matching s.sources with
  | error e => simp
  | ok answer => cases answer <;> simp

end Session

end SqlTyping
