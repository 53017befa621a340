namespace SqlTyping

/-!
# Maps in order of insertion

A finite map that lists its keys in the order in which they were first put. Putting a key again
replaces its value and keeps its place.

* `OrderedMap.put`, `OrderedMap.get?` — related by `get?_put`;
* `OrderedMap.keys` — a new key comes last, a known one changes nothing (`keys_put`), and no key is
  listed twice (`nodup_keys_put`).
-/

/-- A finite map, its entries in order of insertion. -/
structure OrderedMap (κ ν : Type) where
  entries : List (κ × ν) := []
  deriving DecidableEq, Repr

namespace OrderedMap

variable {κ ν : Type} [DecidableEq κ]

instance : Inhabited (OrderedMap κ ν) := ⟨{}⟩

/-- The value of a key in a list of entries. -/
def find? (key : κ) : List (κ × ν) → Option ν
  | [] => none
  | (k, v) :: rest => if k = key then some v else find? key rest

/-- The entries with the value of `key` set to `value`. -/
def replace (key : κ) (value : ν) : List (κ × ν) → List (κ × ν)
  | [] => [(key, value)]
  | (k, v) :: rest => if k = key then (k, value) :: rest else (k, v) :: replace key value rest

/-- The value of a key. -/
def get? (m : OrderedMap κ ν) (key : κ) : Option ν := find? key m.entries

/-- The map with the value of `key` set to `value`. -/
def put (m : OrderedMap κ ν) (key : κ) (value : ν) : OrderedMap κ ν :=
  ⟨replace key value m.entries⟩

omit [DecidableEq κ] in
/-- The keys in order of insertion. -/
def keys (m : OrderedMap κ ν) : List κ := m.entries.map (·.1)

omit [DecidableEq κ] in
/-- The number of keys. -/
def size (m : OrderedMap κ ν) : Nat := m.entries.length

theorem find?_replace (key other : κ) (value : ν) (entries : List (κ × ν)) :
    find? other (replace key value entries) =
      if other = key then some value else find? other entries := by
  induction entries with
  | nil =>
    simp only [replace, find?]
    by_cases h : other = key
    · simp [h]
    · simp [h, Ne.symm h]
  | cons e rest ih =>
    obtain ⟨k, v⟩ := e
    unfold replace
    by_cases hk : k = key
    -- The first entry has the key that is put: its value changes and the rest is kept.
    · subst hk
      simp only [if_true, find?]
      by_cases h : other = k
      · simp [h]
      · simp [h, Ne.symm h]
    -- The first entry has another key: it answers for itself, the rest by induction.
    · simp only [if_neg hk, find?, ih]
      by_cases h : k = other
      · subst h
        simp [hk]
      · simp [h]

/-- The value put last for a key is the one found; other keys are unchanged. -/
theorem get?_put (m : OrderedMap κ ν) (key other : κ) (value : ν) :
    (m.put key value).get? other = if other = key then some value else m.get? other :=
  find?_replace key other value m.entries

/-- A key has a value exactly when it is listed. -/
theorem get?_eq_none_iff {m : OrderedMap κ ν} {key : κ} : m.get? key = none ↔ key ∉ m.keys := by
  obtain ⟨entries⟩ := m
  simp only [get?, keys]
  induction entries with
  | nil => simp [find?]
  | cons e rest ih =>
    obtain ⟨k, v⟩ := e
    by_cases h : k = key
    · simp [find?, h]
    · simp [find?, h, Ne.symm h, ih]

theorem keys_replace (key : κ) (value : ν) (entries : List (κ × ν)) :
    (replace key value entries).map (·.1) =
      if key ∈ entries.map (·.1) then entries.map (·.1) else entries.map (·.1) ++ [key] := by
  induction entries with
  | nil => simp [replace]
  | cons e rest ih =>
    obtain ⟨k, v⟩ := e
    unfold replace
    by_cases h : k = key
    · simp [h]
    · simp only [if_neg h, List.map_cons, ih, List.mem_cons, Ne.symm h, false_or]
      split <;> simp

/-- A known key keeps the order; a new key comes last. -/
theorem keys_put (m : OrderedMap κ ν) (key : κ) (value : ν) :
    (m.put key value).keys = if key ∈ m.keys then m.keys else m.keys ++ [key] :=
  keys_replace key value m.entries

/-- No key is listed twice after a put when none was before. -/
theorem nodup_keys_put {m : OrderedMap κ ν} (h : m.keys.Nodup) (key : κ) (value : ν) :
    (m.put key value).keys.Nodup := by
  rw [keys_put]
  split
  · exact h
  · rename_i hk
    rw [List.nodup_append]
    -- The only new key is `key`, which `hk` says was not listed.
    refine ⟨h, by simp, ?_⟩
    intro a ha b hb
    simp only [List.mem_singleton] at hb
    subst hb
    rintro rfl
    exact hk ha

end OrderedMap

end SqlTyping
