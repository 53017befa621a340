import SqlTyping.DataType

namespace SqlTyping.DataType

/-!
# Equality of data types

Two data types are equal when they agree in name, arguments, nullability and structure.
`DataType.decEq` decides this by recursion on the structure; columns are compared in order, with
their names and numbers.
-/

mutual

/-- Decides whether two types are the same. -/
def decEq : (a b : DataType) → Decidable (a = b)
  | ⟨n, u, p, s, fs, c⟩, ⟨n', u', p', s', fs', c'⟩ =>
    match decEqFields fs fs', decEqComponent c c' with
    | isTrue hf, isTrue hc =>
      if h : n = n' ∧ u = u' ∧ p = p' ∧ s = s' then
        isTrue (by obtain ⟨rfl, rfl, rfl, rfl⟩ := h; rw [hf, hc])
      else isFalse fun e => h (by cases e; exact ⟨rfl, rfl, rfl, rfl⟩)
    | isFalse h, _ => isFalse fun e => h (by cases e; rfl)
    | _, isFalse h => isFalse fun e => h (by cases e; rfl)

/-- Decides whether two lists of columns are the same. -/
def decEqFields : (as bs : List (Field DataType)) → Decidable (as = bs)
  | [], [] => isTrue rfl
  | [], _ :: _ => isFalse nofun
  | _ :: _, [] => isFalse nofun
  | ⟨n, i, t⟩ :: as, ⟨n', i', t'⟩ :: bs =>
    match decEq t t', decEqFields as bs with
    | isTrue ht, isTrue hs =>
      if h : n = n' ∧ i = i' then isTrue (by obtain ⟨rfl, rfl⟩ := h; rw [ht, hs])
      else isFalse fun e => h (by cases e; exact ⟨rfl, rfl⟩)
    | isFalse h, _ => isFalse fun e => h (by cases e; rfl)
    | _, isFalse h => isFalse fun e => h (by cases e; rfl)

/-- Decides whether two element types are the same. -/
def decEqComponent : (a b : Option DataType) → Decidable (a = b)
  | none, none => isTrue rfl
  | none, some _ => isFalse nofun
  | some _, none => isFalse nofun
  | some a, some b =>
    match decEq a b with
    | isTrue h => isTrue (by rw [h])
    | isFalse h => isFalse fun e => h (by cases e; rfl)

end

instance : DecidableEq DataType := decEq

-- A column is found by its name, so columns in another order make another type.
example : row [("A", any), ("B", cursor)] ≠ row [("B", cursor), ("A", any)] := by decide

end SqlTyping.DataType
