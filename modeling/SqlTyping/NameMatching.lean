import SqlTyping.Text.Case

namespace SqlTyping

/-!
# Matching of names

* `NameMatching` — which parts of names match; `exact` and `ignoringCase`, for the case of ASCII
  letters, are the two that settings choose from;
* `NameMatching.sameAll`, `leads` — matching of whole names, and of a name with the leading parts of
  another.
-/

/-- How names are compared. -/
structure NameMatching where
  /-- Whether upper and lower case differ. -/
  isCaseSensitive : Bool
  /-- Whether two parts match. -/
  same : String → String → Bool

namespace NameMatching

/-- Parts match when they are equal. -/
def exact : NameMatching := ⟨true, (· == ·)⟩

/-- Parts match when they are equal up to the case of ASCII letters. -/
def ignoringCase : NameMatching := ⟨false, Text.sameIgnoringCase⟩

/-- The comparison for a case setting. -/
def ofCaseSensitive (caseSensitive : Bool) : NameMatching :=
  if caseSensitive then exact else ignoringCase

@[simp] theorem isCaseSensitive_ofCaseSensitive (b : Bool) :
    (ofCaseSensitive b).isCaseSensitive = b := by
  cases b <;> rfl

/-- Whether two names match part by part. -/
def sameAll (m : NameMatching) : List String → List String → Bool
  | [], [] => true
  | a :: as, b :: bs => m.same a b && m.sameAll as bs
  | _, _ => false

/-- Whether a name matches the leading parts of another. -/
def leads (m : NameMatching) : List String → List String → Bool
  | [], _ => true
  | a :: as, b :: bs => m.same a b && m.leads as bs
  | _ :: _, [] => false

/-- Names that match have equally many parts. -/
theorem length_eq_of_sameAll {m : NameMatching} {a b : List String} (h : m.sameAll a b = true) :
    a.length = b.length := by
  induction a generalizing b with
  | nil => cases b <;> simp_all [sameAll]
  | cons x xs ih =>
    cases b with
    | nil => simp [sameAll] at h
    | cons y ys =>
      simp only [sameAll, Bool.and_eq_true] at h
      simp [ih h.2]

/-- Matching the leading parts is matching as many parts as the first name has. -/
theorem leads_iff {m : NameMatching} {a b : List String} :
    m.leads a b = true ↔ a.length ≤ b.length ∧ m.sameAll a (b.take a.length) = true := by
  induction a generalizing b with
  | nil => simp [leads, sameAll]
  | cons x xs ih =>
    cases b with
    | nil => simp [leads]
    | cons y ys => simp [leads, sameAll, ih, and_left_comm]

end NameMatching

end SqlTyping
