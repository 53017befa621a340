import SqlTyping.Proofs.DataType.Likeness

namespace SqlTyping

/-!
# Types that allow more NULLs

* `DataType.loosens` — whether a type is another one with some parts made nullable;
* `DataType.Loosens` — the relation, `DataType.loosens_iff` what it says of the parts;
* `DataType.text_of_loosens` — such types have one spelling;
* `Likeness.loosening` — so they may stand for each other in the comparison of two validations.
-/

namespace DataType

mutual

/-- Whether the second type is the first one, but for parts that may be null in it only. -/
def loosens : DataType → DataType → Bool
  | ⟨name, nullable, precision, scale, fields, component⟩,
      ⟨name', nullable', precision', scale', fields', component'⟩ =>
    name' == name && (!nullable || nullable') && precision' == precision && scale' == scale &&
      fieldsLoosen fields fields' && componentLoosens component component'

/-- The same for columns, one by one. -/
def fieldsLoosen : List (Field DataType) → List (Field DataType) → Bool
  | [], [] => true
  | ⟨name, index, type⟩ :: rest, ⟨name', index', type'⟩ :: rest' =>
    name' == name && index' == index && loosens type type' && fieldsLoosen rest rest'
  | _, _ => false

/-- The same for element types. -/
def componentLoosens : Option DataType → Option DataType → Bool
  | none, none => true
  | some type, some type' => loosens type type'
  | _, _ => false

end

/-- The second type is the first one, with some parts made nullable. -/
def Loosens (a b : DataType) : Prop := a.loosens b = true

instance (a b : DataType) : Decidable (a.Loosens b) := inferInstanceAs (Decidable (_ = true))

theorem fieldsLoosen_iff {fs gs : List (Field DataType)} :
    fieldsLoosen fs gs = true ↔ List.Forall₂ (Field.Alike Loosens) fs gs := by
  induction fs generalizing gs with
  | nil => cases gs <;> simp [fieldsLoosen]
  | cons f fs ih =>
    cases gs with
    | nil => simp [fieldsLoosen]
    | cons g gs =>
      rw [List.forall₂_cons, ← ih]
      simp only [fieldsLoosen, Bool.and_eq_true, beq_iff_eq]
      exact ⟨fun ⟨⟨⟨hname, hindex⟩, htype⟩, hrest⟩ => ⟨⟨hname, hindex, htype⟩, hrest⟩,
        fun ⟨⟨hname, hindex, htype⟩, hrest⟩ => ⟨⟨⟨hname, hindex⟩, htype⟩, hrest⟩⟩

/-- Part by part: only nullability may differ, and only one way. -/
theorem loosens_iff {a b : DataType} : a.Loosens b ↔
    b.toTarget = a.toTarget ∧ (a.nullable = true → b.nullable = true) ∧
      List.Forall₂ (Field.Alike Loosens) a.fields b.fields ∧
        componentLoosens a.component b.component = true := by
  rw [← fieldsLoosen_iff]
  obtain ⟨name, nullable, precision, scale, fields, component⟩ := a
  obtain ⟨name', nullable', precision', scale', fields', component'⟩ := b
  have himp : (!nullable || nullable') = true ↔ (nullable = true → nullable' = true) := by
    cases nullable <;> simp
  simp only [Loosens, loosens, toTarget, Bool.and_eq_true, himp, beq_iff_eq, CastTarget.mk.injEq]
  tauto

/-! ### Reflexivity -/

mutual

theorem loosens_self : ∀ a : DataType, a.loosens a = true
  | ⟨_, _, _, _, fields, component⟩ => by
    simp [loosens, fieldsLoosen_self fields, componentLoosens_self component]

theorem fieldsLoosen_self : ∀ fields : List (Field DataType), fieldsLoosen fields fields = true
  | [] => rfl
  | ⟨_, _, type⟩ :: rest => by simp [fieldsLoosen, loosens_self type, fieldsLoosen_self rest]

theorem componentLoosens_self : ∀ component : Option DataType,
    componentLoosens component component = true
  | none => rfl
  | some type => loosens_self type

end

/-! ### Text -/

mutual

/-- Nullability is not spelled out. -/
theorem text_of_loosens : ∀ a b : DataType, a.loosens b = true → b.text = a.text
  | ⟨_, _, _, _, fields, component⟩, ⟨_, _, _, _, fields', component'⟩, h => by
    simp only [loosens, Bool.and_eq_true, beq_iff_eq] at h
    obtain ⟨⟨⟨⟨⟨rfl, -⟩, rfl⟩, rfl⟩, hfields⟩, hcomponent⟩ := h
    unfold text
    rw [fieldTexts_of_loosen fields fields' hfields,
      componentText_of_loosens component component' hcomponent]

theorem fieldTexts_of_loosen : ∀ fields fields' : List (Field DataType),
    fieldsLoosen fields fields' = true → fieldTexts fields' = fieldTexts fields
  | [], [], _ => rfl
  | ⟨_, _, type⟩ :: rest, ⟨_, _, type'⟩ :: rest', h => by
    simp only [fieldsLoosen, Bool.and_eq_true, beq_iff_eq] at h
    obtain ⟨⟨⟨rfl, -⟩, htype⟩, hrest⟩ := h
    unfold fieldTexts
    rw [text_of_loosens type type' htype, fieldTexts_of_loosen rest rest' hrest]

theorem componentText_of_loosens : ∀ component component' : Option DataType,
    componentLoosens component component' = true →
      componentText component' = componentText component
  | none, none, _ => rfl
  | some type, some type', h => by
    unfold componentText
    rw [text_of_loosens type type' h]

end

/-! ### Row types -/

/-- Numbered columns. -/
theorem numbered_loosen {cs ds : List (String × DataType)}
    (h : List.Forall₂ (fun c d => d.1 = c.1 ∧ c.2.Loosens d.2) cs ds) (start : Nat) :
    List.Forall₂ (Field.Alike Loosens) (numbered start cs) (numbered start ds) := by
  induction h generalizing start with
  | nil => exact .nil
  | cons hcd _ ih => exact .cons ⟨hcd.1, rfl, hcd.2⟩ (ih (start + 1))

end DataType

/-- Types are alike when the second one only allows more NULLs. -/
def Likeness.loosening : Likeness where
  types := DataType.Loosens
  flags m n := m = true → n = true
  refl := DataType.loosens_self
  target h := (DataType.loosens_iff.mp h).1
  text := DataType.text_of_loosens _ _
  fields h := (DataType.loosens_iff.mp h).2.2.1
  row h := DataType.loosens_iff.mpr ⟨rfl, id, DataType.numbered_loosen h 0, rfl⟩
  nullable h := (DataType.loosens_iff.mp h).2.1
  or hmn hmn' hm := by
    rcases Bool.or_eq_true_iff.mp hm with hm | hm
    · rw [hmn hm, Bool.true_or]
    · rw [hmn' hm, Bool.or_true]
  withNullable h hmn :=
    have ⟨htarget, _, hfields, hcomponent⟩ := DataType.loosens_iff.mp h
    DataType.loosens_iff.mpr ⟨htarget, hmn, hfields, hcomponent⟩

end SqlTyping
