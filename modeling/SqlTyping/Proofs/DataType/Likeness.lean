import Mathlib.Data.List.Forall2
import SqlTyping.Operator

namespace SqlTyping

/-!
# Types that count as alike

Two validations of one statement are compared by a relation between the types that they find. It is
respected by everything that validation does with types:

* `AnswersAlike` — answers with related results or the same fault;
* `Likeness` — such a relation between types, with the relation between nullabilities that it implies;
* `Likeness.equality` — types are alike only when they are the same;
* `Likeness.field?`, `Likeness.renameFields?` — columns of alike row types are alike;
* `Likeness.infer` — return rules give alike types.
-/

/-- Two answers with results that `Q` relates, or with the same fault. -/
inductive AnswersAlike {α β : Type} (Q : α → β → Prop) : Except Fault α → Except Fault β → Prop
  | ok {a b} (h : Q a b) : AnswersAlike Q (.ok a) (.ok b)
  | error (e : Fault) : AnswersAlike Q (.error e) (.error e)

/-- Related results, put to the same use. -/
theorem AnswersAlike.map {α β γ δ : Type} {Q : α → β → Prop} {P : γ → δ → Prop}
    {r : Except Fault α} {r' : Except Fault β} {f : α → γ} {g : β → δ} (h : AnswersAlike Q r r')
    (hfg : ∀ a b, Q a b → P (f a) (g b)) : AnswersAlike P (r.map f) (r'.map g) := by
  cases h with
  | ok hab => exact .ok (hfg _ _ hab)
  | error e => exact .error e

/-- Entries at the same place are related. -/
theorem getElem?_of_forall₂ {α β : Type} {R : α → β → Prop} {l : List α} {l' : List β}
    (h : List.Forall₂ R l l') (index : Nat) : Option.Rel R l[index]? l'[index]? := by
  induction h generalizing index with
  | nil => exact .none
  | cons hab _ ih =>
    cases index with
    | zero => exact .some hab
    | succ index => exact ih index

/-- Columns of the same name and number with related types. -/
structure Field.Alike (T : DataType → DataType → Prop) (f g : Field DataType) : Prop where
  name : g.name = f.name
  index : g.index = f.index
  type : T f.type g.type

/-- When two types count as alike, and two nullabilities. Types that are alike have the same name, the
    same arguments and the same text, their columns are alike, and so is what is made of them. -/
structure Likeness where
  types : DataType → DataType → Prop
  flags : Bool → Bool → Prop
  refl : ∀ a, types a a
  target : ∀ {a b}, types a b → b.toTarget = a.toTarget
  text : ∀ {a b}, types a b → b.text = a.text
  fields : ∀ {a b}, types a b → List.Forall₂ (Field.Alike types) a.fields b.fields
  row : ∀ {cs ds : List (String × DataType)},
    List.Forall₂ (fun c d => d.1 = c.1 ∧ types c.2 d.2) cs ds → types (.row cs) (.row ds)
  nullable : ∀ {a b}, types a b → flags a.nullable b.nullable
  or : ∀ {m n m' n'}, flags m n → flags m' n' → flags (m || m') (n || n')
  withNullable : ∀ {a b m n}, types a b → flags m n → types (a.withNullable m) (b.withNullable n)

/-- Every type is like itself only. -/
def Likeness.equality : Likeness where
  types := Eq
  flags := Eq
  refl _ := rfl
  target := by
    rintro a _ rfl
    rfl
  text := by
    rintro a _ rfl
    rfl
  fields := by
    rintro a _ rfl
    exact List.forall₂_same.mpr fun f _ => ⟨rfl, rfl, rfl⟩
  row := by
    intro cs ds h
    have heq : List.Forall₂ Eq cs ds := h.imp fun c d hcd => Prod.ext hcd.1.symm hcd.2
    rw [List.forall₂_eq_eq_eq] at heq
    rw [heq]
  nullable := by
    rintro a _ rfl
    rfl
  or := by
    rintro m _ m' _ rfl rfl
    rfl
  withNullable := by
    rintro a _ m _ rfl rfl
    rfl

namespace Likeness

variable (L : Likeness) {a b : DataType} {types types' : List DataType}

theorem flags_refl (n : Bool) : L.flags n n := L.nullable (L.refl (DataType.any.withNullable n))

variable {L}

theorem name (h : L.types a b) : b.name = a.name := congrArg CastTarget.name (L.target h)

/-- A type is made nullable. -/
theorem orNullable {m n : Bool} (h : L.types a b) (hmn : L.flags m n) :
    L.types (a.orNullable m) (b.orNullable n) :=
  L.withNullable h (L.or (L.nullable h) hmn)

/-- Casts to the same target. -/
theorem ofTarget {m n : Bool} (hmn : L.flags m n) (target : CastTarget) :
    L.types (.ofTarget target m) (.ofTarget target n) :=
  L.withNullable (L.refl (.ofTarget target m)) hmn

/-! ### Columns -/

theorem fieldCount (h : L.types a b) : b.fieldCount = a.fieldCount := (L.fields h).length_eq.symm

/-- A column is found by its name under both types. -/
theorem field? (h : L.types a b) (name : String) (caseSensitive : Bool) :
    Option.Rel (Field.Alike L.types) (a.field? name caseSensitive) (b.field? name caseSensitive) := by
  have hfields := L.fields h
  unfold DataType.field?
  generalize a.fields = fs, b.fields = gs at hfields
  induction hfields with
  | nil => exact .none
  | @cons f g _ _ hfg _ ih =>
    rw [List.find?_cons, List.find?_cons, hfg.name]
    split
    · exact .some hfg
    · exact ih

/-- The columns get the same names. -/
theorem renameFields? (h : L.types a b) (names : List String) :
    Option.Rel L.types (a.renameFields? names) (b.renameFields? names) := by
  have hfields := L.fields h
  unfold DataType.renameFields?
  rw [hfields.length_eq]
  split
  · refine .some (L.row ?_)
    rename_i hnames
    clear hnames
    generalize a.fields = fs, b.fields = gs at hfields
    induction hfields generalizing names with
    | nil =>
      rw [List.zipWith_nil_right]
      exact .nil
    | cons hfg _ ih =>
      cases names with
      | nil => exact .nil
      | cons name names => exact .cons ⟨rfl, hfg.type⟩ (ih names)
  · exact .none

/-! ### Calls -/

/-- Whether some operand may be null. -/
theorem any_nullable (h : List.Forall₂ L.types types types') :
    L.flags (types.any (·.nullable)) (types'.any (·.nullable)) := by
  induction h with
  | nil => exact L.flags_refl false
  | cons hab _ ih => exact L.or (L.nullable hab) ih

/-- A return rule gives alike types for operands of alike types. -/
theorem infer (h : List.Forall₂ L.types types types') (rule : ReturnRule) :
    AnswersAlike L.types (rule.infer types) (rule.infer types') := by
  induction rule with
  | fixed type => exact .ok (L.refl type)
  | fixedNullable type => exact .ok (L.orNullable (L.refl type) (any_nullable h))
  | operand index =>
    unfold ReturnRule.infer
    rw [h.length_eq]
    have hoperand := getElem?_of_forall₂ h index
    generalize types[index]? = operand, types'[index]? = operand' at hoperand
    cases hoperand with
    | none => exact .error _
    | some hab => exact .ok (L.withNullable hab (any_nullable h))
  | nullable rule ih => exact ih.map fun a b hab => L.withNullable hab (L.flags_refl true)

end Likeness

end SqlTyping
