import Mathlib.Logic.Basic
import SqlTyping.Call.Detached

namespace SqlTyping

/-!
# Conversion of the operands of a detached call

What a list of families decides about the operands of a call outside a statement, and what the
standard conversions make of them, in terms of the operands alone:

* `Operand.fits`, `Form.fits` — an operand, or all operands, are legal as they stand;
* `DetachedCall.callText`, `Operand.complaint` — the call as a refusal shows it, and the fault that an
  operand is refused with;
* `DetachedCall.checkOperand_eq` — what the check of one operand comes to;
* `Operand.target?`, `Operand.converted` — the cast that the standard conversions put around an
  operand at a position, and the operand after it;
* `Form.attempt` — a family list tried on operands: whether it accepts, the operands it leaves and
  the casts it records;
* `Trial.Describes` — what the end of a check has to do with a trial;
* `DetachedCall.describes_attempt` — the check of a family list is its attempt, for every call whose
  operands have types.
-/

namespace Operand

/-- Whether the operand has a type. -/
def isTyped : Operand → Bool
  | unresolved _ => false
  | _ => true

/-- The type of an operand that has one. -/
def knownType : Operand → DataType
  | typed type => type
  | null => .null
  | omitted | unresolved _ => .any

/-- Whether the operand is legal at a position as it stands. -/
def fits (coerces : Bool) (family : Family) (mayOmit : Bool) (o : Operand) : Bool :=
  if family = .ignore then true
  else
    match o with
    | omitted => mayOmit
    | null => if family = .any then true else coerces
    | typed type =>
      if family = .any then !decide (type.name = .cursor)
      else decide (Family.of? type.name = some .any) || family.accepts type.name
    | unresolved _ => false

/-- An operand in a call signature. -/
def text : Operand → String
  | typed type => s!"<{type.text}>"
  | null => s!"<{DataType.null.text}>"
  | omitted => "DEFAULT"
  | unresolved _ => "<?>"

/-- The fault with which an operand that does not fit is refused: a column that cannot be found and a
    NULL literal have one of their own, and the others come with that of the call. -/
def complaint (operator : String) (index : Nat) (refusal : Fault) : Operand → Fault
  | unresolved name => .columnNotFound name
  | null => .nullOperand operator index
  | typed _ | omitted => refusal

/-- The type in which the standard conversions wrap the operand at a position, if they do. -/
def target? (family : Family) : Operand → Option DataType
  | omitted | unresolved _ => none
  | null => implicitCast? .null family
  | typed type => implicitCast? type family

/-- The operand after the standard conversions. -/
def converted (family : Family) (o : Operand) : Operand :=
  match o.target? family with
  | some target => typed target
  | none => o

/-- An operand with a type has the known one. -/
theorem type_of_isTyped {o : Operand} (h : o.isTyped = true) : o.type = .ok o.knownType := by
  cases o with
  | unresolved name => simp [isTyped] at h
  | _ => rfl

/-- An operand with a type is refused with an operand fault. -/
theorem isOperandFault_complaint {operator : String} {index : Nat} {refusal : Fault} (o : Operand)
    (h : o.isTyped = true) (hrefusal : refusal.isOperandFault = true) :
    (o.complaint operator index refusal).isOperandFault = true := by
  cases o with
  | unresolved name => simp [isTyped] at h
  | null => rfl
  | typed type => exact hrefusal
  | omitted => exact hrefusal

/-- Conversion leaves no operand without a type. -/
theorem isTyped_converted {family : Family} {o : Operand} (h : o.isTyped = true) :
    (o.converted family).isTyped = true := by
  unfold converted
  split
  · rfl
  · exact h

/-- A converted operand fits the family it was converted for. -/
theorem fits_typed_of_target? {family : Family} {o : Operand} {target : DataType} {coerces m : Bool}
    (h : o.target? family = some target) : (typed target).fits coerces family m = true := by
  have hcast : ∃ source, implicitCast? source family = some target := by
    cases o with
    | omitted => simp [target?] at h
    | unresolved _ => simp [target?] at h
    | null => exact ⟨_, h⟩
    | typed type => exact ⟨_, h⟩
  obtain ⟨source, hs⟩ := hcast
  have ha := accepts_implicitCast? hs
  -- ANY has no conversion type, so the family lists the target by name.
  have hany : family ≠ .any := by
    rintro rfl
    unfold implicitCast? at hs
    split at hs
    · cases hs
    · simp [Family.target?] at hs
  simp [fits, hany, ha]

end Operand

/-! ### Checks that only decide -/

namespace Checking

variable {σ α : Type}

/-- The check leaves the state `s` as it is; it succeeds when `b` holds and stops with an operand
    fault otherwise. -/
def Decides (x : Checking σ Unit) (s : σ) (b : Bool) : Prop :=
  if b = true then x s = (.ok (), s)
  else ∃ e : Fault, e.isOperandFault = true ∧ x s = (.error e, s)

theorem decides_pure (s : σ) : (pure () : Checking σ Unit).Decides s true := by
  simp [Decides]

theorem Decides.of_eq {x y : Checking σ Unit} {s : σ} {b : Bool} (hxy : x s = y s)
    (h : y.Decides s b) : x.Decides s b := by
  unfold Decides at h ⊢
  rwa [hxy]

/-- A step that changes nothing can be taken first. -/
theorem Decides.bind {x : Checking σ α} {f : α → Checking σ Unit} {s : σ} {a : α} {b : Bool}
    (hx : x s = (.ok a, s)) (h : (f a).Decides s b) : (x >>= f).Decides s b := by
  unfold Decides at h ⊢
  rwa [bind_of_ok hx f]

/-- Two decisions in a row decide whether both hold. -/
theorem Decides.and {x y : Checking σ Unit} {s : σ} {b b' : Bool} (hx : x.Decides s b)
    (hy : y.Decides s b') : (x >>= fun _ => y).Decides s (b && b') := by
  cases b with
  | true => exact Decides.bind hx hy
  | false =>
    obtain ⟨e, he, hxe⟩ := hx
    exact ⟨e, he, bind_of_error hxe _⟩

/-- A check that changes nothing at every place of a list changes nothing along the list. -/
theorem mapM_of_forall {α β : Type} {f : α → Checking σ β} {g : α → β} {s : σ} {l : List α}
    (h : ∀ a ∈ l, f a s = (.ok (g a), s)) : l.mapM f s = (.ok (l.map g), s) := by
  induction l with
  | nil => simp
  | cons a rest ih =>
    rw [List.mapM_cons, bind_of_ok (h a (by simp)), bind_of_ok (ih fun b hb => h b (by simp [hb]))]
    rfl

end Checking

/-! ### One operand -/

namespace DetachedCall

/-- A call with the types of its operands. -/
def callText (operator : String) (os : List Operand) : String :=
  operator ++ "(" ++ ", ".intercalate (os.map Operand.text) ++ ")"

/-- The fault of a call with an operand of a wrong type. -/
def refusal (operator : String) (positions : List Family) (os : List Operand) : Fault :=
  .signatureMismatch operator (callText operator os) (quotedForm operator positions)

variable {operator : String} {coerces : Bool} {engine : CoercionEngine}

@[simp] theorem view_operator : (view operator coerces engine).operator = operator := rfl

@[simp] theorem view_coerces : (view operator coerces engine).coerces = coerces := rfl

@[simp] theorem view_isNull : (view operator coerces engine).isNull = isNull := rfl

@[simp] theorem view_isDefault : (view operator coerces engine).isDefault = isDefault := rfl

@[simp] theorem view_typeOf : (view operator coerces engine).typeOf = typeOf := rfl

@[simp] theorem view_count (s : DetachedCall) :
    (view operator coerces engine).count s = s.operands.length := rfl

variable (operator coerces engine)

/-- A call is written down with the types of its operands, and not changed. -/
theorem signatureText_view (s : DetachedCall) :
    (view operator coerces engine).signatureText s = (.ok (callText operator s.operands), s) := by
  have hone : ∀ index ∈ List.range s.operands.length, (view operator coerces engine).operandText
      index s = (.ok ((s.operands.map Operand.text).getD index ""), s) := by
    intro index hi
    have hi : index < s.operands.length := List.mem_range.mp hi
    unfold CallView.operandText
    cases ho : s.operands[index] <;> simp [isDefault, typeOf, Operand.type, Operand.text, hi, ho]
  have htexts : (List.range s.operands.length).map
      (fun index => (s.operands.map Operand.text).getD index "") = s.operands.map Operand.text := by
    apply List.ext_getElem
    · simp
    · intro index h _
      have hi : index < s.operands.length := by simpa using h
      simp [hi]
  unfold CallView.signatureText
  rw [Checking.bind_of_ok (Checking.state_apply s), view_count,
    Checking.bind_of_ok (Checking.mapM_of_forall hone), htexts]
  rfl

/-- A call is refused with the types that its operands have, and left as it was. -/
theorem mismatch_view {α : Type} (allowed : String) (s : DetachedCall) :
    ((view operator coerces engine).mismatch allowed : Checking DetachedCall α) s =
      (.error (.signatureMismatch operator (callText operator s.operands) allowed), s) := by
  unfold CallView.mismatch
  rw [Checking.bind_of_ok (signatureText_view operator coerces engine s)]
  rfl

/-- One operand is accepted when it fits; otherwise the call stops with the complaint about it. -/
theorem checkOperand_eq {positions : List Family} {omittable : Nat → Bool} {index : Nat}
    {family : Family} {s : DetachedCall} {o : Operand} (hs : s.operands[index]? = some o) :
    Signature.checkOperand (view operator coerces engine) positions omittable index family s =
      if o.fits coerces family (omittable index) = true then (.ok (), s)
      else (.error (o.complaint operator index (refusal operator positions s.operands)), s) := by
  have hrefuse : ((view operator coerces engine).mismatch (quotedForm operator positions) :
      Checking DetachedCall Unit) s = (.error (refusal operator positions s.operands), s) :=
    mismatch_view operator coerces engine (quotedForm operator positions) s
  by_cases hi : family = .ignore
  · subst hi
    rw [Signature.checkOperand_ignore]
    cases o <;> rfl
  cases o with
  | unresolved name =>
    have hd : isDefault s index = false := by simp [isDefault, hs]
    have hn : isNull s index = false := by simp [isNull, hs]
    have ht : typeOf index s = (.error (.columnNotFound name), s) := by
      simp [typeOf, hs, Operand.type]
    by_cases ha : family = .any
    · subst ha
      rw [Signature.checkOperand_any hd, view_typeOf, Checking.bind_of_error ht]
      rfl
    · rw [Signature.checkOperand_of_written hi ha hd hn, view_typeOf, Checking.bind_of_error ht]
      simp [Operand.fits, Operand.complaint, hi]
  | omitted =>
    have hd : isDefault s index = true := by simp [isDefault, hs]
    rw [Signature.checkOperand_of_omitted hi hd]
    cases hm : omittable index
    · simpa [Operand.fits, Operand.complaint, hi] using hrefuse
    · simp [Operand.fits, hi]
  | null =>
    have hd : isDefault s index = false := by simp [isDefault, hs]
    have hn : isNull s index = true := by simp [isNull, hs]
    have ht : typeOf index s = (.ok .null, s) := by simp [typeOf, hs, Operand.type]
    by_cases ha : family = .any
    -- ANY asks for the type of NULL, which is no CURSOR.
    · subst ha
      rw [Signature.checkOperand_any hd, view_typeOf, Checking.bind_of_ok ht]
      rfl
    · rw [Signature.checkOperand_of_null hi ha hd hn]
      cases coerces <;> simp [Operand.fits, Operand.complaint, hi, ha]
  | typed type =>
    have hd : isDefault s index = false := by simp [isDefault, hs]
    have hn : isNull s index = false := by simp [isNull, hs]
    have ht : typeOf index s = (.ok type, s) := by simp [typeOf, hs, Operand.type]
    by_cases ha : family = .any
    · subst ha
      rw [Signature.checkOperand_any hd, view_typeOf, Checking.bind_of_ok ht]
      by_cases hcur : type.name = .cursor
      · simpa [hcur, Operand.fits, Operand.complaint] using hrefuse
      · simp [hcur, Operand.fits]
    · rw [Signature.checkOperand_of_written hi ha hd hn, view_typeOf, Checking.bind_of_ok ht]
      by_cases hfits : type.name = .any ∨ family.accepts type.name = true
      · simp [Operand.fits, Family.of?_eq_any_iff, hi, ha, hfits]
      · simpa [Operand.fits, Operand.complaint, Family.of?_eq_any_iff, hi, ha, hfits] using hrefuse

/-- One operand is checked by looking whether it fits. -/
theorem decides_checkOperand {positions : List Family} {omittable : Nat → Bool} {index : Nat}
    {family : Family} {s : DetachedCall} {o : Operand} (hs : s.operands[index]? = some o)
    (ho : o.isTyped = true) :
    (Signature.checkOperand (view operator coerces engine) positions omittable index
      family).Decides s (o.fits coerces family (omittable index)) := by
  have hcheck : Signature.checkOperand (view operator coerces engine) positions omittable index
      family s = _ := checkOperand_eq operator coerces engine hs
  cases hfits : o.fits coerces family (omittable index) with
  | true =>
    rw [hfits, if_pos rfl] at hcheck
    exact hcheck
  | false =>
    rw [hfits, if_neg (by simp)] at hcheck
    exact ⟨_, o.isOperandFault_complaint ho rfl, hcheck⟩

end DetachedCall

/-! ### A list of families -/

/-- A list of families with the positions that may be omitted. -/
structure Form where
  positions : List Family
  omittable : Nat → Bool

/-- What trying signatures on operands comes to: whether one accepts, the operands as they are left,
    and the casts recorded on the way. -/
structure Trial where
  accepted : Bool
  operands : List Operand
  casts : List (Nat × DataType)
  deriving DecidableEq

/-- A check that was started on `s` ended as the trial says. It answers `true` when the trial
    accepts, and otherwise answers `false` or stops with an operand fault; in every case it leaves
    the operands of the trial and has recorded its casts after the earlier ones. -/
def Trial.Describes (t : Trial) (s : DetachedCall) (r : Except Fault Bool × DetachedCall) : Prop :=
  r.2.operands = t.operands ∧ r.2.casts = s.casts ++ t.casts ∧
    if t.accepted = true then r.1 = .ok true
    else r.1 = .ok false ∨ ∃ e : Fault, e.isOperandFault = true ∧ r.1 = .error e

namespace Form

/-- The signature that asks for the families. -/
def signature (f : Form) : Signature := .families f.positions f.omittable

/-- Whether operands fit families one by one; the first one stands at place `start`. -/
def fitsFrom (coerces : Bool) (omittable : Nat → Bool) :
    Nat → List Family → List Operand → Bool
  | start, family :: rest, o :: os =>
    o.fits coerces family (omittable start) && fitsFrom coerces omittable (start + 1) rest os
  | _, [], [] => true
  | _, _, _ => false

/-- Whether operands fit the form as they stand. -/
def fits (coerces : Bool) (f : Form) (os : List Operand) : Bool :=
  fitsFrom coerces f.omittable 0 f.positions os

/-- The casts of the standard conversions, left to right; the first operand stands at `start`. -/
def castsFrom : Nat → List Family → List Operand → List (Nat × DataType)
  | start, family :: rest, o :: os =>
    match o.target? family with
    | some target => (start, target) :: castsFrom (start + 1) rest os
    | none => castsFrom (start + 1) rest os
  | _, _, _ => []

/-- Operands after the standard conversions, one by one. -/
def convertAll (families : List Family) (os : List Operand) : List Operand :=
  List.zipWith Operand.converted families os

/-- The form tried on operands: a form of another length leaves them alone, and so does one that they
    fit; otherwise they are converted, whether or not they fit afterwards. -/
def attempt (f : Form) (os : List Operand) : Trial :=
  if f.positions.length ≠ os.length then ⟨false, os, []⟩
  else if f.fits true os then ⟨true, os, []⟩
  else ⟨f.fits true (convertAll f.positions os), convertAll f.positions os,
    castsFrom 0 f.positions os⟩

/-- Operands that fit are as many as the families. -/
theorem length_eq_of_fitsFrom {coerces : Bool} {omittable : Nat → Bool} {start : Nat}
    {families : List Family} {os : List Operand}
    (h : fitsFrom coerces omittable start families os = true) : families.length = os.length := by
  induction families generalizing start os with
  | nil =>
    cases os with
    | nil => rfl
    | cons o os => simp [fitsFrom] at h
  | cons family rest ih =>
    cases os with
    | nil => simp [fitsFrom] at h
    | cons o os =>
      simp only [fitsFrom, Bool.and_eq_true] at h
      simp [ih h.2]

/-- Conversion keeps the number of operands. -/
theorem length_convertAll {families : List Family} {os : List Operand}
    (h : families.length = os.length) : (convertAll families os).length = os.length := by
  simp [convertAll, h]

/-- Conversion leaves no operand without a type. -/
theorem isTyped_convertAll {families : List Family} {os : List Operand}
    (h : ∀ o ∈ os, o.isTyped = true) : ∀ o ∈ convertAll families os, o.isTyped = true := by
  intro o ho
  obtain ⟨i, hi, rfl⟩ := List.getElem_of_mem ho
  simp only [convertAll, List.getElem_zipWith]
  exact Operand.isTyped_converted (h _ (List.getElem_mem _))

/-- Without a cast there is nothing to convert. -/
theorem convertAll_of_castsFrom_eq_nil {start : Nat} {families : List Family} {os : List Operand}
    (hl : families.length = os.length) (h : castsFrom start families os = []) :
    convertAll families os = os := by
  induction families generalizing start os with
  | nil =>
    cases os with
    | nil => rfl
    | cons o os => simp at hl
  | cons family rest ih =>
    cases os with
    | nil => simp at hl
    | cons o os =>
      cases ht : o.target? family with
      | some target => simp [castsFrom, ht] at h
      | none =>
        simp only [castsFrom, ht] at h
        have := ih (by simpa using hl) h
        simpa [convertAll, Operand.converted, ht] using this

end Form

/-! ### The check of a list of families -/

namespace DetachedCall

open Form

variable {operator : String} {coerces : Bool} {engine : CoercionEngine}

/-- The rest of a list from a place on starts with the element at that place. -/
theorem getElem?_of_drop {os rest : List Operand} {start : Nat} {o : Operand}
    (h : os.drop start = o :: rest) : os[start]? = some o ∧ os.drop (start + 1) = rest := by
  constructor
  · have := congrArg (·[0]?) h
    simpa using this
  · rw [← List.tail_drop, h]
    rfl

/-- All operands are checked by looking whether they fit. -/
theorem decides_checkFrom {positions families : List Family} {omittable : Nat → Bool} {start : Nat}
    {s : DetachedCall} {os : List Operand} (hs : s.operands.drop start = os)
    (hl : families.length = os.length) (ht : ∀ o ∈ os, o.isTyped = true) :
    (Signature.checkFrom (view operator coerces engine) positions omittable start families).Decides
      s (fitsFrom coerces omittable start families os) := by
  induction families generalizing start os with
  | nil =>
    cases os with
    | nil => exact Checking.decides_pure s
    | cons o os => simp at hl
  | cons family rest ih =>
    cases os with
    | nil => simp at hl
    | cons o os =>
      obtain ⟨ho, hrest⟩ := getElem?_of_drop hs
      exact Checking.Decides.and (decides_checkOperand operator coerces engine ho (ht o (by simp)))
        (ih hrest (by simpa using hl) fun o' ho' => ht o' (by simp [ho']))

variable (operator coerces engine) {f : Form} {s : DetachedCall}

/-- All operands of a call are checked against a form of the right length by looking whether they
    fit. -/
theorem decides_checkAll (hl : f.positions.length = s.operands.length)
    (ht : ∀ o ∈ s.operands, o.isTyped = true) :
    (Signature.checkAll (view operator coerces engine) f.positions f.omittable).Decides s
      (f.fits coerces s.operands) :=
  decides_checkFrom (by simp) hl ht

/-- A form of another length is not for the call. -/
theorem familiesStrict_of_length_ne (hl : f.positions.length ≠ s.operands.length) :
    Signature.familiesStrict (view operator coerces engine) f.positions f.omittable s =
      (.ok false, s) := by
  unfold Signature.familiesStrict
  rw [Checking.bind_of_ok (Checking.state_apply s), view_count, if_neg hl]
  rfl

/-- As a trial that hides operand faults, the check as written says whether the operands fit. -/
theorem tolerant_familiesStrict (ht : ∀ o ∈ s.operands, o.isTyped = true) :
    (Signature.familiesStrict (view operator coerces engine) f.positions f.omittable).tolerant s =
      (.ok (f.fits coerces s.operands), s) := by
  by_cases hl : f.positions.length = s.operands.length
  · have hd := decides_checkAll operator coerces engine hl ht
    have hstrict : Signature.familiesStrict (view operator coerces engine) f.positions f.omittable s
        = ((Signature.checkAll (view operator coerces engine) f.positions f.omittable >>=
            fun _ => pure true) : Checking DetachedCall Bool) s := by
      unfold Signature.familiesStrict
      rw [Checking.bind_of_ok (Checking.state_apply s), view_count, if_pos hl]
    rw [Checking.tolerant, hstrict]
    cases hf : f.fits coerces s.operands
    · rw [hf] at hd
      obtain ⟨e, he, hx⟩ := hd
      simp [Checking.bind_of_error hx, he]
    · rw [hf] at hd
      rw [Checking.bind_of_ok hd]
      rfl
  · have hf : f.fits coerces s.operands = false := by
      cases h : f.fits coerces s.operands with
      | false => rfl
      | true => exact absurd (length_eq_of_fitsFrom h) hl
    rw [Checking.tolerant, familiesStrict_of_length_ne operator coerces engine hl, hf]

/-! ### The standard conversions on a call -/

/-- The types of the operands are read without changing the call. -/
theorem types_view (ht : ∀ o ∈ s.operands, o.isTyped = true) :
    (view operator coerces engine).types s = (.ok (s.operands.map Operand.knownType), s) := by
  have hone : ∀ i ∈ List.range s.operands.length,
      typeOf i s = (.ok ((s.operands.map Operand.knownType).getD i .any), s) := by
    intro i hi
    have hi : i < s.operands.length := List.mem_range.mp hi
    have ho := Operand.type_of_isTyped (ht _ (List.getElem_mem hi))
    simp [typeOf, hi, ho]
  unfold CallView.types
  rw [Checking.bind_of_ok (Checking.state_apply s), view_count, view_typeOf,
    Checking.mapM_of_forall hone]
  congr 2
  apply List.ext_getElem
  · simp
  · intro i h _
    have hi : i < s.operands.length := by simpa using h
    simp [hi]

/-- The standard conversions take one operand: it is passed over, or wrapped in the cast that fits
    it. -/
theorem run_implicitCasts_cons {o : Operand} {family : Family} {index : Nat} {converted : Bool}
    {rest : List (DataType × Family)} (hs : s.operands[index]? = some o) (ho : o.isTyped = true) :
    (CoercionPlan.implicitCasts index converted ((o.knownType, family) :: rest)).run
        (view operator coerces engine) s =
      match o.target? family with
      | none => (CoercionPlan.implicitCasts (index + 1) converted rest).run
          (view operator coerces engine) s
      | some target => (CoercionPlan.implicitCasts (index + 1) true rest).run
          (view operator coerces engine)
          { s with
            operands := s.operands.set index (.typed target)
            casts := s.casts ++ [(index, target)] } := by
  have hlt : index < s.operands.length := (List.getElem?_eq_some_iff.mp hs).1
  simp only [CoercionPlan.implicitCasts, CoercionPlan.run, view_isDefault]
  cases o with
  | unresolved name => simp [Operand.isTyped] at ho
  | omitted =>
    have hd : isDefault s index = true := by simp [isDefault, hs]
    simp [hd, Operand.target?]
  | null =>
    have hd : isDefault s index = false := by simp [isDefault, hs]
    cases hc : implicitCast? .null family with
    | none => simp [hd, hc, Operand.target?, Operand.knownType]
    | some target =>
      simp [hd, hc, Operand.target?, Operand.knownType, CoercionPlan.run, view, castTo, hlt]
  | typed type =>
    have hd : isDefault s index = false := by simp [isDefault, hs]
    cases hc : implicitCast? type family with
    | none => simp [hd, hc, Operand.target?, Operand.knownType]
    | some target =>
      simp [hd, hc, Operand.target?, Operand.knownType, CoercionPlan.run, view, castTo, hlt]

/-- The standard conversions, run on the operands after `done`, convert each of them and record the
    casts. -/
theorem run_implicitCasts {families : List Family} {os : List Operand} (done : List Operand)
    (converted : Bool) (casts : List (Nat × DataType)) (requests : List CoercionRequest)
    (hl : families.length = os.length) (ht : ∀ o ∈ os, o.isTyped = true) :
    (CoercionPlan.implicitCasts done.length converted
        ((os.map Operand.knownType).zip families)).run (view operator coerces engine)
        ⟨done ++ os, casts, requests⟩ =
      (.ok (!(castsFrom done.length families os).isEmpty || converted),
        ⟨done ++ convertAll families os, casts ++ castsFrom done.length families os,
          requests⟩) := by
  induction families generalizing done os converted casts with
  | nil =>
    cases os with
    | nil => simp [CoercionPlan.implicitCasts, CoercionPlan.run, castsFrom, convertAll]
    | cons o os => simp at hl
  | cons family rest ih =>
    cases os with
    | nil => simp at hl
    | cons o os =>
      have hrest : rest.length = os.length := by simpa using hl
      have htyped : ∀ o ∈ os, o.isTyped = true := fun o' ho' => ht o' (by simp [ho'])
      simp only [List.map_cons, List.zip_cons_cons]
      rw [run_implicitCasts_cons operator coerces engine (s := ⟨done ++ o :: os, casts, requests⟩)
        (by simp) (ht o (by simp))]
      cases hto : o.target? family with
      | none =>
        -- `o` joins the operands that are already passed, as it is.
        have hstep := ih (done ++ [o]) converted casts hrest htyped
        simp only [List.length_append, List.length_singleton, List.append_assoc,
          List.singleton_append] at hstep
        simpa [castsFrom, convertAll, Operand.converted, hto] using hstep
      | some target =>
        -- `o` joins them as the operand that the cast makes of it.
        have hstep := ih (done ++ [.typed target]) true (casts ++ [(done.length, target)]) hrest
          htyped
        simp only [List.length_append, List.length_singleton, List.append_assoc,
          List.singleton_append] at hstep
        simpa [castsFrom, convertAll, Operand.converted, hto] using hstep

/-- A call after the standard conversions: the operands converted, the casts recorded, and the request
    noted with the call as it was. -/
def afterCasts (operator : String) (positions : List Family) (s : DetachedCall) : DetachedCall where
  operands := convertAll positions s.operands
  casts := s.casts ++ castsFrom 0 positions s.operands
  requests := s.requests ++
    [⟨callText operator s.operands, s.operands.map Operand.knownType, positions⟩]

@[simp] theorem operands_afterCasts (positions : List Family) (s : DetachedCall) :
    (s.afterCasts operator positions).operands = convertAll positions s.operands := rfl

@[simp] theorem casts_afterCasts (positions : List Family) (s : DetachedCall) :
    (s.afterCasts operator positions).casts = s.casts ++ castsFrom 0 positions s.operands := rfl

/-- The engine with the standard conversions converts every operand, records the casts and reports
    whether there is one. -/
theorem coerce_implicitCasts (hl : f.positions.length = s.operands.length)
    (ht : ∀ o ∈ s.operands, o.isTyped = true) :
    (view operator coerces .implicitCasts).coerce (s.operands.map Operand.knownType) f.positions s =
      (.ok (!(castsFrom 0 f.positions s.operands).isEmpty), s.afterCasts operator f.positions) := by
  have hrun := run_implicitCasts operator coerces .implicitCasts [] false s.casts
    (s.requests ++ [⟨callText operator s.operands, s.operands.map Operand.knownType, f.positions⟩])
    hl ht
  simp only [List.nil_append, List.length_nil, Bool.or_false] at hrun
  unfold CallView.coerce
  rw [Checking.bind_of_ok (signatureText_view operator coerces .implicitCasts s),
    Checking.bind_of_ok (Checking.update_apply _ s)]
  exact hrun

/-- The check of a form, with the standard conversions, is its attempt on the operands. -/
theorem describes_attempt (ht : ∀ o ∈ s.operands, o.isTyped = true) :
    (f.attempt s.operands).Describes s
      (f.signature.check (view operator true .implicitCasts) s) := by
  unfold Form.signature Signature.check Signature.familiesCheck Form.attempt
  rw [Checking.bind_of_ok (Checking.state_apply s), view_count]
  by_cases hl : f.positions.length = s.operands.length
  · rw [if_pos hl, if_neg (not_not.mpr hl),
      Checking.bind_of_ok (tolerant_familiesStrict operator true .implicitCasts (f := f) ht)]
    cases hf : f.fits true s.operands with
    | true => exact ⟨rfl, by simp, rfl⟩
    | false =>
      have hcoerce := coerce_implicitCasts operator true hl ht
      -- What is left is the second look at the operands, now converted.
      have hagain : (Signature.checkAll (view operator true .implicitCasts) f.positions
          f.omittable).Decides (s.afterCasts operator f.positions)
            (f.fits true (convertAll f.positions s.operands)) :=
        decides_checkAll operator true .implicitCasts (hl.trans (length_convertAll hl).symm)
          (isTyped_convertAll ht)
      simp only [Bool.false_eq_true, if_false, view_coerces, if_true]
      rw [Checking.bind_of_ok (types_view operator true .implicitCasts ht), Checking.bind_of_ok hcoerce]
      cases hc : f.fits true (convertAll f.positions s.operands) with
      | true =>
        rw [hc] at hagain
        rw [Checking.bind_of_ok hagain]
        -- Operands that fit now and did not before have been converted.
        have hne : castsFrom 0 f.positions s.operands ≠ [] := by
          intro hnil
          rw [convertAll_of_castsFrom_eq_nil hl hnil, hf] at hc
          cases hc
        refine ⟨rfl, rfl, ?_⟩
        simp [hne]
      | false =>
        rw [hc] at hagain
        obtain ⟨e, he, hx⟩ := hagain
        rw [Checking.bind_of_error hx]
        exact ⟨rfl, rfl, .inr ⟨e, he, rfl⟩⟩
  · rw [if_neg hl, if_pos hl]
    exact ⟨rfl, by simp, .inl rfl⟩

end DetachedCall

end SqlTyping
