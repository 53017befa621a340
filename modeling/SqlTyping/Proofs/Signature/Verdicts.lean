import SqlTyping.Proofs.Signature.Conversion

namespace SqlTyping

/-!
# The check of a list of families, run to its end

What the check of a list of families comes to on any call outside a statement with the standard engine,
operands without a type included:

* `Form.verdict` — the operands are looked at in order, and the first one that does not fit stops the
  call with its complaint;
* `DetachedCall.checkAll_eq`, `DetachedCall.familiesStrict_eq` — the check of a call as written is the
  verdict on its operands;
* `DetachedCall.familiesCheck_of_accepted`, `DetachedCall.familiesCheck_of_fault`,
  `DetachedCall.familiesCheck_of_untyped`, `DetachedCall.familiesCheck_of_typed` — the whole check: it
  ends with the first verdict, or with the second one, on the converted operands.
-/

/-- The first operand whose type is missing is a column that cannot be found. -/
theorem Operand.mapM_type_of_untyped {os : List Operand}
    (ht : ¬ ∀ o ∈ os, o.isTyped = true) :
    ∃ name, os.mapM Operand.type = .error (.columnNotFound name) := by
  induction os with
  | nil => exact absurd (by simp) ht
  | cons o rest ih =>
    rw [List.mapM_cons]
    by_cases ho : o.isTyped = true
    · have hrest : ¬ ∀ o' ∈ rest, o'.isTyped = true := by
        intro hrest
        exact ht fun o' ho' => (List.mem_cons.mp ho').elim (fun h => h ▸ ho) (hrest o')
      obtain ⟨name, hname⟩ := ih hrest
      refine ⟨name, ?_⟩
      rw [Operand.type_of_isTyped ho, hname]
      rfl
    · cases o with
      | unresolved name => exact ⟨name, rfl⟩
      | _ => exact absurd rfl ho

namespace Form

/-- The operands from `start` on, one after the other: the first one that does not fit its family stops
    with its complaint. -/
def verdictFrom (operator : String) (coerces : Bool) (refusal : Fault) (omittable : Nat → Bool) :
    Nat → List Family → List Operand → Except Fault Unit
  | start, family :: rest, o :: os =>
    if o.fits coerces family (omittable start) then
      verdictFrom operator coerces refusal omittable (start + 1) rest os
    else .error (o.complaint operator start refusal)
  | _, _, _ => .ok ()

/-- The verdict on the operands of a call. -/
def verdict (operator : String) (coerces : Bool) (f : Form) (os : List Operand) :
    Except Fault Unit :=
  verdictFrom operator coerces (DetachedCall.refusal operator f.positions os) f.omittable 0
    f.positions os

variable {operator : String} {coerces : Bool} {refusal : Fault} {omittable : Nat → Bool}

/-- The verdict is good when the operands fit. -/
theorem verdictFrom_of_fits {start : Nat} {families : List Family} {os : List Operand}
    (h : fitsFrom coerces omittable start families os = true) :
    verdictFrom operator coerces refusal omittable start families os = .ok () := by
  induction families generalizing start os with
  | nil => rfl
  | cons family rest ih =>
    cases os with
    | nil => rfl
    | cons o os =>
      rw [fitsFrom, Bool.and_eq_true] at h
      rw [verdictFrom, if_pos h.1, ih h.2]

/-- Operands with types that do not fit, where they may be converted, are refused in one way. -/
theorem verdictFrom_of_not_fits {start : Nat} {families : List Family} {os : List Operand}
    (hl : families.length = os.length) (ht : ∀ o ∈ os, o.isTyped = true)
    (h : fitsFrom true omittable start families os = false) :
    verdictFrom operator true refusal omittable start families os = .error refusal := by
  induction families generalizing start os with
  | nil =>
    obtain rfl := List.length_eq_zero_iff.mp hl.symm
    cases h
  | cons family rest ih =>
    cases os with
    | nil => cases hl
    | cons o os =>
      rw [verdictFrom]
      by_cases hfits : o.fits true family (omittable start) = true
      · rw [fitsFrom, hfits, Bool.true_and] at h
        rw [if_pos hfits, ih (Nat.succ.inj hl) (fun o' ho' => ht o' (by simp [ho'])) h]
      · rw [if_neg hfits]
        cases o with
        | unresolved name => simpa [Operand.isTyped] using ht (.unresolved name) (by simp)
        -- A NULL literal would have fitted.
        | null => simp [Operand.fits] at hfits
        | typed type => rfl
        | omitted => rfl

/-- On a call of the right length, with types, where operands may be converted, the verdict says whether
    the operands fit. -/
theorem verdict_eq {f : Form} {os : List Operand} (hl : f.positions.length = os.length)
    (ht : ∀ o ∈ os, o.isTyped = true) :
    f.verdict operator true os =
      if f.fits true os = true then .ok ()
      else .error (DetachedCall.refusal operator f.positions os) := by
  by_cases h : f.fits true os = true
  · rw [if_pos h]
    exact verdictFrom_of_fits h
  · rw [if_neg h]
    exact verdictFrom_of_not_fits hl ht (Bool.not_eq_true _ ▸ h)

end Form

namespace DetachedCall

open Form

variable {operator : String} {coerces : Bool} {engine : CoercionEngine} {s : DetachedCall} {f : Form}

/-! ### The call as written -/

/-- Operands are looked at one after the other until one does not fit. -/
theorem checkFrom_eq {positions families : List Family} {omittable : Nat → Bool} {start : Nat}
    {os : List Operand} (hs : s.operands.drop start = os) (hl : families.length = os.length) :
    Signature.checkFrom (view operator coerces engine) positions omittable start families s =
      (verdictFrom operator coerces (refusal operator positions s.operands) omittable start families
        os, s) := by
  induction families generalizing start os with
  | nil => rfl
  | cons family rest ih =>
    cases os with
    | nil => cases hl
    | cons o os =>
      obtain ⟨ho, hrest⟩ := getElem?_of_drop hs
      have hfirst : Signature.checkOperand (view operator coerces engine) positions omittable start
          family s = _ := checkOperand_eq operator coerces engine ho
      unfold Signature.checkFrom verdictFrom
      by_cases hfits : o.fits coerces family (omittable start) = true
      · rw [if_pos hfits] at hfirst
        rw [Checking.bind_of_ok hfirst, if_pos hfits, ih hrest (Nat.succ.inj hl)]
      · rw [if_neg hfits] at hfirst
        rw [Checking.bind_of_error hfirst, if_neg hfits]

/-- The check of all operands is the verdict on them. -/
theorem checkAll_eq (hl : f.positions.length = s.operands.length) :
    Signature.checkAll (view operator coerces engine) f.positions f.omittable s =
      (f.verdict operator coerces s.operands, s) :=
  checkFrom_eq (by simp) hl

/-- The check of a call as written is the verdict on its operands. -/
theorem familiesStrict_eq (hl : f.positions.length = s.operands.length) :
    Signature.familiesStrict (view operator coerces engine) f.positions f.omittable s =
      ((f.verdict operator coerces s.operands).map fun _ => true, s) := by
  have hall : Signature.checkAll (view operator coerces engine) f.positions f.omittable s = _ :=
    checkAll_eq hl
  unfold Signature.familiesStrict
  rw [Checking.bind_of_ok (Checking.state_apply s), view_count, if_pos hl]
  cases hv : f.verdict operator coerces s.operands with
  | ok _ =>
    rw [hv] at hall
    rw [Checking.bind_of_ok hall]
    rfl
  | error e =>
    rw [hv] at hall
    rw [Checking.bind_of_error hall]
    rfl

/-! ### The whole check -/

/-- The types of the operands from `start` on are read one after the other. -/
theorem mapM_typeOf {start : Nat} {os : List Operand} (hs : s.operands.drop start = os) :
    (List.range' start os.length).mapM typeOf s = (os.mapM Operand.type, s) := by
  induction os generalizing start with
  | nil => rfl
  | cons o os ih =>
    obtain ⟨ho, hrest⟩ := getElem?_of_drop hs
    have htype : typeOf start s = (o.type, s) := by
      unfold typeOf
      rw [ho]
    rw [List.length_cons, List.range'_succ, List.mapM_cons, List.mapM_cons]
    cases hr : o.type with
    | error e =>
      rw [hr] at htype
      rw [Checking.bind_of_error htype]
      rfl
    | ok type =>
      rw [hr] at htype
      rw [Checking.bind_of_ok htype]
      cases hos : os.mapM Operand.type with
      | error e => rw [Checking.bind_of_error ((ih hrest).trans (by rw [hos]))]; rfl
      | ok types => rw [Checking.bind_of_ok ((ih hrest).trans (by rw [hos]))]; rfl

/-- The types of the operands are read in order. -/
theorem types_eq : (view operator coerces engine).types s = (s.operands.mapM Operand.type, s) := by
  unfold CallView.types
  rw [Checking.bind_of_ok (Checking.state_apply s), view_count, view_typeOf,
    List.range_eq_range']
  exact mapM_typeOf (by simp)

/-- A call of another length is not for the signature. -/
theorem familiesCheck_of_length_ne (hl : f.positions.length ≠ s.operands.length) :
    Signature.familiesCheck (view operator coerces engine) f.positions f.omittable s =
      (.ok false, s) := by
  unfold Signature.familiesCheck
  rw [Checking.bind_of_ok (Checking.state_apply s), view_count, if_neg hl]
  rfl

/-- A call that fits as written is accepted and left alone. -/
theorem familiesCheck_of_accepted (hl : f.positions.length = s.operands.length)
    (hv : f.verdict operator coerces s.operands = .ok ()) :
    Signature.familiesCheck (view operator coerces engine) f.positions f.omittable s =
      (.ok true, s) := by
  have hstrict : Signature.familiesStrict (view operator coerces engine) f.positions f.omittable s = _ :=
    familiesStrict_eq hl
  rw [hv] at hstrict
  unfold Signature.familiesCheck
  rw [Checking.bind_of_ok (Checking.state_apply s), view_count, if_pos hl,
    Checking.bind_of_ok (Checking.tolerant_eq_ok_iff.mpr (.inl hstrict))]
  rfl

/-- A fault that the engine is not asked about ends the call. -/
theorem familiesCheck_of_fault (hl : f.positions.length = s.operands.length) {e : Fault}
    (hv : f.verdict operator coerces s.operands = .error e)
    (he : e.isOperandFault = false ∨ coerces = false) :
    Signature.familiesCheck (view operator coerces engine) f.positions f.omittable s =
      (.error e, s) := by
  have hstrict : Signature.familiesStrict (view operator coerces engine) f.positions f.omittable s = _ :=
    familiesStrict_eq hl
  have hall : Signature.checkAll (view operator coerces engine) f.positions f.omittable s = _ :=
    checkAll_eq hl
  rw [hv] at hstrict hall
  unfold Signature.familiesCheck
  rw [Checking.bind_of_ok (Checking.state_apply s), view_count, if_pos hl]
  cases hop : e.isOperandFault with
  | false =>
    have htry : (Signature.familiesStrict (view operator coerces engine) f.positions
        f.omittable).tolerant s = (.error e, s) := by
      rw [Checking.tolerant, hstrict]
      simp [Except.map, hop]
    rw [Checking.bind_of_error htry]
  | true =>
    -- The second look repeats the first one.
    obtain rfl : coerces = false := by simpa [hop] using he
    rw [Checking.bind_of_ok (Checking.tolerant_eq_ok_iff.mpr (.inr ⟨rfl, e, hop, hstrict⟩))]
    exact Checking.bind_of_error hall _

section

variable {e : Fault} (hl : f.positions.length = s.operands.length)
  (hv : f.verdict operator true s.operands = .error e) (he : e.isOperandFault = true)

include hl hv he

/-- After a refusal the engine is given the types of all operands, and then each operand is looked at
    once more. -/
theorem familiesCheck_of_refused :
    Signature.familiesCheck (view operator true engine) f.positions f.omittable s =
      ((view operator true engine).types >>= fun types =>
        (view operator true engine).coerce types f.positions >>= fun converted =>
          Signature.checkAll (view operator true engine) f.positions f.omittable >>= fun _ =>
            pure converted) s := by
  have hstrict : Signature.familiesStrict (view operator true engine) f.positions f.omittable s = _ :=
    familiesStrict_eq hl
  rw [hv] at hstrict
  unfold Signature.familiesCheck
  rw [Checking.bind_of_ok (Checking.state_apply s), view_count, if_pos hl,
    Checking.bind_of_ok (Checking.tolerant_eq_ok_iff.mpr (.inr ⟨rfl, e, he, hstrict⟩))]
  simp only [Bool.false_eq_true, if_false, view_coerces, if_true]

variable (engine) in
/-- A missing type ends a refused call, wherever the operand stands. -/
theorem familiesCheck_of_untyped (ht : ¬ ∀ o ∈ s.operands, o.isTyped = true) :
    ∃ name, Signature.familiesCheck (view operator true engine) f.positions f.omittable s =
      (.error (.columnNotFound name), s) := by
  obtain ⟨name, hname⟩ := Operand.mapM_type_of_untyped ht
  refine ⟨name, ?_⟩
  rw [familiesCheck_of_refused hl hv he, Checking.bind_of_error]
  rw [types_eq, hname]

/-- A refused call whose operands have types is converted, and ends with the verdict on the converted
    operands. -/
theorem familiesCheck_of_typed (ht : ∀ o ∈ s.operands, o.isTyped = true) :
    Signature.familiesCheck (view operator true .implicitCasts) f.positions f.omittable s =
      (if f.fits true (convertAll f.positions s.operands) = true then .ok true
        else .error (refusal operator f.positions (convertAll f.positions s.operands)),
        s.afterCasts operator f.positions) := by
  have hconverted : f.positions.length = (s.afterCasts operator f.positions).operands.length :=
    hl.trans (length_convertAll hl).symm
  have hall : Signature.checkAll (view operator true .implicitCasts) f.positions f.omittable
      (s.afterCasts operator f.positions) = _ := checkAll_eq hconverted
  rw [verdict_eq hconverted (isTyped_convertAll ht), operands_afterCasts] at hall
  rw [familiesCheck_of_refused hl hv he, Checking.bind_of_ok (types_view operator true .implicitCasts ht),
    Checking.bind_of_ok (coerce_implicitCasts operator true hl ht)]
  by_cases hfits : f.fits true (convertAll f.positions s.operands) = true
  · -- Operands that fit now and did not before have been converted.
    have hne : castsFrom 0 f.positions s.operands ≠ [] := by
      intro hnil
      rw [convertAll_of_castsFrom_eq_nil hl hnil] at hfits
      rw [verdict_eq hl ht, if_pos hfits] at hv
      cases hv
    rw [if_pos hfits]
    rw [if_pos hfits] at hall
    rw [Checking.bind_of_ok hall]
    simp [hne]
  · rw [if_neg hfits]
    rw [if_neg hfits] at hall
    rw [Checking.bind_of_error hall]

end

end DetachedCall

end SqlTyping
