import SqlTyping.Proofs.Signature.Looking
import SqlTyping.Proofs.Signature.Verdicts

namespace SqlTyping

/-!
# The calls that the standard conversions make fit

Which calls outside a statement the check of a list of families accepts with the standard engine, which
casts it leaves behind, and with which fault it refuses the others:

* `castAt?`, `Form.castsFrom_eq_filterMap` — one cast for each operand that has one at its position,
  in order;
* `Form.fits_iff_forall`, `Form.fits_convertAll_iff` — operands fit one by one, and converted operands
  fit when each of them was legal before or has a cast;
* `DetachedCall.legalAt_iff_fits` — an operand is legal in a call when it fits by itself;
* `DetachedCall.check_castable` — the check accepts exactly the calls that can be cast.
-/

/-- An operand fits after conversion when it did before or has a cast. -/
theorem Operand.fits_converted (o : Operand) (family : Family) (mayOmit : Bool) :
    (o.converted family).fits true family mayOmit =
      (o.fits true family mayOmit || (o.target? family).isSome) := by
  unfold Operand.converted
  cases ht : o.target? family with
  | none => simp
  | some target => simp [Operand.fits_typed_of_target? ht]

/-- An operand with its family and its place, and the cast that the standard conversions put around
    it there: none around a placeholder, and around any other operand that of its type. -/
def castAt? (p : (Family × Operand) × Nat) : Option (Nat × DataType) :=
  if p.1.2 = .omitted then none
  else (implicitCast? p.1.2.knownType p.1.1).map fun target => (p.2, target)

namespace Form

theorem castAt?_eq {o : Operand} (ho : o.isTyped = true) (family : Family) (index : Nat) :
    castAt? ((family, o), index) = (o.target? family).map fun target => (index, target) := by
  cases o with
  | unresolved name => cases ho
  | _ => simp [castAt?, Operand.target?, Operand.knownType]

/-- The casts of the standard conversions are those of the single operands. -/
theorem castsFrom_eq_filterMap {start : Nat} {families : List Family} {os : List Operand}
    (ht : ∀ o ∈ os, o.isTyped = true) :
    castsFrom start families os = ((families.zip os).zipIdx start).filterMap castAt? := by
  induction families generalizing start os with
  | nil => rfl
  | cons family rest ih =>
    cases os with
    | nil => rfl
    | cons o os =>
      rw [List.zip_cons_cons, List.zipIdx_cons, List.filterMap_cons, castsFrom,
        ih fun o' ho' => ht o' (by simp [ho']), castAt?_eq (ht o (by simp))]
      cases o.target? family <;> rfl

/-- Operands fit as many families when they fit them one by one. -/
theorem fitsFrom_iff_forall {coerces : Bool} {omittable : Nat → Bool} {start : Nat}
    {families : List Family} {os : List Operand} (hl : families.length = os.length) :
    fitsFrom coerces omittable start families os = true ↔
      ∀ (index : Nat) (family : Family) (o : Operand), families[index]? = some family →
        os[index]? = some o → o.fits coerces family (omittable (start + index)) = true := by
  induction families generalizing start os with
  | nil =>
    obtain rfl := List.length_eq_zero_iff.mp hl.symm
    simp [fitsFrom]
  | cons family rest ih =>
    cases os with
    | nil => cases hl
    | cons o os =>
      rw [fitsFrom, Bool.and_eq_true, ih (Nat.succ.inj hl)]
      constructor
      · rintro ⟨hfirst, hrest⟩ index family' o' hf ho
        cases index with
        | zero =>
          cases hf
          cases ho
          exact hfirst
        | succ index =>
          have := hrest index family' o' hf ho
          rwa [show start + 1 + index = start + (index + 1) by omega] at this
      · intro h
        refine ⟨h 0 family o rfl rfl, fun index family' o' hf ho => ?_⟩
        have := h (index + 1) family' o' hf ho
        rwa [show start + (index + 1) = start + 1 + index by omega] at this

variable {f : Form} {os : List Operand}

theorem fits_iff_forall {coerces : Bool} (hl : f.positions.length = os.length) :
    f.fits coerces os = true ↔ ∀ (index : Nat) (family : Family) (o : Operand),
      f.positions[index]? = some family → os[index]? = some o →
        o.fits coerces family (f.omittable index) = true := by
  unfold fits
  rw [fitsFrom_iff_forall hl]
  simp only [Nat.zero_add]

/-- Converted operands fit when each operand was legal before or has a cast. -/
theorem fits_convertAll_iff (hl : f.positions.length = os.length) :
    f.fits true (convertAll f.positions os) = true ↔
      ∀ (index : Nat) (family : Family) (o : Operand), f.positions[index]? = some family →
        os[index]? = some o → o.fits true family (f.omittable index) = true ∨
          ∃ target, o.target? family = some target := by
  have hconverted : ∀ (index : Nat) (family : Family) (o : Operand),
      f.positions[index]? = some family → os[index]? = some o →
        (convertAll f.positions os)[index]? = some (o.converted family) := by
    intro index family o hf ho
    simp [convertAll, List.getElem?_zipWith, hf, ho]
  have hone : ∀ (index : Nat) (family : Family) (o : Operand),
      (o.converted family).fits true family (f.omittable index) = true ↔
        o.fits true family (f.omittable index) = true ∨ ∃ target, o.target? family = some target := by
    intro index family o
    rw [Operand.fits_converted, Bool.or_eq_true, Option.isSome_iff_exists]
  rw [fits_iff_forall (hl.trans (length_convertAll hl).symm)]
  constructor
  · intro h index family o hf ho
    exact (hone index family o).mp (h index family _ hf (hconverted index family o hf ho))
  · intro h index family o' hf ho'
    -- The operand there was `o` before the conversion.
    have hindex : index < os.length := hl ▸ (List.getElem?_eq_some_iff.mp hf).1
    obtain ⟨o, ho⟩ : ∃ o, os[index]? = some o := ⟨_, List.getElem?_eq_getElem hindex⟩
    rw [hconverted index family o hf ho] at ho'
    cases ho'
    exact (hone index family o).mpr (h index family o hf ho)

end Form

namespace DetachedCall

open Form

variable {operator : String} {s : DetachedCall}

/-- The operands with types are shown as they are. -/
theorem shows_view {coerces : Bool} {engine : CoercionEngine} {index : Nat} {o : Operand}
    (hs : s.operands[index]? = some o) (ho : o.isTyped = true) :
    (view operator coerces engine).Shows s index o := by
  cases o with
  | unresolved name => cases ho
  | omitted => simp [CallView.Shows, isDefault, hs]
  | null => simp [CallView.Shows, CallView.Reads, isDefault, isNull, typeOf, Operand.type, hs]
  | typed type => simp [CallView.Shows, CallView.Reads, isDefault, isNull, typeOf, Operand.type, hs]

/-- The operand at `index` is legal as it stands, where operands may be converted. -/
def LegalAt (s : DetachedCall) (f : Form) (index : Nat) (family : Family) : Prop :=
  Legal true (f.omittable index) (s.isDefault index) (s.isNull index)
    (fun type => typeOf index s = (.ok type, s)) family

/-- The operand at `index` is no placeholder and has a conversion into the family. -/
def CastableAt (s : DetachedCall) (index : Nat) (family : Family) : Prop :=
  s.isDefault index = false ∧ ∃ type target, typeOf index s = (.ok type, s) ∧
    implicitCast? type family = some target

variable {f : Form} {index : Nat} {family : Family} {o : Operand}

/-- An operand is legal in a call when it fits by itself. -/
theorem legalAt_iff_fits (hs : s.operands[index]? = some o) (ho : o.isTyped = true) :
    s.LegalAt f index family ↔ o.fits true family (f.omittable index) = true := by
  have hshows : (view "" true .implicitCasts).Shows s index o := shows_view hs ho
  exact hshows.admits_iff (f.omittable index) family

/-- An operand has a conversion in a call when it has one by itself. -/
theorem castableAt_iff_target? (hs : s.operands[index]? = some o) (ho : o.isTyped = true) :
    s.CastableAt index family ↔ ∃ target, o.target? family = some target := by
  cases o with
  | unresolved name => cases ho
  | _ => simp [CastableAt, isDefault, typeOf, Operand.type, Operand.target?, hs]

/-- What can be said of each position can be said of each operand. -/
theorem forall_positions_iff {p : Nat → Family → Prop} {q : Nat → Family → Operand → Prop}
    (hl : f.positions.length = s.operands.length)
    (hpq : ∀ index family o, s.operands[index]? = some o → (p index family ↔ q index family o)) :
    (∀ index family, f.positions[index]? = some family → p index family) ↔
      ∀ (index : Nat) (family : Family) (o : Operand), f.positions[index]? = some family →
        s.operands[index]? = some o → q index family o := by
  constructor
  · intro h index family o hf ho
    exact (hpq index family o ho).mp (h index family hf)
  · intro h index family hf
    have hindex : index < s.operands.length := hl ▸ (List.getElem?_eq_some_iff.mp hf).1
    have ho := List.getElem?_eq_getElem hindex
    exact (hpq index family _ ho).mpr (h index family _ hf ho)

/-- **The check decides exactly the castable calls.** With the standard engine, a list of families
    accepts a call whose operands have types when they are as many as the families and each of them is
    legal as it stands or has a conversion. A call of another length is left alone, and so is one whose
    operands are all legal as they stand. Any other call is left with one cast for each operand that
    has a conversion, in order, whether or not it is accepted, and when it is refused, it is refused
    with the types of the operands after the casts. -/
theorem check_castable (ht : ∀ o ∈ s.operands, o.isTyped = true) :
    let r := f.signature.check (view operator true .implicitCasts) s
    let legal := ∀ index family, f.positions[index]? = some family → s.LegalAt f index family
    (r.1 = .ok true ↔ f.positions.length = s.operands.length ∧
      ∀ index family, f.positions[index]? = some family →
        s.LegalAt f index family ∨ s.CastableAt index family) ∧
    (f.positions.length ≠ s.operands.length → r = (.ok false, s)) ∧
    (f.positions.length = s.operands.length → legal → r = (.ok true, s)) ∧
    (f.positions.length = s.operands.length → ¬ legal →
      r.2.casts = s.casts ++ (f.positions.zip s.operands).zipIdx.filterMap castAt? ∧
      r.2.operands = convertAll f.positions s.operands ∧
      ∀ e, r.1 = .error e → e = .signatureMismatch operator (callText operator r.2.operands)
        (quotedForm operator f.positions)) := by
  intro r legal
  have htyped : ∀ {index : Nat} {o : Operand}, s.operands[index]? = some o → o.isTyped = true :=
    fun ho => ht _ (List.mem_of_getElem? ho)
  by_cases hl : f.positions.length = s.operands.length
  · have hlegal : legal ↔ f.fits true s.operands = true := by
      rw [fits_iff_forall hl]
      exact forall_positions_iff hl fun index family o ho => legalAt_iff_fits ho (htyped ho)
    have hcastable : (∀ index family, f.positions[index]? = some family →
        s.LegalAt f index family ∨ s.CastableAt index family) ↔
          f.fits true (convertAll f.positions s.operands) = true := by
      rw [fits_convertAll_iff hl]
      refine forall_positions_iff hl fun index family o ho => ?_
      rw [legalAt_iff_fits ho (htyped ho), castableAt_iff_target? ho (htyped ho)]
    have hverdict : f.verdict operator true s.operands = _ := verdict_eq hl ht
    by_cases hfits : f.fits true s.operands = true
    · rw [if_pos hfits] at hverdict
      have hr : r = (.ok true, s) := familiesCheck_of_accepted hl hverdict
      refine ⟨?_, fun hne => absurd hl hne, fun _ _ => hr, fun _ hno => absurd (hlegal.mpr hfits) hno⟩
      rw [hr]
      exact iff_of_true rfl ⟨hl, fun index family hf => .inl (hlegal.mpr hfits index family hf)⟩
    · rw [if_neg hfits] at hverdict
      have hr : r = _ := familiesCheck_of_typed hl hverdict rfl ht
      refine ⟨?_, fun hne => absurd hl hne, fun _ hyes => absurd (hlegal.mp hyes) hfits,
        fun _ _ => ?_⟩
      · rw [hr, hcastable]
        by_cases hafter : f.fits true (convertAll f.positions s.operands) = true
        · simp [hafter, hl]
        · simp [hafter]
      · rw [hr]
        refine ⟨?_, rfl, fun e he => ?_⟩
        · rw [casts_afterCasts, castsFrom_eq_filterMap ht]
        · by_cases hafter : f.fits true (convertAll f.positions s.operands) = true
          · simp [hafter] at he
          · simp only [if_neg hafter, Except.error.injEq] at he
            exact he.symm
  · have hr : r = (.ok false, s) := familiesCheck_of_length_ne hl
    refine ⟨?_, fun _ => hr, fun h => absurd h hl, fun h => absurd h hl⟩
    rw [hr]
    simp [hl]

/-- Of two BOOLEAN operands one can be made a string, and none an integer: the cast stays, and the
    refusal shows it. -/
theorem check_castable_left :
    let s : DetachedCall := ⟨[.typed (.notNull .boolean), .typed (.notNull .boolean)], [], []⟩
    let f : Form := ⟨[.string, .integer], fun _ => false⟩
    let r := f.signature.check (view "LEFT" true .implicitCasts) s
    (∀ o ∈ s.operands, o.isTyped = true) ∧ r.2.casts = [(0, .notNull .varchar)] ∧
      r.1 = .error (.signatureMismatch "LEFT" "LEFT(<VARCHAR>, <BOOLEAN>)"
        "'LEFT(<STRING>, <INTEGER>)'") := by
  intro s f r
  have ht : ∀ o ∈ s.operands, o.isTyped = true := by decide
  have hlegal : ¬ ∀ index family, f.positions[index]? = some family → s.LegalAt f index family := by
    intro h
    have hfits := (legalAt_iff_fits (o := .typed (.notNull .boolean)) rfl rfl).mp (h 0 .string rfl)
    revert hfits
    decide
  obtain ⟨-, -, -, hr⟩ := @check_castable "LEFT" s f ht
  obtain ⟨hcasts, -, he⟩ := hr rfl hlegal
  refine ⟨ht, hcasts, ?_⟩
  cases hanswer : r.1 with
  | ok b => cases hanswer
  | error e => exact congrArg Except.error (he e hanswer)

end DetachedCall

end SqlTyping
