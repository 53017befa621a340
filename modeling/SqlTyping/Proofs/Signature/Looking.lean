import Mathlib.Tactic.Choose
import SqlTyping.Proofs.Signature.Conversion
import SqlTyping.Proofs.Signature.Fitting

namespace SqlTyping

/-!
# Checks that only look

Once the type of every operand of a call is at hand, looking at the call changes nothing, and a check
that converts nothing is a decision about the operands:

* `Checking.Judges` — a check leaves the state alone and answers `true` exactly when a property holds;
* `CallView.Rests` — the types of all operands are at hand;
* `CallView.Rests.judges_checkStrict` — the check of a call as written accepts exactly when the
  operands fit a leaf of the signature;
* `CallView.Rests.check_of_accepts` — a call that fits as it stands is accepted and left alone, also
  where operands may be converted;
* `CallView.Rests.judges_check` — where they may not, the whole check accepts exactly such calls;
* `CallView.ShowsAll.accepts_iff` — whether a call fits is decided by its operands, each by itself.
-/

namespace Checking

variable {σ : Type} {s : σ} {p q : Prop}

/-- The check leaves the state `s` as it is. It answers `true` exactly when `p` holds, and a fault is
    one that a choice passes over. -/
def Judges (x : Checking σ Bool) (s : σ) (p : Prop) : Prop :=
  ∃ r, x s = (r, s) ∧ (r = .ok true ↔ p) ∧ ∀ e : Fault, r = .error e → e.isOperandFault = true

/-- The check leaves the state `s` as it is. It answers `true` when `p` holds and stops with a fault
    that a choice passes over when it does not. -/
def Rules (x : Checking σ Bool) (s : σ) (p : Prop) : Prop :=
  (p → x s = (.ok true, s)) ∧ (¬ p → ∃ e : Fault, e.isOperandFault = true ∧ x s = (.error e, s))

theorem Rules.judges {x : Checking σ Bool} (h : x.Rules s p) : x.Judges s p := by
  by_cases hp : p
  · exact ⟨.ok true, h.1 hp, by simp [hp], by simp⟩
  · obtain ⟨e, he, hx⟩ := h.2 hp
    refine ⟨.error e, hx, by simp [hp], ?_⟩
    rintro _ ⟨⟩
    exact he

/-- A choice learns from an alternative whether it accepts, and nothing else. -/
theorem Judges.tolerant {x : Checking σ Bool} (h : x.Judges s p) :
    ∃ b, x.tolerant s = (.ok b, s) ∧ (b = true ↔ p) := by
  obtain ⟨r, hr, hp, hfault⟩ := h
  cases r with
  | ok b => exact ⟨b, by simp [Checking.tolerant, hr], by simpa using hp⟩
  | error e => exact ⟨false, by simp [Checking.tolerant, hr, hfault e rfl], by simpa using hp⟩

/-- A decision, followed by the answer `true`, rules on what was decided. -/
theorem Decides.rules [Decidable p] {x : Checking σ Unit} (h : x.Decides s (decide p)) :
    (x >>= fun _ => pure true : Checking σ Bool).Rules s p := by
  unfold Decides at h
  refine ⟨fun hp => ?_, fun hp => ?_⟩
  · exact bind_of_ok (by simpa [hp] using h) _
  · obtain ⟨e, he, hx⟩ : ∃ e : Fault, e.isOperandFault = true ∧ x s = (.error e, s) := by
      simpa [hp] using h
    exact ⟨e, he, bind_of_error hx _⟩

/-- A decision is about what holds, however that is put. -/
theorem Decides.congr [Decidable p] [Decidable q] {x : Checking σ Unit}
    (h : x.Decides s (decide p)) (hpq : p ↔ q) : x.Decides s (decide q) := by
  have : decide q = decide p := by simp [hpq]
  rwa [this]

/-- What stops with an operand fault unless `p` holds decides `p`. -/
theorem decides_ite [Decidable p] {x : Checking σ Unit}
    (hx : ∃ e : Fault, e.isOperandFault = true ∧ x s = (.error e, s)) :
    (if p then pure () else x : Checking σ Unit).Decides s (decide p) := by
  by_cases hp : p
  · simpa [hp] using decides_pure s
  · simpa [Decides, hp] using hx

/-- What stops with one when `p` holds decides its opposite. -/
theorem decides_ite_not [Decidable p] {x : Checking σ Unit}
    (hx : ∃ e : Fault, e.isOperandFault = true ∧ x s = (.error e, s)) :
    (if p then x else pure () : Checking σ Unit).Decides s (decide ¬ p) := by
  by_cases hp : p
  · simpa [Decides, hp] using hx
  · simpa [hp] using decides_pure s

end Checking

namespace CallView

open Checking

variable {σ : Type} {c : CallView σ} {s : σ} {index : Nat}

/-- The type of an operand is at hand: it is found without changing the state. -/
def Reads (c : CallView σ) (s : σ) (index : Nat) (type : DataType) : Prop :=
  c.typeOf index s = (.ok type, s)

/-- There is one type at hand for an operand. -/
theorem Reads.unique {type type' : DataType} (h : c.Reads s index type)
    (h' : c.Reads s index type') : type = type' := by
  have heq := Eq.trans (Eq.symm h) h'
  cases heq
  rfl

/-- What holds of a type at hand holds of the one there is. -/
theorem Reads.exists_iff {type : DataType} (h : c.Reads s index type) {P : DataType → Prop} :
    (∃ type', c.Reads s index type' ∧ P type') ↔ P type :=
  ⟨fun ⟨_, h', hp⟩ => h'.unique h ▸ hp, fun hp => ⟨type, h, hp⟩⟩

/-- The types of all operands are at hand, but for those that are omitted. -/
def Rests (c : CallView σ) (s : σ) : Prop :=
  ∀ index, index < c.count s → c.isDefault s index = false → ∃ type, c.Reads s index type

/-- The operands fit a leaf of two lists when they fit one of the first or one of the second. -/
theorem accepts_append {known : σ → Nat → DataType → Prop} {leaves leaves' : List Signature} :
    c.Accepts known (leaves ++ leaves') s ↔
      c.Accepts known leaves s ∨ c.Accepts known leaves' s := by
  constructor
  · rintro ⟨positions, omittable, hmem, hfits⟩
    rcases List.mem_append.mp hmem with hmem | hmem
    · exact .inl ⟨positions, omittable, hmem, hfits⟩
    · exact .inr ⟨positions, omittable, hmem, hfits⟩
  · rintro (h | h)
    · exact h.of_leaves fun leaf hl => List.mem_append_left _ hl
    · exact h.of_leaves fun leaf hl => List.mem_append_right _ hl

/-- One list of families is the only leaf there is. -/
theorem accepts_singleton {known : σ → Nat → DataType → Prop} {positions : List Family}
    {omittable : Nat → Bool} :
    c.Accepts known [.families positions omittable] s ↔
      positions.length = c.count s ∧ c.FitsFrom known s omittable 0 positions := by
  constructor
  · rintro ⟨positions', omittable', hmem, hcount, hfits⟩
    cases List.mem_singleton.mp hmem
    exact ⟨hcount, hfits⟩
  · rintro ⟨hcount, hfits⟩
    exact ⟨positions, omittable, by simp, hcount, hfits⟩

namespace Rests

section

variable (h : c.Rests s)

include h

/-- The call is written down without changing the state. -/
theorem signatureText_eq : ∃ text, c.signatureText s = (.ok text, s) := by
  have hone : ∀ index : Nat, index < c.count s → ∃ text, c.operandText index s = (.ok text, s) := by
    intro index hi
    unfold CallView.operandText
    by_cases hd : c.isDefault s index = true
    · exact ⟨"DEFAULT", if_pos hd⟩
    · obtain ⟨type, ht⟩ := h index hi (by simpa using hd)
      refine ⟨s!"<{type.text}>", ?_⟩
      rw [if_neg hd, ht]
  choose! text htext using hone
  unfold CallView.signatureText
  rw [bind_of_ok (state_apply s),
    bind_of_ok (mapM_of_forall fun index hi => htext index (List.mem_range.mp hi))]
  exact ⟨_, rfl⟩

/-- A call is refused by an operand fault and left as it was. -/
theorem mismatch_eq {α : Type} (allowed : String) :
    ∃ e : Fault, e.isOperandFault = true ∧ (c.mismatch allowed : Checking σ α) s = (.error e, s) := by
  obtain ⟨text, htext⟩ := h.signatureText_eq
  exact ⟨.signatureMismatch c.operator text allowed, rfl, bind_of_ok htext _⟩

open Classical in
/-- One operand is checked by looking whether it is legal. -/
theorem decides_checkOperand {positions : List Family} {omittable : Nat → Bool} {family : Family}
    (hi : index < c.count s) :
    (Signature.checkOperand c positions omittable index family).Decides s
      (decide (c.Admits c.Reads s index (omittable index) family)) := by
  have hrefuse := h.mismatch_eq (α := Unit) (quotedForm c.operator positions)
  by_cases hignore : family = .ignore
  · subst hignore
    have hlegal : c.Admits c.Reads s index (omittable index) .ignore := .unchecked
    rw [Signature.checkOperand_ignore, decide_eq_true hlegal]
    exact decides_pure s
  by_cases hd : c.isDefault s index = true
  · refine .of_eq (Signature.checkOperand_of_omitted hignore hd) ?_
    exact (decides_ite hrefuse).congr (legal_omitted_iff hd hignore).symm
  have hd : c.isDefault s index = false := by simpa using hd
  obtain ⟨type, ht⟩ := h index hi hd
  by_cases hany : family = .any
  · subst hany
    refine .of_eq (Signature.checkOperand_any hd) (.bind ht ?_)
    exact (decides_ite_not hrefuse).congr (ht.exists_iff.symm.trans (legal_any_iff hd).symm)
  by_cases hn : c.isNull s index = true
  · refine .of_eq (Signature.checkOperand_of_null hignore hany hd hn) ?_
    exact (decides_ite ⟨.nullOperand c.operator index, rfl, rfl⟩).congr
      (legal_null_iff hd hany hignore hn).symm
  have hn : c.isNull s index = false := by simpa using hn
  have hmember : c.Admits c.Reads s index (omittable index) family ↔
      type.name = .any ∨ family.accepts type.name = true :=
    (legal_member_iff hd hany hignore hn).trans ht.exists_iff
  refine .of_eq (Signature.checkOperand_of_written hignore hany hd hn) (.bind ht ?_)
  exact (decides_ite hrefuse).congr hmember.symm

open Classical in
/-- Operands are checked one after the other by looking whether all of them are legal. -/
theorem decides_checkFrom {positions families : List Family} {omittable : Nat → Bool}
    (hi : index + families.length ≤ c.count s) :
    (Signature.checkFrom c positions omittable index families).Decides s
      (decide (c.FitsFrom c.Reads s omittable index families)) := by
  induction families generalizing index with
  | nil =>
    have hfits : c.FitsFrom c.Reads s omittable index [] := fun k family hf => by simp at hf
    simpa [hfits, Signature.checkFrom] using decides_pure s
  | cons family rest ih =>
    rw [List.length_cons] at hi
    have hfirst : (Signature.checkOperand c positions omittable index family).Decides s
        (decide (c.Admits c.Reads s index (omittable index) family)) :=
      h.decides_checkOperand (by omega)
    have hrest : (Signature.checkFrom c positions omittable (index + 1) rest).Decides s
        (decide (c.FitsFrom c.Reads s omittable (index + 1) rest)) := ih (by omega)
    have hboth := hfirst.and hrest
    rw [← Bool.decide_and] at hboth
    refine hboth.congr ⟨fun ⟨hfirst, hrest⟩ k f hf => ?_, fun hfits => ⟨?_, fun k f hf => ?_⟩⟩
    · cases k with
      | zero =>
        cases hf
        exact hfirst
      | succ k =>
        have := hrest k f hf
        rwa [show index + 1 + k = index + (k + 1) by omega] at this
    · exact hfits 0 family rfl
    · have := hfits (k + 1) f hf
      rwa [show index + (k + 1) = index + 1 + k by omega] at this

/-- A call as written is accepted by a list of families of its length exactly when its operands fit
    the families. -/
theorem rules_familiesStrict {positions : List Family} (omittable : Nat → Bool)
    (hl : positions.length = c.count s) :
    (Signature.familiesStrict c positions omittable).Rules s
      (c.Accepts c.Reads [.families positions omittable] s) := by
  classical
  have hall : (Signature.checkFrom c positions omittable 0 positions).Decides s
      (decide (c.FitsFrom c.Reads s omittable 0 positions)) := h.decides_checkFrom (by omega)
  have hstrict : Signature.familiesStrict c positions omittable s =
      (Signature.checkFrom c positions omittable 0 positions >>= fun _ => pure true) s := by
    unfold Signature.familiesStrict
    rw [bind_of_ok (state_apply s), if_pos hl]
    rfl
  unfold Rules
  rw [accepts_singleton, hstrict, and_iff_right hl]
  exact hall.rules

/-- A list of families of another length is not for the call. -/
theorem judges_familiesStrict (positions : List Family) (omittable : Nat → Bool) :
    (Signature.familiesStrict c positions omittable).Judges s
      (c.Accepts c.Reads [.families positions omittable] s) := by
  by_cases hl : positions.length = c.count s
  · exact (h.rules_familiesStrict omittable hl).judges
  · refine ⟨.ok false, ?_, by simp [accepts_singleton, hl], by simp⟩
    unfold Signature.familiesStrict
    rw [bind_of_ok (state_apply s), if_neg hl]
    rfl

end

mutual

/-- The check of a call as written accepts exactly when the operands fit a leaf. -/
theorem judges_checkStrict (h : c.Rests s) : ∀ signature : Signature, signature.IsFinite →
    (signature.checkStrict c).Judges s (c.Accepts c.Reads signature.leaves s)
  | .families positions omittable, _ => h.judges_familiesStrict positions omittable
  | .oneOf alternatives, hfinite => by
    obtain ⟨found, hany, hiff⟩ := h.answers_anyStrict alternatives hfinite
    unfold Signature.checkStrict
    show (_ : Checking σ Bool).Judges s (c.Accepts c.Reads (Signature.leavesOf alternatives) s)
    cases found with
    | true =>
      refine ⟨.ok true, ?_, by simpa using hiff, by simp⟩
      rw [bind_of_ok hany]
      rfl
    | false =>
      obtain ⟨e, he, hmismatch⟩ := h.mismatch_eq ((Signature.oneOf alternatives).allowed c.operator)
      refine ⟨.error e, ?_, by simpa using hiff, ?_⟩
      · rw [bind_of_ok hany]
        exact hmismatch
      · rintro _ ⟨⟩
        exact he
  | .openEnded least answer, hfinite => absurd (by simp [Signature.leaves]) (hfinite least answer)

theorem answers_anyStrict (h : c.Rests s) : ∀ alternatives : List Signature,
    (Signature.oneOf alternatives).IsFinite → ∃ b, Signature.anyStrict c alternatives s = (.ok b, s) ∧
      (b = true ↔ c.Accepts c.Reads (Signature.leavesOf alternatives) s)
  | [], _ => by
    refine ⟨false, rfl, ?_⟩
    simp [Signature.leavesOf, Accepts]
  | signature :: rest, hfinite => by
    obtain ⟨hfirst, hrest⟩ := Signature.isFinite_cons.mp hfinite
    obtain ⟨found, htry, hfound⟩ := (h.judges_checkStrict signature hfirst).tolerant
    obtain ⟨b, hany, hb⟩ := h.answers_anyStrict rest hrest
    rw [Signature.leavesOf, accepts_append, ← hfound, ← hb]
    unfold Signature.anyStrict
    rw [bind_of_ok htry]
    cases found with
    | true => exact ⟨true, rfl, by simp⟩
    | false => exact ⟨b, hany, by simp⟩

end

/-- A call that fits as it stands is accepted, and nothing is converted. -/
theorem check_of_accepts (h : c.Rests s) {signature : Signature} (hfinite : signature.IsFinite)
    (haccepts : c.Accepts c.Reads signature.leaves s) : signature.check c s = (.ok true, s) := by
  cases signature with
  | families positions omittable =>
    obtain ⟨fitted, hstrict, hiff⟩ := (h.judges_familiesStrict positions omittable).tolerant
    obtain rfl := hiff.mpr haccepts
    unfold Signature.check Signature.familiesCheck
    rw [bind_of_ok (state_apply s), if_pos (accepts_singleton.mp haccepts).1, bind_of_ok hstrict]
    rfl
  | oneOf alternatives =>
    obtain ⟨found, hany, hiff⟩ := h.answers_anyStrict alternatives hfinite
    obtain rfl := hiff.mpr haccepts
    unfold Signature.check
    rw [bind_of_ok hany]
    rfl
  | openEnded least answer => exact absurd (by simp [Signature.leaves]) (hfinite least answer)

/-- Without conversion the second look at the operands ends as the first one. -/
theorem rules_familiesCheck (h : c.Rests s) (hcoerces : c.coerces = false) {positions : List Family}
    (omittable : Nat → Bool) (hl : positions.length = c.count s) :
    (Signature.familiesCheck c positions omittable).Rules s
      (c.Accepts c.Reads [.families positions omittable] s) := by
  classical
  refine ⟨fun haccepts => ?_, fun hrefused => ?_⟩
  · have hfinite : (Signature.families positions omittable).IsFinite := by
      simp [Signature.IsFinite, Signature.leaves]
    exact h.check_of_accepts hfinite haccepts
  obtain ⟨fitted, hstrict, hiff⟩ := (h.judges_familiesStrict positions omittable).tolerant
  obtain rfl : fitted = false := by simpa [hrefused] using hiff
  rw [accepts_singleton, and_iff_right hl] at hrefused
  have hagain : (Signature.checkFrom c positions omittable 0 positions).Decides s
      (decide (c.FitsFrom c.Reads s omittable 0 positions)) := h.decides_checkFrom (by omega)
  obtain ⟨e, he, hx⟩ : ∃ e : Fault, e.isOperandFault = true ∧
      Signature.checkFrom c positions omittable 0 positions s = (.error e, s) := by
    simpa [Decides, hrefused] using hagain
  refine ⟨e, he, ?_⟩
  unfold Signature.familiesCheck
  rw [bind_of_ok (state_apply s), if_pos hl, bind_of_ok hstrict]
  simp only [Bool.false_eq_true, if_false, hcoerces]
  exact bind_of_error hx _

mutual

/-- Without conversion a check accepts exactly when the operands fit a leaf as they stand. -/
theorem judges_check (h : c.Rests s) (hcoerces : c.coerces = false) :
    ∀ signature : Signature, signature.IsFinite →
      (signature.check c).Judges s (c.Accepts c.Reads signature.leaves s)
  | .families positions omittable, _ => by
    by_cases hl : positions.length = c.count s
    · exact (h.rules_familiesCheck hcoerces omittable hl).judges
    · refine ⟨.ok false, ?_, by simp [Signature.leaves, accepts_singleton, hl], by simp⟩
      unfold Signature.check Signature.familiesCheck
      rw [bind_of_ok (state_apply s), if_neg hl]
      rfl
  | .oneOf alternatives, hfinite => (h.rules_check_oneOf hcoerces alternatives hfinite).judges
  | .openEnded least answer, hfinite => absurd (by simp [Signature.leaves]) (hfinite least answer)

/-- A choice that accepts nothing refuses the call. -/
theorem rules_check_oneOf (h : c.Rests s) (hcoerces : c.coerces = false)
    (alternatives : List Signature) (hfinite : (Signature.oneOf alternatives).IsFinite) :
    ((Signature.oneOf alternatives).check c).Rules s
      (c.Accepts c.Reads (Signature.leavesOf alternatives) s) := by
  refine ⟨fun haccepts => h.check_of_accepts hfinite haccepts, fun hrefused => ?_⟩
  -- Neither the call as written nor the second round accepts.
  obtain ⟨written, hstrict, hwritten⟩ := h.answers_anyStrict alternatives hfinite
  obtain ⟨found, hany, hfound⟩ := h.answers_anyCheck hcoerces alternatives hfinite
  obtain rfl : written = false := by simpa [hrefused] using hwritten
  obtain rfl : found = false := by simpa [hrefused] using hfound
  obtain ⟨e, he, hmismatch⟩ := h.mismatch_eq ((Signature.oneOf alternatives).allowed c.operator)
  refine ⟨e, he, ?_⟩
  unfold Signature.check
  rw [bind_of_ok hstrict]
  simp only [Bool.false_eq_true, if_false]
  rw [bind_of_ok hany]
  exact hmismatch

theorem answers_anyCheck (h : c.Rests s) (hcoerces : c.coerces = false) :
    ∀ alternatives : List Signature, (Signature.oneOf alternatives).IsFinite →
      ∃ b, Signature.anyCheck c alternatives s = (.ok b, s) ∧
        (b = true ↔ c.Accepts c.Reads (Signature.leavesOf alternatives) s)
  | [], _ => by
    refine ⟨false, rfl, ?_⟩
    simp [Signature.leavesOf, Accepts]
  | signature :: rest, hfinite => by
    obtain ⟨hfirst, hrest⟩ := Signature.isFinite_cons.mp hfinite
    obtain ⟨found, htry, hfound⟩ := (h.judges_check hcoerces signature hfirst).tolerant
    obtain ⟨b, hany, hb⟩ := h.answers_anyCheck hcoerces rest hrest
    rw [Signature.leavesOf, accepts_append, ← hfound, ← hb]
    unfold Signature.anyCheck
    rw [bind_of_ok htry]
    cases found with
    | true => exact ⟨true, rfl, by simp⟩
    | false => exact ⟨b, hany, by simp⟩

end

/-- Without conversion a signature that is for a call of this length accepts it or refuses it. -/
theorem rules_check (h : c.Rests s) (hcoerces : c.coerces = false) {signature : Signature}
    (hfinite : signature.IsFinite)
    (hlength : ∀ positions omittable, signature = .families positions omittable →
      positions.length = c.count s) :
    (signature.check c).Rules s (c.Accepts c.Reads signature.leaves s) := by
  cases signature with
  | families positions omittable =>
    exact h.rules_familiesCheck hcoerces omittable (hlength positions omittable rfl)
  | oneOf alternatives => exact h.rules_check_oneOf hcoerces alternatives hfinite
  | openEnded least answer => exact absurd (by simp [Signature.leaves]) (hfinite least answer)

end Rests

/-! ### Operands by themselves -/

/-- What a call has at `index` is the operand `o`, with its type at hand. -/
def Shows (c : CallView σ) (s : σ) (index : Nat) : Operand → Prop
  | .omitted => c.isDefault s index = true
  | .null => c.isDefault s index = false ∧ c.isNull s index = true ∧ c.Reads s index .null
  | .typed type => c.isDefault s index = false ∧ c.isNull s index = false ∧ c.Reads s index type
  | .unresolved _ => False

/-- The operands of a call, one by one. -/
structure ShowsAll (c : CallView σ) (s : σ) (os : List Operand) : Prop where
  count : c.count s = os.length
  operand : ∀ index o, os[index]? = some o → c.Shows s index o

/-- An operand is legal for a family when it fits it by itself. -/
theorem Shows.admits_iff {o : Operand} (h : c.Shows s index o) (mayOmit : Bool) (family : Family) :
    c.Admits c.Reads s index mayOmit family ↔ o.fits c.coerces family mayOmit = true := by
  unfold Operand.fits
  by_cases hi : family = .ignore
  · subst hi
    exact ⟨fun _ => rfl, fun _ => .unchecked⟩
  rw [if_neg hi]
  cases o with
  | unresolved name => exact h.elim
  | omitted => exact legal_omitted_iff h hi
  | null =>
    obtain ⟨hd, hn, ht⟩ := h
    by_cases ha : family = .any
    · subst ha
      exact ⟨fun _ => rfl, fun _ => .any hd ht (by decide)⟩
    · simp only [if_neg ha]
      exact legal_null_iff hd ha hi hn
  | typed type =>
    obtain ⟨hd, hn, ht⟩ := h
    by_cases ha : family = .any
    · subst ha
      simp only [if_true, Bool.not_eq_true', decide_eq_false_iff_not]
      exact (legal_any_iff hd).trans ht.exists_iff
    · simp only [if_neg ha, Bool.or_eq_true, decide_eq_true_eq, Family.of?_eq_any_iff]
      exact (legal_member_iff hd ha hi hn).trans ht.exists_iff

/-- The operands from `start` on are legal for families when they fit them by themselves. -/
theorem fitsFrom_iff {os : List Operand} {omittable : Nat → Bool} {start : Nat}
    {families : List Family} (hlength : families.length = os.length)
    (h : ∀ index o, os[index]? = some o → c.Shows s (start + index) o) :
    c.FitsFrom c.Reads s omittable start families ↔
      Form.fitsFrom c.coerces omittable start families os = true := by
  induction families generalizing start os with
  | nil =>
    obtain rfl := List.length_eq_zero_iff.mp hlength.symm
    exact ⟨fun _ => rfl, fun _ index family hf => by simp at hf⟩
  | cons family rest ih =>
    cases os with
    | nil => cases hlength
    | cons o os =>
      have hrest : ∀ index o, os[index]? = some o → c.Shows s (start + 1 + index) o := by
        intro index o' ho
        have := h (index + 1) o' ho
        rwa [show start + (index + 1) = start + 1 + index by omega] at this
      rw [Form.fitsFrom, Bool.and_eq_true, ← (h 0 o rfl).admits_iff,
        ← ih (Nat.succ.inj hlength) hrest]
      refine ⟨fun hfits => ⟨hfits 0 family rfl, fun index f hf => ?_⟩, ?_⟩
      · have := hfits (index + 1) f hf
        rwa [show start + (index + 1) = start + 1 + index by omega] at this
      · rintro ⟨hfirst, hfits⟩ index f hf
        cases index with
        | zero =>
          cases hf
          exact hfirst
        | succ index =>
          have := hfits index f hf
          rwa [show start + 1 + index = start + (index + 1) by omega] at this

namespace ShowsAll

variable {os : List Operand}

/-- A call that shows its operands has their types at hand. -/
theorem rests (h : c.ShowsAll s os) : c.Rests s := by
  intro index hi hd
  rw [h.count] at hi
  have hshows := h.operand index _ (List.getElem?_eq_getElem hi)
  cases ho : os[index] with
  | omitted =>
    rw [ho] at hshows
    have hshows : c.isDefault s index = true := hshows
    simp [hd] at hshows
  | null =>
    rw [ho] at hshows
    exact ⟨_, hshows.2.2⟩
  | typed type =>
    rw [ho] at hshows
    exact ⟨_, hshows.2.2⟩
  | unresolved name =>
    rw [ho] at hshows
    exact hshows.elim

/-- What a call accepts is decided by its operands. -/
theorem accepts_iff (h : c.ShowsAll s os) (leaves : List Signature) :
    c.Accepts c.Reads leaves s ↔ ∃ positions omittable,
      Signature.families positions omittable ∈ leaves ∧
        Form.fits c.coerces ⟨positions, omittable⟩ os = true := by
  constructor
  · rintro ⟨positions, omittable, hleaf, hcount, hfits⟩
    refine ⟨positions, omittable, hleaf, ?_⟩
    exact (fitsFrom_iff (hcount.trans h.count) fun index o ho => by
      simpa using h.operand index o ho).mp hfits
  · rintro ⟨positions, omittable, hleaf, hfits⟩
    have hlength : positions.length = os.length := Form.length_eq_of_fitsFrom hfits
    refine ⟨positions, omittable, hleaf, hlength.trans h.count.symm, ?_⟩
    exact (fitsFrom_iff hlength fun index o ho => by
      simpa using h.operand index o ho).mpr hfits

end ShowsAll

end CallView

end SqlTyping
