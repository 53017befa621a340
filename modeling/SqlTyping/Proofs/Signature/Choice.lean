import SqlTyping.Proofs.Signature.Conversion

namespace SqlTyping

/-!
# A choice of family lists

A choice should mean the OR of its alternatives: it accepts what one of them accepts alone, and it
leaves the operands as that one leaves them. Here this is compared with what a choice does, which is
to try its alternatives one after the other on the same call.

* `Form.choose` — what a choice comes to: a form that fits as written is taken before any operand is
  converted, and otherwise the forms are tried in turn, each on what the earlier ones left;
* `DetachedCall.describes_choose` — the check of a choice of forms is `Form.choose`;
* `DetachedCall.ActsAsOr` — the choice means the OR of its alternatives on a call;
* `Form.ChoosesOne` — the condition for this on forms and operands alone.
-/

namespace Form

/-- Forms tried in turn until one accepts. Each is tried on the operands as the earlier ones left
    them, and the casts of all of them stay recorded. -/
def attemptInTurn : List Form → List Operand → Trial
  | [], os => ⟨false, os, []⟩
  | f :: rest, os =>
    let first := f.attempt os
    if first.accepted then first
    else
      let later := attemptInTurn rest first.operands
      ⟨later.accepted, later.operands, first.casts ++ later.casts⟩

/-- The casts that forms tried in turn record before one of them accepts. -/
def castsOfSkipped : List Form → List Operand → List (Nat × DataType)
  | [], _ => []
  | f :: rest, os =>
    if (f.attempt os).accepted then []
    else (f.attempt os).casts ++ castsOfSkipped rest (f.attempt os).operands

/-- Whether some form fits as written. -/
def someFits (forms : List Form) (os : List Operand) : Bool :=
  forms.any fun f => f.fits true os

/-- A choice of forms on operands. -/
def choose (forms : List Form) (os : List Operand) : Trial :=
  if someFits forms os then ⟨true, os, []⟩ else attemptInTurn forms os

/-- The choice comes to what one form comes to alone: when it accepts, it ends like some form tried
    on the operands as written, and when it rejects, so does every form. -/
def ChoosesOne (forms : List Form) (os : List Operand) : Prop :=
  if (choose forms os).accepted = true then ∃ f ∈ forms, f.attempt os = choose forms os
  else ∀ f ∈ forms, (f.attempt os).accepted = false

instance (forms : List Form) (os : List Operand) : Decidable (ChoosesOne forms os) :=
  inferInstanceAs (Decidable (if (choose forms os).accepted = true
    then ∃ f ∈ forms, f.attempt os = choose forms os
    else ∀ f ∈ forms, (f.attempt os).accepted = false))

/-- A form that fits as written accepts and converts nothing. -/
theorem attempt_of_fits {f : Form} {os : List Operand} (h : f.fits true os = true) :
    f.attempt os = ⟨true, os, []⟩ := by
  have hl : f.positions.length = os.length := length_eq_of_fitsFrom h
  unfold attempt
  rw [if_neg (not_not.mpr hl), if_pos h]

/-- A form that records no cast leaves the operands alone. -/
theorem operands_attempt_of_casts_eq_nil {f : Form} {os : List Operand}
    (h : (f.attempt os).casts = []) : (f.attempt os).operands = os := by
  unfold attempt at h ⊢
  by_cases hl : f.positions.length = os.length
  · rw [if_neg (not_not.mpr hl)] at h ⊢
    by_cases hf : f.fits true os = true
    · rw [if_pos hf]
    · rw [if_neg hf] at h ⊢
      exact convertAll_of_castsFrom_eq_nil hl h
  · rw [if_pos hl]

/-- An attempt keeps every operand typed. -/
theorem isTyped_attempt {f : Form} {os : List Operand} (h : ∀ o ∈ os, o.isTyped = true) :
    ∀ o ∈ (f.attempt os).operands, o.isTyped = true := by
  unfold attempt
  split
  · exact h
  · split
    · exact h
    · exact isTyped_convertAll h

/-- Forms that are skipped without a cast leave no trace: what is tried in turn comes to what one
    form comes to alone. -/
theorem attemptInTurn_of_castsOfSkipped_eq_nil {forms : List Form} {os : List Operand}
    (h : castsOfSkipped forms os = []) :
    if (attemptInTurn forms os).accepted = true then
      ∃ f ∈ forms, f.attempt os = attemptInTurn forms os
    else ∀ f ∈ forms, (f.attempt os).accepted = false := by
  induction forms with
  | nil => simp [attemptInTurn]
  | cons f rest ih =>
    unfold castsOfSkipped at h
    unfold attemptInTurn
    cases hacc : (f.attempt os).accepted with
    | true =>
      simp only [if_true, hacc]
      exact ⟨f, by simp, rfl⟩
    | false =>
      simp only [hacc, Bool.false_eq_true, if_false, List.append_eq_nil_iff] at h ⊢
      obtain ⟨hnone, hrest⟩ := h
      -- `f` recorded nothing, so the rest is tried on the operands as written.
      have hsame := operands_attempt_of_casts_eq_nil hnone
      rw [hsame] at hrest ⊢
      rw [hnone, List.nil_append]
      have hih := ih hrest
      split at hih
      · rename_i hr
        rw [if_pos hr]
        obtain ⟨g, hg, he⟩ := hih
        exact ⟨g, by simp [hg], he⟩
      · rename_i hr
        rw [if_neg hr]
        intro g hg
        rcases List.mem_cons.mp hg with rfl | hg
        · exact hacc
        · exact hih g hg

/-- A choice comes to one of its forms when one fits as written, and when no form that is skipped
    records a cast. -/
theorem choosesOne_of_no_trace {forms : List Form} {os : List Operand}
    (h : someFits forms os = true ∨ castsOfSkipped forms os = []) : ChoosesOne forms os := by
  unfold ChoosesOne choose
  cases hs : someFits forms os with
  | true =>
    simp only [if_true]
    obtain ⟨f, hf, hfits⟩ := List.any_eq_true.mp hs
    exact ⟨f, hf, attempt_of_fits hfits⟩
  | false =>
    have hnil : castsOfSkipped forms os = [] := by simpa [hs] using h
    simpa using attemptInTurn_of_castsOfSkipped_eq_nil hnil

end Form

/-! ### The check of a choice -/

namespace Trial

variable {t : Trial} {s : DetachedCall} {r : Except Fault Bool × DetachedCall}

/-- The answer is `true` exactly when the trial accepts. -/
theorem Describes.answer_iff (h : t.Describes s r) : r.1 = .ok true ↔ t.accepted = true := by
  obtain ⟨-, -, ha⟩ := h
  cases hacc : t.accepted with
  | true => simpa [hacc] using ha
  | false =>
    rw [hacc] at ha
    rcases ha with ha | ⟨e, -, ha⟩
    · simp [ha]
    · simp [ha]

end Trial

namespace DetachedCall

open Form

variable (operator : String) {forms : List Form} {s : DetachedCall}

/-- As written, a choice of forms says whether one of them fits. -/
theorem anyStrict_forms {engine : CoercionEngine} (ht : ∀ o ∈ s.operands, o.isTyped = true) :
    Signature.anyStrict (view operator true engine) (forms.map signature) s =
      (.ok (someFits forms s.operands), s) := by
  induction forms with
  | nil => rfl
  | cons f rest ih =>
    have hf := tolerant_familiesStrict operator true engine (f := f) ht
    rw [List.map_cons, Signature.anyStrict, signature, Signature.checkStrict,
      Checking.bind_of_ok hf]
    cases hfits : f.fits true s.operands with
    | true => simp [someFits, hfits]
    | false =>
      simp only [Bool.false_eq_true, if_false]
      rw [ih]
      simp [someFits, hfits]

/-- With conversion, forms are tried in turn; the answer is then whether one has accepted. -/
theorem describes_attemptInTurn (ht : ∀ o ∈ s.operands, o.isTyped = true) :
    ∃ s', Signature.anyCheck (view operator true .implicitCasts) (forms.map signature) s =
        (.ok (attemptInTurn forms s.operands).accepted, s') ∧
      s'.operands = (attemptInTurn forms s.operands).operands ∧
      s'.casts = s.casts ++ (attemptInTurn forms s.operands).casts := by
  induction forms generalizing s with
  | nil => exact ⟨s, rfl, rfl, by simp [attemptInTurn]⟩
  | cons f rest ih =>
    obtain ⟨hops, hcasts, hanswer⟩ := describes_attempt operator (f := f) ht
    -- The state that the first form leaves, and what the tolerant trial answers there.
    cases hr : f.signature.check (view operator true .implicitCasts) s with
    | mk r s₁ =>
    rw [hr] at hops hcasts hanswer
    simp only at hops hcasts hanswer
    have htol : (f.signature.check (view operator true .implicitCasts)).tolerant s =
        (.ok (f.attempt s.operands).accepted, s₁) := by
      cases hacc : (f.attempt s.operands).accepted with
      | true =>
        rw [hacc] at hanswer
        exact Checking.tolerant_eq_ok_iff.mpr (.inl (by rw [hr]; exact congrArg (·, s₁) hanswer))
      | false =>
        rw [hacc] at hanswer
        rcases hanswer with ha | ⟨e, he, ha⟩
        · exact Checking.tolerant_eq_ok_iff.mpr (.inl (by rw [hr, ha]))
        · exact Checking.tolerant_eq_ok_iff.mpr (.inr ⟨rfl, e, he, by rw [hr, ha]⟩)
    rw [List.map_cons, Signature.anyCheck, Checking.bind_of_ok htol]
    unfold attemptInTurn
    cases hacc : (f.attempt s.operands).accepted with
    | true => exact ⟨s₁, by simp [hacc], by simpa [hacc] using hops, by simpa [hacc] using hcasts⟩
    | false =>
      have ht₁ : ∀ o ∈ s₁.operands, o.isTyped = true := by
        rw [hops]
        exact isTyped_attempt ht
      obtain ⟨s₂, hrun, hops₂, hcasts₂⟩ := ih ht₁
      rw [hops] at hrun hops₂ hcasts₂
      refine ⟨s₂, ?_, ?_, ?_⟩
      · simpa [hacc] using hrun
      · simpa [hacc] using hops₂
      · simpa [hacc, hcasts] using hcasts₂

/-- The check of a choice of forms, with the standard conversions, is `Form.choose`. -/
theorem describes_choose (forms : List Form) (ht : ∀ o ∈ s.operands, o.isTyped = true) :
    (choose forms s.operands).Describes s
      ((Signature.oneOf (forms.map signature)).check (view operator true .implicitCasts) s) := by
  unfold choose Signature.check
  rw [Checking.bind_of_ok (anyStrict_forms operator ht)]
  cases hs : someFits forms s.operands with
  | true => exact ⟨rfl, by simp, rfl⟩
  | false =>
    obtain ⟨s', hrun, hops, hcasts⟩ := describes_attemptInTurn operator ht
    simp only [Bool.false_eq_true, if_false]
    rw [Checking.bind_of_ok hrun]
    cases hacc : (attemptInTurn forms s.operands).accepted with
    | true => exact ⟨hops, hcasts, by simp [hacc]⟩
    | false =>
      -- No form is left, and the refusal changes nothing.
      obtain ⟨e, he, hx⟩ : ∃ e : Fault, e.isOperandFault = true ∧
          ((view operator true .implicitCasts).mismatch
            ((Signature.oneOf (forms.map signature)).allowed operator) :
              Checking DetachedCall Bool) s' = (.error e, s') :=
        ⟨_, rfl, mismatch_view operator true .implicitCasts _ s'⟩
      simp only [Bool.false_eq_true, if_false, view_operator]
      rw [hx]
      exact ⟨hops, hcasts, by simp [hacc, he]⟩

/-! ### When a choice is the OR of its alternatives -/

/-- The choice means the OR of its alternatives on a call. It answers `true` exactly when some
    alternative alone does so on the call as written; and then it leaves the operands, and the casts
    recorded, as one such alternative alone leaves them. -/
def ActsAsOr (c : CallView DetachedCall) (alternatives : List Signature) (s : DetachedCall) : Prop :=
  let whole := (Signature.oneOf alternatives).check c s
  (whole.1 = .ok true ↔ ∃ a ∈ alternatives, (a.check c s).1 = .ok true) ∧
    (whole.1 = .ok true → ∃ a ∈ alternatives, (a.check c s).1 = .ok true ∧
      whole.2.operands = (a.check c s).2.operands ∧ whole.2.casts = (a.check c s).2.casts)

/-- On a call whose operands have types, a choice of forms is the OR of its alternatives exactly when
    it comes to what one form comes to alone. -/
theorem actsAsOr_iff_choosesOne (forms : List Form) (s : DetachedCall)
    (ht : ∀ o ∈ s.operands, o.isTyped = true) :
    ActsAsOr (view operator true .implicitCasts) (forms.map signature) s ↔
      ChoosesOne forms s.operands := by
  have hwhole := describes_choose operator forms ht
  have hone := fun f : Form => describes_attempt operator (f := f) ht
  have hanswer := fun f : Form => (hone f).answer_iff
  unfold ActsAsOr ChoosesOne
  simp only [List.mem_map, exists_exists_and_eq_and, hwhole.answer_iff, hanswer]
  cases hacc : (choose forms s.operands).accepted with
  | true =>
    simp only [true_iff, if_true, forall_const]
    constructor
    · rintro ⟨-, f, hf, ha, hops, hcasts⟩
      rw [hwhole.1, (hone f).1] at hops
      rw [hwhole.2.1, (hone f).2.1] at hcasts
      refine ⟨f, hf, ?_⟩
      have hcasts := List.append_cancel_left hcasts
      cases hf : f.attempt s.operands
      cases hc : choose forms s.operands
      simp_all
    · rintro ⟨f, hf, he⟩
      have ha : (f.attempt s.operands).accepted = true := by rw [he, hacc]
      refine ⟨⟨f, hf, ha⟩, f, hf, ha, ?_, ?_⟩
      · rw [hwhole.1, (hone f).1, he]
      · rw [hwhole.2.1, (hone f).2.1, he]
  | false => simp

/-- What a choice of forms does on a call whose operands have types. Its check is `Form.choose`; it
    is the OR of its alternatives exactly when that comes to what one form comes to alone; and this
    is so whenever some form fits as written or no form that is skipped has recorded a cast. -/
theorem oneOf_meaning (forms : List Form) (s : DetachedCall)
    (ht : ∀ o ∈ s.operands, o.isTyped = true) :
    (choose forms s.operands).Describes s
        ((Signature.oneOf (forms.map signature)).check (view operator true .implicitCasts) s) ∧
      (ActsAsOr (view operator true .implicitCasts) (forms.map signature) s ↔
        ChoosesOne forms s.operands) ∧
      (someFits forms s.operands = true ∨ castsOfSkipped forms s.operands = [] →
        ActsAsOr (view operator true .implicitCasts) (forms.map signature) s) := by
  refine ⟨describes_choose operator forms ht, actsAsOr_iff_choosesOne operator forms s ht, ?_⟩
  intro hclean
  exact (actsAsOr_iff_choosesOne operator forms s ht).mpr (choosesOne_of_no_trace hclean)

/-- A choice of `(CHARACTER, INTEGER)` and `(CHARACTER)` on one date: the first form has another
    length, the second one converts the date, and nothing else is recorded. -/
theorem oneOf_meaning_of_date :
    (∀ o ∈ [Operand.typed (.notNull .date)], o.isTyped = true) ∧
      ActsAsOr (view "F" true .implicitCasts)
        [.required [.character, .integer], .required [.character]]
        { operands := [.typed (.notNull .date)] } := by
  have ht : ∀ o ∈ [Operand.typed (.notNull .date)], o.isTyped = true := by decide
  refine ⟨ht, ?_⟩
  exact (oneOf_meaning "F" [⟨[.character, .integer], fun _ => false⟩,
    ⟨[.character], fun _ => false⟩] { operands := [.typed (.notNull .date)] } ht).2.2
      (.inr (by decide))

/-- A skipped form can leave casts behind. `(CHARACTER, BINARY)` turns the interval into a string and
    is then refused for the integer; `(INTERVAL_YEAR_MONTH, CHARACTER)`, which accepts the call
    alone, now finds a string where it wants the interval. -/
theorem oneOf_not_actsAsOr :
    ¬ ActsAsOr (view "F" true .implicitCasts)
      [.required [.character, .binary], .required [.intervalYearMonth, .character]]
      { operands := [.typed (.notNull .intervalYear), .typed (.notNull .integer)] } := by
  intro h
  have hone : ChoosesOne [⟨[.character, .binary], fun _ => false⟩,
      ⟨[.intervalYearMonth, .character], fun _ => false⟩]
      [.typed (.notNull .intervalYear), .typed (.notNull .integer)] :=
    (actsAsOr_iff_choosesOne "F" [⟨[.character, .binary], fun _ => false⟩,
      ⟨[.intervalYearMonth, .character], fun _ => false⟩]
      { operands := [.typed (.notNull .intervalYear), .typed (.notNull .integer)] }
      (by decide)).mp h
  revert hone
  decide

end DetachedCall

end SqlTyping
