import SqlTyping.Proofs.Signature.Verdicts

namespace SqlTyping

/-!
# Operands that a signature ignores

An operand where the family is IGNORE is accepted without a look. Two calls that differ only in such
operands are compared here:

* `SameOutcome` — checks end with the same answer, or with faults of one kind;
* `AgreeOffIgnored` — operands are the same wherever the family is not IGNORE;
* `Form.verdictFrom_of_agree`, `Form.fitsFrom_of_agree`, `Form.castsFrom_of_agree` — ignored operands
  have no part in the verdict, nor in the casts;
* `DetachedCall.ignored_operands` — the check of a call as written never depends on them; the whole
  check does exactly when the engine is asked and only one of the calls has all its types.
-/

/-- The faults have the same cause, up to its details. -/
def Fault.SameKind (e e' : Fault) : Prop := e.ctorIdx = e'.ctorIdx

/-- The same answer, or faults of one kind. -/
def SameOutcome : Except Fault Bool → Except Fault Bool → Prop
  | .ok b, .ok b' => b = b'
  | .error e, .error e' => e.SameKind e'
  | _, _ => False

theorem SameOutcome.symm {r r' : Except Fault Bool} (h : SameOutcome r r') : SameOutcome r' r := by
  cases r with
  | ok b =>
    cases r' with
    | ok b' => exact Eq.symm h
    | error e' => exact h
  | error e =>
    cases r' with
    | ok b' => exact h
    | error e' => exact Eq.symm h

/-- As many operands, which differ only where the family is IGNORE. -/
def DifferAtIgnored (positions : List Family) (os os' : List Operand) : Prop :=
  os.length = os'.length ∧
    ∀ index : Nat, os[index]? ≠ os'[index]? → positions[index]? = some .ignore

/-- One operand for each family, the same in both lists unless the family is IGNORE. -/
inductive AgreeOffIgnored : List Family → List Operand → List Operand → Prop
  | nil : AgreeOffIgnored [] [] []
  | cons {family : Family} {rest : List Family} {o o' : Operand} {os os' : List Operand}
    (hfirst : family ≠ .ignore → o = o') (hrest : AgreeOffIgnored rest os os') :
    AgreeOffIgnored (family :: rest) (o :: os) (o' :: os')

/-- Operands that are as many as the families differ at ignored places alone when they agree at the
    others. -/
theorem DifferAtIgnored.agree {positions : List Family} {os os' : List Operand}
    (h : DifferAtIgnored positions os os') (hl : positions.length = os.length) :
    AgreeOffIgnored positions os os' := by
  obtain ⟨hlength, hdiffer⟩ := h
  induction positions generalizing os os' with
  | nil =>
    obtain rfl := List.length_eq_zero_iff.mp hl.symm
    obtain rfl := List.length_eq_zero_iff.mp hlength.symm
    exact .nil
  | cons family rest ih =>
    cases os with
    | nil => cases hl
    | cons o os =>
      cases os' with
      | nil => cases hlength
      | cons o' os' =>
        refine .cons (fun hfamily => ?_) (ih (Nat.succ.inj hl) (Nat.succ.inj hlength) fun index hne =>
          hdiffer (index + 1) hne)
        by_cases heq : o = o'
        · exact heq
        · exact absurd (Option.some.inj (hdiffer 0 fun h => heq (Option.some.inj h))) hfamily

/-- An ignored operand has no conversion. -/
theorem Operand.target?_ignore (o : Operand) : o.target? .ignore = none := by
  have hnone : ∀ type : DataType, implicitCast? type .ignore = none := by
    intro type
    unfold implicitCast?
    split
    · rfl
    · rfl
  cases o with
  | typed type => exact hnone type
  | null => exact hnone .null
  | _ => rfl

namespace Form

variable {operator : String} {coerces : Bool} {omittable : Nat → Bool} {families : List Family}
  {os os' : List Operand}

/-- Ignored operands have no part in the verdict, but for the words of the refusal. -/
theorem verdictFrom_of_agree (h : AgreeOffIgnored families os os') (start : Nat) (refusal : Fault) :
    verdictFrom operator coerces refusal omittable start families os =
      verdictFrom operator coerces refusal omittable start families os' := by
  induction h generalizing start with
  | nil => rfl
  | @cons family _ o o' _ _ hfirst _ ih =>
    rw [verdictFrom, verdictFrom, ih]
    by_cases hfamily : family = .ignore
    · simp [hfamily, Operand.fits]
    · rw [hfirst hfamily]

theorem fitsFrom_of_agree (h : AgreeOffIgnored families os os') (start : Nat) :
    fitsFrom coerces omittable start families os =
      fitsFrom coerces omittable start families os' := by
  induction h generalizing start with
  | nil => rfl
  | @cons family _ o o' _ _ hfirst _ ih =>
    rw [fitsFrom, fitsFrom, ih]
    by_cases hfamily : family = .ignore
    · simp [hfamily, Operand.fits]
    · rw [hfirst hfamily]

/-- Ignored operands have no part in the casts. -/
theorem castsFrom_of_agree (h : AgreeOffIgnored families os os') (start : Nat) :
    castsFrom start families os = castsFrom start families os' := by
  induction h generalizing start with
  | nil => rfl
  | @cons family _ o o' _ _ hfirst _ ih =>
    rw [castsFrom, castsFrom, ih]
    by_cases hfamily : family = .ignore
    · rw [hfamily, o.target?_ignore, o'.target?_ignore]
    · rw [hfirst hfamily]

/-- Conversion keeps operands the same where they are. -/
theorem agree_convertAll (h : AgreeOffIgnored families os os') :
    AgreeOffIgnored families (convertAll families os) (convertAll families os') := by
  induction h with
  | nil => exact .nil
  | cons hfirst _ ih => exact .cons (fun hfamily => by rw [hfirst hfamily]) ih

/-- The verdicts on two calls with other words for the refusal are good, or stop with faults of one
    kind. -/
theorem verdictFrom_cases (start : Nat) {refusal refusal' : Fault}
    (hrefusal : refusal.isOperandFault = true) (hrefusal' : refusal'.isOperandFault = true)
    (hkind : refusal.SameKind refusal') :
    (verdictFrom operator coerces refusal omittable start families os = .ok () ∧
      verdictFrom operator coerces refusal' omittable start families os = .ok ()) ∨
    ∃ e e', verdictFrom operator coerces refusal omittable start families os = .error e ∧
      verdictFrom operator coerces refusal' omittable start families os = .error e' ∧
      e.SameKind e' ∧ e.isOperandFault = e'.isOperandFault := by
  induction families generalizing start os with
  | nil => exact .inl ⟨rfl, rfl⟩
  | cons family rest ih =>
    cases os with
    | nil => exact .inl ⟨rfl, rfl⟩
    | cons o os =>
      rw [verdictFrom, verdictFrom]
      by_cases hfits : o.fits coerces family (omittable start) = true
      · rw [if_pos hfits, if_pos hfits]
        exact ih (start + 1)
      · rw [if_neg hfits, if_neg hfits]
        refine .inr ⟨_, _, rfl, rfl, ?_⟩
        cases o with
        | unresolved name => exact ⟨rfl, rfl⟩
        | null => exact ⟨rfl, rfl⟩
        | typed type => exact ⟨hkind, hrefusal.trans hrefusal'.symm⟩
        | omitted => exact ⟨hkind, hrefusal.trans hrefusal'.symm⟩

variable (operator coerces) in
/-- The verdicts on calls that differ in ignored operands are good, or stop with faults of one kind. -/
theorem verdict_cases {f : Form} (h : AgreeOffIgnored f.positions os os') :
    (f.verdict operator coerces os = .ok () ∧ f.verdict operator coerces os' = .ok ()) ∨
    ∃ e e', f.verdict operator coerces os = .error e ∧ f.verdict operator coerces os' = .error e' ∧
      e.SameKind e' ∧ e.isOperandFault = e'.isOperandFault := by
  unfold verdict
  rw [verdictFrom_of_agree h]
  exact verdictFrom_cases 0 rfl rfl rfl

end Form

namespace DetachedCall

open Form

variable {operator : String} {f : Form} {s s' : DetachedCall}

/-- Two refused calls do not end alike when one of them has all its types and the other has not. -/
theorem not_sameOutcome_of_typed {e e' : Fault} (hl : f.positions.length = s.operands.length)
    (hl' : f.positions.length = s'.operands.length)
    (hv : f.verdict operator true s.operands = .error e) (he : e.isOperandFault = true)
    (hv' : f.verdict operator true s'.operands = .error e') (he' : e'.isOperandFault = true)
    (ht : ∀ o ∈ s.operands, o.isTyped = true) (ht' : ¬ ∀ o ∈ s'.operands, o.isTyped = true) :
    ¬ SameOutcome (f.signature.check (view operator true .implicitCasts) s).1
        (f.signature.check (view operator true .implicitCasts) s').1 := by
  obtain ⟨name, hcheck'⟩ := familiesCheck_of_untyped .implicitCasts hl' hv' he' ht'
  unfold Form.signature Signature.check
  rw [familiesCheck_of_typed hl hv he ht, hcheck']
  by_cases hfits : f.fits true (convertAll f.positions s.operands) = true
  · rw [if_pos hfits]
    exact fun h => h
  · rw [if_neg hfits]
    exact fun h => absurd (show (0 : Nat) = _ from h) (by simp [Fault.ctorIdx])

/-- Calls that have been refused for their operands as written end alike, with the same casts, when both have
    the types of all their operands or neither has. -/
theorem sameCheck_iff_of_refused {e e' : Fault} (hl : f.positions.length = s.operands.length)
    (hl' : f.positions.length = s'.operands.length)
    (hagree : AgreeOffIgnored f.positions s.operands s'.operands) (hcasts : s.casts = s'.casts)
    (hv : f.verdict operator true s.operands = .error e) (he : e.isOperandFault = true)
    (hv' : f.verdict operator true s'.operands = .error e') (he' : e'.isOperandFault = true) :
    let check := f.signature.check (view operator true .implicitCasts)
    (SameOutcome (check s).1 (check s').1 ∧ (check s).2.casts = (check s').2.casts) ↔
      ((∀ o ∈ s.operands, o.isTyped = true) ↔ ∀ o ∈ s'.operands, o.isTyped = true) := by
  intro check
  by_cases ht : ∀ o ∈ s.operands, o.isTyped = true
  · by_cases ht' : ∀ o ∈ s'.operands, o.isTyped = true
    · -- Both calls are converted, in the same way.
      have hcheck : check s = _ := familiesCheck_of_typed hl hv he ht
      have hcheck' : check s' = _ := familiesCheck_of_typed hl' hv' he' ht'
      have hfits : f.fits true (convertAll f.positions s.operands) =
          f.fits true (convertAll f.positions s'.operands) :=
        fitsFrom_of_agree (agree_convertAll hagree) 0
      rw [hcheck, hcheck', casts_afterCasts, casts_afterCasts, hfits, hcasts,
        castsFrom_of_agree hagree]
      refine iff_of_true ⟨?_, rfl⟩ (iff_of_true ht ht')
      by_cases hafter : f.fits true (convertAll f.positions s'.operands) = true
      · rw [if_pos hafter, if_pos hafter]
        rfl
      · rw [if_neg hafter, if_neg hafter]
        rfl
    · refine iff_of_false (fun h => ?_) fun h => ht' (h.mp ht)
      exact not_sameOutcome_of_typed hl hl' hv he hv' he' ht ht' h.1
  · by_cases ht' : ∀ o ∈ s'.operands, o.isTyped = true
    · refine iff_of_false (fun h => ?_) fun h => ht (h.mpr ht')
      exact not_sameOutcome_of_typed hl' hl hv' he' hv he ht' ht h.1.symm
    · -- Neither call gets to the engine.
      obtain ⟨name, hcheck⟩ := familiesCheck_of_untyped .implicitCasts hl hv he ht
      obtain ⟨name', hcheck'⟩ := familiesCheck_of_untyped .implicitCasts hl' hv' he' ht'
      have hcheck : check s = _ := hcheck
      have hcheck' : check s' = _ := hcheck'
      rw [hcheck, hcheck']
      exact iff_of_true ⟨rfl, hcasts⟩ (iff_of_false ht ht')

/-- **What ignored operands have to do with a check.** Two calls that differ only in operands whose
    family is IGNORE end alike when they are checked as written, and stay as they are. The whole check,
    with the standard engine, ends alike and records the same casts exactly when it does not get to the
    engine, or both calls have the types of all their operands, or neither has: the engine is handed the
    types of all operands, the ignored ones among them. -/
theorem ignored_operands (coerces : Bool)
    (hdiffer : DifferAtIgnored f.positions s.operands s'.operands) (hcasts : s.casts = s'.casts) :
    let c := view operator coerces .implicitCasts
    let strict := f.signature.checkStrict c
    let check := f.signature.check c
    (SameOutcome (strict s).1 (strict s').1 ∧ (strict s).2 = s ∧ (strict s').2 = s') ∧
    ((SameOutcome (check s).1 (check s').1 ∧ (check s).2.casts = (check s').2.casts) ↔
      (coerces = true → (∃ e, (strict s).1 = .error e ∧ e.isOperandFault = true) →
        ((∀ o ∈ s.operands, o.isTyped = true) ↔ ∀ o ∈ s'.operands, o.isTyped = true))) := by
  intro c strict check
  by_cases hl : f.positions.length = s.operands.length
  · have hl' : f.positions.length = s'.operands.length := hl.trans hdiffer.1
    have hagree : AgreeOffIgnored f.positions s.operands s'.operands := hdiffer.agree hl
    have hstrict : strict s = _ := familiesStrict_eq hl
    have hstrict' : strict s' = _ := familiesStrict_eq hl'
    rcases verdict_cases operator coerces hagree with
      ⟨hv, hv'⟩ | ⟨e, e', hv, hv', hkind, hop⟩
    · -- Both calls fit as written.
      have hcheck : check s = _ := familiesCheck_of_accepted hl hv
      have hcheck' : check s' = _ := familiesCheck_of_accepted hl' hv'
      rw [hv] at hstrict
      rw [hv'] at hstrict'
      rw [hstrict, hstrict', hcheck, hcheck']
      refine ⟨⟨rfl, rfl, rfl⟩, iff_of_true ⟨rfl, hcasts⟩ ?_⟩
      rintro - ⟨e, he, -⟩
      cases he
    rw [hv] at hstrict
    rw [hv'] at hstrict'
    rw [hstrict, hstrict']
    refine ⟨⟨hkind, rfl, rfl⟩, ?_⟩
    by_cases hends : e.isOperandFault = false ∨ coerces = false
    · -- The engine is not asked.
      have hcheck : check s = _ := familiesCheck_of_fault hl hv hends
      have hcheck' : check s' = _ := familiesCheck_of_fault hl' hv' (hop ▸ hends)
      rw [hcheck, hcheck']
      refine iff_of_true ⟨hkind, hcasts⟩ ?_
      rintro hc ⟨e₁, he₁, hop₁⟩
      cases he₁
      simp [hc, hop₁] at hends
    simp only [not_or, Bool.not_eq_false] at hends
    obtain ⟨he, rfl⟩ := hends
    have he' : e'.isOperandFault = true := hop ▸ he
    have hreach : ∃ e₁, ((Except.error e : Except Fault Unit).map fun _ => true) = .error e₁ ∧
        e₁.isOperandFault = true := ⟨e, rfl, he⟩
    exact (sameCheck_iff_of_refused hl hl' hagree hcasts hv he hv' he').trans
      ⟨fun h _ _ => h, fun h => h rfl hreach⟩
  · -- The signature is for neither call.
    have hl' : f.positions.length ≠ s'.operands.length := hdiffer.1 ▸ hl
    have hstrict : strict s = _ := familiesStrict_of_length_ne _ _ _ hl
    have hstrict' : strict s' = _ := familiesStrict_of_length_ne _ _ _ hl'
    have hcheck : check s = _ := familiesCheck_of_length_ne hl
    have hcheck' : check s' = _ := familiesCheck_of_length_ne hl'
    rw [hstrict, hstrict', hcheck, hcheck']
    refine ⟨⟨rfl, rfl, rfl⟩, iff_of_true ⟨rfl, hcasts⟩ ?_⟩
    rintro - ⟨e, he, -⟩
    cases he

/-- Where all types are there, an ignored NULL literal is as good as an ignored BOOLEAN operand: the
    other operand is converted in both calls. -/
theorem ignored_operands_null :
    let s : DetachedCall := ⟨[.typed (.notNull .boolean), .typed (.notNull .integer)], [], []⟩
    let s' : DetachedCall := ⟨[.null, .typed (.notNull .integer)], [], []⟩
    let f : Form := ⟨[.ignore, .character], fun _ => false⟩
    let check := f.signature.check (view "F" true .implicitCasts)
    DifferAtIgnored f.positions s.operands s'.operands ∧ SameOutcome (check s).1 (check s').1 ∧
      (check s).2.casts = [(1, .notNull .varchar)] ∧ (check s).2.casts = (check s').2.casts := by
  intro s s' f check
  have hdiffer : DifferAtIgnored f.positions s.operands s'.operands := by
    refine ⟨rfl, fun index hne => ?_⟩
    cases index with
    | zero => rfl
    | succ index => exact absurd rfl hne
  have htyped : (∀ o ∈ s.operands, o.isTyped = true) ↔ ∀ o ∈ s'.operands, o.isTyped = true :=
    iff_of_true (by decide) (by decide)
  obtain ⟨houtcome, hcasts⟩ :=
    (@ignored_operands "F" f s s' true hdiffer rfl).2.mpr fun _ _ => htyped
  exact ⟨hdiffer, houtcome, rfl, hcasts⟩

/-- An ignored column that cannot be found stops a call that is accepted with any typed operand in its
    place: the other operand has to be converted, and the engine is handed the types of both. -/
theorem ignored_operand_derived :
    let s : DetachedCall := ⟨[.typed (.notNull .boolean), .typed (.notNull .integer)], [], []⟩
    let s' : DetachedCall := ⟨[.unresolved "X", .typed (.notNull .integer)], [], []⟩
    let check := (Signature.required [.ignore, .character]).check (view "F" true .implicitCasts)
    DifferAtIgnored [.ignore, .character] s.operands s'.operands ∧
      (check s).1 = .ok true ∧ (check s).2.casts = [(1, .notNull .varchar)] ∧
      (check s').1 = .error (.columnNotFound "X") ∧ (check s').2.casts = [] ∧
      ¬ SameOutcome (check s).1 (check s').1 := by
  intro s s' check
  refine ⟨⟨rfl, fun index hne => ?_⟩, rfl, rfl, rfl, rfl, fun h => h⟩
  cases index with
  | zero => rfl
  | succ index => exact absurd rfl hne

end DetachedCall

end SqlTyping
