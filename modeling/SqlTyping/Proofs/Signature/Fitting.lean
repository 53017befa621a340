import SqlTyping.Proofs.Keeping

namespace SqlTyping

/-!
# What an accepted call looks like

* `Legal` — one operand is legal for a family, from what is known of it;
* `CallView.Fits` — the operands of a call are legal for a list of families, one by one;
* `CallView.Settles` — looking at the type of an operand changes nothing that is already known, and
  makes the type known;
* `CallView.Settles.accepts_of_check` — a signature whose check answers `true` has a leaf that the
  operands fit in the state in which the check ends.
-/

/-- An operand is legal for a family: the family looks at nothing; or the operand is left out where
    it may be; or it has some type other than CURSOR where every type will do; or it is the NULL
    literal and may be converted; or its type is unknown or in the family. -/
inductive Legal (coerces mayOmit omitted isNull : Bool) (typed : DataType → Prop) : Family → Prop
  | unchecked : Legal coerces mayOmit omitted isNull typed .ignore
  | omitted {family : Family} (ho : omitted = true) (hm : mayOmit = true) :
    Legal coerces mayOmit omitted isNull typed family
  | any {type : DataType} (ho : omitted = false) (ht : typed type) (hc : type.name ≠ .cursor) :
    Legal coerces mayOmit omitted isNull typed .any
  | null {family : Family} (ho : omitted = false) (ha : family ≠ .any) (hi : family ≠ .ignore)
    (hn : isNull = true) (hc : coerces = true) : Legal coerces mayOmit omitted isNull typed family
  | member {family : Family} {type : DataType} (ho : omitted = false) (ha : family ≠ .any)
    (hi : family ≠ .ignore) (hn : isNull = false) (ht : typed type)
    (hm : type.name = .any ∨ family.accepts type.name = true) :
    Legal coerces mayOmit omitted isNull typed family

/-- What is legal stays legal when as much is known of operands that are not left out, and when a NULL
    literal may still be converted. -/
theorem Legal.imp {coerces coerces' mayOmit omitted isNull : Bool} {typed typed' : DataType → Prop}
    {family : Family} (h : Legal coerces mayOmit omitted isNull typed family)
    (ht : omitted = false → ∀ type, typed type → typed' type)
    (hn : isNull = true → coerces = true → coerces' = true) :
    Legal coerces' mayOmit omitted isNull typed' family := by
  cases h with
  | unchecked => exact .unchecked
  | omitted ho hm => exact .omitted ho hm
  | any ho h hc => exact .any ho (ht ho _ h) hc
  | null ho ha hi h hc => exact .null ho ha hi h (hn h hc)
  | member ho ha hi hn' h hm => exact .member ho ha hi hn' (ht ho _ h) hm

/-- Whether an operand may be left out depends neither on types nor on conversions. -/
theorem Legal.of_omitted {coerces coerces' mayOmit isNull isNull' : Bool} {typed typed' : DataType → Prop}
    {family : Family} (h : Legal coerces mayOmit true isNull typed family) :
    Legal coerces' mayOmit true isNull' typed' family := by
  cases h with
  | unchecked => exact .unchecked
  | omitted _ hm => exact .omitted rfl hm
  | any hfalse => cases hfalse
  | null hfalse => cases hfalse
  | member hfalse => cases hfalse

/-- What is legal stays legal when more is known. -/
theorem Legal.mono {coerces mayOmit omitted isNull : Bool} {typed typed' : DataType → Prop}
    {family : Family} (h : Legal coerces mayOmit omitted isNull typed family)
    (ht : ∀ type, typed type → typed' type) : Legal coerces mayOmit omitted isNull typed' family :=
  h.imp (fun _ => ht) fun _ hc => hc

section

variable {coerces mayOmit omitted isNull : Bool} {typed : DataType → Prop} {family : Family}

/-- An operand that is left out is legal where it may be. -/
theorem legal_omitted_iff (ho : omitted = true) (hi : family ≠ .ignore) :
    Legal coerces mayOmit omitted isNull typed family ↔ mayOmit = true := by
  refine ⟨fun h => ?_, .omitted ho⟩
  cases h with
  | unchecked => exact absurd rfl hi
  | omitted _ hm => exact hm
  | any ho' => exact absurd (ho.symm.trans ho') (by decide)
  | null ho' => exact absurd (ho.symm.trans ho') (by decide)
  | member ho' => exact absurd (ho.symm.trans ho') (by decide)

/-- Where every type will do, an operand has one other than CURSOR. -/
theorem legal_any_iff (ho : omitted = false) :
    Legal coerces mayOmit omitted isNull typed .any ↔ ∃ type, typed type ∧ type.name ≠ .cursor := by
  refine ⟨fun h => ?_, fun ⟨type, ht, hc⟩ => .any ho ht hc⟩
  cases h with
  | omitted ho' => exact absurd (ho.symm.trans ho') (by decide)
  | any _ ht hc => exact ⟨_, ht, hc⟩
  | null _ ha => exact absurd rfl ha
  | member _ ha => exact absurd rfl ha

/-- The NULL literal is legal for any other family when it may be converted. -/
theorem legal_null_iff (ho : omitted = false) (ha : family ≠ .any) (hi : family ≠ .ignore)
    (hn : isNull = true) : Legal coerces mayOmit omitted isNull typed family ↔ coerces = true := by
  refine ⟨fun h => ?_, .null ho ha hi hn⟩
  cases h with
  | unchecked => exact absurd rfl hi
  | omitted ho' => exact absurd (ho.symm.trans ho') (by decide)
  | any => exact absurd rfl ha
  | null _ _ _ _ hc => exact hc
  | member _ _ _ hn' => exact absurd (hn.symm.trans hn') (by decide)

/-- What is neither left out nor the NULL literal has a type that is unknown or in the family. -/
theorem legal_member_iff (ho : omitted = false) (ha : family ≠ .any) (hi : family ≠ .ignore)
    (hn : isNull = false) : Legal coerces mayOmit omitted isNull typed family ↔
      ∃ type, typed type ∧ (type.name = .any ∨ family.accepts type.name = true) := by
  refine ⟨fun h => ?_, fun ⟨type, ht, hm⟩ => .member ho ha hi hn ht hm⟩
  cases h with
  | unchecked => exact absurd rfl hi
  | omitted ho' => exact absurd (ho.symm.trans ho') (by decide)
  | any => exact absurd rfl ha
  | null _ _ _ hn' => exact absurd (hn.symm.trans hn') (by decide)
  | member _ _ _ _ ht hm => exact ⟨_, ht, hm⟩

end

/-- The signature is made of lists of families and choices alone. -/
def Signature.IsFinite (signature : Signature) : Prop :=
  ∀ least answer, Signature.openEnded least answer ∉ signature.leaves

/-- Whether the signature is an open-ended list of operands. -/
def Signature.isOpenEnded : Signature → Bool
  | .openEnded _ _ => true
  | _ => false

theorem Signature.isFinite_iff {signature : Signature} :
    signature.IsFinite ↔ ∀ leaf ∈ signature.leaves, leaf.isOpenEnded = false := by
  constructor
  · intro h leaf hleaf
    cases leaf with
    | openEnded least answer => exact absurd hleaf (h least answer)
    | _ => rfl
  · intro h least answer hleaf
    cases h _ hleaf

instance (signature : Signature) : Decidable signature.IsFinite :=
  decidable_of_iff _ Signature.isFinite_iff.symm

/-- A choice is made of lists of families and choices when its alternatives are. -/
theorem Signature.isFinite_cons {signature : Signature} {rest : List Signature} :
    (Signature.oneOf (signature :: rest)).IsFinite ↔
      signature.IsFinite ∧ (Signature.oneOf rest).IsFinite := by
  simp only [IsFinite, leaves, leavesOf, List.mem_append, not_or]
  exact ⟨fun h => ⟨fun l a => (h l a).1, fun l a => (h l a).2⟩, fun h l a => ⟨h.1 l a, h.2 l a⟩⟩

namespace CallView

variable {σ : Type}

/-- The operand at `index` is legal for a family. -/
def Admits (c : CallView σ) (known : σ → Nat → DataType → Prop) (s : σ) (index : Nat)
    (mayOmit : Bool) (family : Family) : Prop :=
  Legal c.coerces mayOmit (c.isDefault s index) (c.isNull s index) (known s index) family

/-- Every operand is legal for the family of its position; the first one stands at `start`. -/
def FitsFrom (c : CallView σ) (known : σ → Nat → DataType → Prop) (s : σ)
    (omittable : Nat → Bool) (start : Nat) (families : List Family) : Prop :=
  ∀ index family, families[index]? = some family →
    c.Admits known s (start + index) (omittable (start + index)) family

/-- The operands of a call fit a leaf of a signature that has as many positions. -/
def Accepts (c : CallView σ) (known : σ → Nat → DataType → Prop) (leaves : List Signature)
    (s : σ) : Prop :=
  ∃ positions omittable, Signature.families positions omittable ∈ leaves ∧
    positions.length = c.count s ∧ c.FitsFrom known s omittable 0 positions

/-- More leaves accept more. -/
theorem Accepts.of_leaves {c : CallView σ} {known : σ → Nat → DataType → Prop} {s : σ}
    {leaves leaves' : List Signature} (h : c.Accepts known leaves s)
    (hl : ∀ leaf ∈ leaves, leaf ∈ leaves') : c.Accepts known leaves' s := by
  obtain ⟨positions, omittable, hmem, hfit⟩ := h
  exact ⟨positions, omittable, hl _ hmem, hfit⟩

/-- Nothing that is known of the operands in `s` is lost in `s'`. -/
structure Refines (c : CallView σ) (known : σ → Nat → DataType → Prop) (s s' : σ) : Prop where
  count : c.count s' = c.count s
  isNull : ∀ index, c.isNull s' index = c.isNull s index
  isDefault : ∀ index, c.isDefault s' index = c.isDefault s index
  known : ∀ index type, known s index type → known s' index type

/-- The number of operands is fixed, and the leaves of that length are lists of families that the
    engine may be asked for. -/
structure AsksFor (c : CallView σ) (P : σ → Prop) (asked : List Family → Prop)
    (leaves : List Signature) : Prop where
  asked : ∀ positions omittable, Signature.families positions omittable ∈ leaves →
    ∀ s, P s → positions.length = c.count s → asked positions
  count : ∀ s s', P s → P s' → c.count s = c.count s'

theorem AsksFor.of_leaves {c : CallView σ} {P : σ → Prop} {asked : List Family → Prop}
    {leaves leaves' : List Signature} (h : c.AsksFor P asked leaves')
    (hl : ∀ leaf ∈ leaves, leaf ∈ leaves') : c.AsksFor P asked leaves where
  asked positions omittable hmem := h.asked positions omittable (hl _ hmem)
  count := h.count

/-- Under an invariant, looking at the type of an operand makes it known and loses nothing. -/
structure Settles (P : σ → Prop) (known : σ → Nat → DataType → Prop) (c : CallView σ) : Prop where
  keeps : ∀ index, (c.typeOf index).Keeps P
  refines : ∀ index s, P s → c.Refines known s (c.typeOf index s).2
  known : ∀ {index s type s'}, P s → c.typeOf index s = (.ok type, s') → known s' index type

variable {c : CallView σ} {P : σ → Prop} {known : σ → Nat → DataType → Prop} {s s' s'' : σ}

theorem Refines.refl (s : σ) : c.Refines known s s :=
  ⟨rfl, fun _ => rfl, fun _ => rfl, fun _ _ h => h⟩

theorem Refines.trans (h : c.Refines known s s') (h' : c.Refines known s' s'') :
    c.Refines known s s'' where
  count := h'.count.trans h.count
  isNull index := (h'.isNull index).trans (h.isNull index)
  isDefault index := (h'.isDefault index).trans (h.isDefault index)
  known index type hk := h'.known index type (h.known index type hk)

theorem Admits.refines {index : Nat} {mayOmit : Bool} {family : Family}
    (h : c.Admits known s index mayOmit family) (hr : c.Refines known s s') :
    c.Admits known s' index mayOmit family := by
  unfold Admits
  rw [hr.isDefault, hr.isNull]
  exact Legal.mono h (hr.known index)

theorem FitsFrom.refines {omittable : Nat → Bool} {start : Nat} {families : List Family}
    (h : c.FitsFrom known s omittable start families) (hr : c.Refines known s s') :
    c.FitsFrom known s' omittable start families :=
  fun index family hf => (h index family hf).refines hr

theorem Accepts.refines {leaves : List Signature} (h : c.Accepts known leaves s)
    (hr : c.Refines known s s') : c.Accepts known leaves s' := by
  obtain ⟨positions, omittable, hleaf, hcount, hfits⟩ := h
  exact ⟨positions, omittable, hleaf, hcount.trans hr.count.symm, hfits.refines hr⟩

/-- A refusal has no answer. -/
theorem mismatch_ne_ok {α : Type} {allowed : String} {a : α} :
    (c.mismatch allowed : Checking σ α) s ≠ (.ok a, s') := by
  intro h
  obtain ⟨text, s₁, -, hfail⟩ := Checking.bind_eq_ok_iff.mp h
  cases hfail

end CallView

namespace CallView.Settles

open Checking

variable {σ : Type} {c : CallView σ} {P : σ → Prop} {known : σ → Nat → DataType → Prop} {s s' : σ}

/-- An operand that passes its check is legal. -/
theorem admits_of_checkOperand (h : c.Settles P known) {positions : List Family}
    {omittable : Nat → Bool} {index : Nat} {family : Family} (hs : P s)
    (hok : Signature.checkOperand c positions omittable index family s = (.ok (), s')) :
    P s' ∧ c.Refines known s s' ∧ c.Admits known s' index (omittable index) family := by
  by_cases hi : family = .ignore
  · subst hi
    rw [Signature.checkOperand_ignore] at hok
    cases hok
    exact ⟨hs, .refl _, .unchecked⟩
  by_cases hd : c.isDefault s index = true
  · rw [Signature.checkOperand_of_omitted hi hd] at hok
    split at hok
    · rename_i hm
      cases hok
      exact ⟨hs, .refl _, .omitted hd hm⟩
    · exact absurd hok mismatch_ne_ok
  have hd : c.isDefault s index = false := by simpa using hd
  -- What is learned when the type of the operand is looked up.
  have hlook : ∀ type s₁, c.typeOf index s = (.ok type, s₁) →
      P s₁ ∧ c.Refines known s s₁ ∧ c.isDefault s₁ index = false ∧ known s₁ index type := by
    intro type s₁ ht
    have hk := h.keeps index s hs
    have hr := h.refines index s hs
    rw [ht] at hk hr
    exact ⟨hk, hr, by rw [hr.isDefault, hd], h.known hs ht⟩
  by_cases ha : family = .any
  · subst ha
    rw [Signature.checkOperand_any hd] at hok
    obtain ⟨type, s₁, ht, hok⟩ := bind_eq_ok_iff.mp hok
    obtain ⟨hs₁, hr, hd₁, hknown⟩ := hlook type s₁ ht
    split at hok
    · exact absurd hok mismatch_ne_ok
    · rename_i hc
      cases hok
      exact ⟨hs₁, hr, .any hd₁ hknown hc⟩
  by_cases hn : c.isNull s index = true
  · rw [Signature.checkOperand_of_null hi ha hd hn] at hok
    split at hok
    · rename_i hc
      cases hok
      exact ⟨hs, .refl _, .null hd ha hi hn hc⟩
    · cases hok
  have hn : c.isNull s index = false := by simpa using hn
  rw [Signature.checkOperand_of_written hi ha hd hn] at hok
  obtain ⟨type, s₁, ht, hok⟩ := bind_eq_ok_iff.mp hok
  obtain ⟨hs₁, hr, hd₁, hknown⟩ := hlook type s₁ ht
  split at hok
  · rename_i hm
    cases hok
    exact ⟨hs₁, hr, .member hd₁ ha hi (by rw [hr.isNull, hn]) hknown hm⟩
  · exact absurd hok mismatch_ne_ok

/-- Operands that pass their checks one after the other are all legal in the end. -/
theorem fitsFrom_of_checkFrom (h : c.Settles P known) {positions families : List Family}
    {omittable : Nat → Bool} {start : Nat} (hs : P s)
    (hok : Signature.checkFrom c positions omittable start families s = (.ok (), s')) :
    P s' ∧ c.Refines known s s' ∧ c.FitsFrom known s' omittable start families := by
  induction families generalizing start s with
  | nil =>
    cases hok
    exact ⟨hs, .refl _, fun index family hf => by simp at hf⟩
  | cons family rest ih =>
    obtain ⟨⟨⟩, s₁, hone, hrest⟩ := bind_eq_ok_iff.mp hok
    obtain ⟨hs₁, hr₁, hadmits⟩ := h.admits_of_checkOperand hs hone
    obtain ⟨hs', hr', hfits⟩ := ih hs₁ hrest
    refine ⟨hs', hr₁.trans hr', ?_⟩
    intro index f hf
    -- The first operand was legal before the others were looked at.
    cases index with
    | zero =>
      cases hf
      exact hadmits.refines hr'
    | succ index =>
      have := hfits index f hf
      rwa [show start + 1 + index = start + (index + 1) by omega] at this

variable {asked : List Family → Prop}

/-- A call as written is accepted by a list of families exactly of its length, which it fits. -/
theorem accepts_of_familiesStrict (h : c.Settles P known) {positions : List Family}
    {omittable : Nat → Bool} (hs : P s)
    (hok : Signature.familiesStrict c positions omittable s = (.ok true, s')) :
    c.Accepts known [.families positions omittable] s' := by
  unfold Signature.familiesStrict at hok
  rw [bind_of_ok (state_apply s)] at hok
  by_cases hl : positions.length = c.count s
  · rw [if_pos hl] at hok
    obtain ⟨⟨⟩, s₁, hall, hret⟩ := bind_eq_ok_iff.mp hok
    cases hret
    obtain ⟨-, hr, hfits⟩ := h.fitsFrom_of_checkFrom hs hall
    exact ⟨positions, omittable, by simp, by rw [hr.count, hl], hfits⟩
  · rw [if_neg hl] at hok
    cases hok

/-- With conversion, a list of families of the length of the call has no answer but for operands
    that fit it. -/
theorem accepts_of_familiesCheck (h : c.Settles P known) (hc : c.Keeps P asked) {b : Bool}
    {positions : List Family} {omittable : Nat → Bool}
    (hask : c.AsksFor P asked [.families positions omittable]) (hs : P s)
    (hl : positions.length = c.count s)
    (hok : Signature.familiesCheck c positions omittable s = (.ok b, s')) :
    c.Accepts known [.families positions omittable] s' := by
  unfold Signature.familiesCheck at hok
  rw [bind_of_ok (state_apply s), if_pos hl] at hok
  obtain ⟨fitted, s₁, htry, hok⟩ := bind_eq_ok_iff.mp hok
  have hs₁ : P s₁ := by
    have := (hc.familiesStrict positions omittable).tolerant s hs
    rwa [htry] at this
  cases fitted with
  | true =>
    cases hok
    rcases tolerant_eq_ok_iff.mp htry with htry | ⟨hfalse, -⟩
    · exact h.accepts_of_familiesStrict hs htry
    · cases hfalse
  | false =>
    simp only [Bool.false_eq_true, if_false] at hok
    -- Whatever the engine has done, all operands are checked once more.
    have hagain : ∀ s₂ converted, P s₂ → (do
        Signature.checkAll c positions omittable
        pure converted : Checking σ Bool) s₂ = (.ok b, s') →
        c.Accepts known [.families positions omittable] s' := by
      intro s₂ converted hs₂ hok
      obtain ⟨⟨⟩, s₃, hall, hret⟩ := bind_eq_ok_iff.mp hok
      cases hret
      obtain ⟨hs₃, -, hfits⟩ := h.fitsFrom_of_checkFrom hs₂ hall
      exact ⟨positions, omittable, by simp, hl.trans (hask.count s s' hs hs₃), hfits⟩
    by_cases hco : c.coerces = true
    · rw [if_pos hco] at hok
      obtain ⟨types, s₂, htypes, hok⟩ := bind_eq_ok_iff.mp hok
      obtain ⟨converted, s₃, hengine, hok⟩ := bind_eq_ok_iff.mp hok
      have hs₂ : P s₂ := by
        have := hc.types s₁ hs₁
        rwa [htypes] at this
      have hs₃ : P s₃ := by
        have := hc.coerce hco types positions (hask.asked positions omittable (by simp) s hs hl) s₂ hs₂
        rwa [hengine] at this
      exact hagain s₃ converted hs₃ hok
    · rw [if_neg hco] at hok
      exact hagain s₁ false hs₁ hok

mutual

/-- A signature whose check as written answers `true` has a leaf that the operands fit. -/
theorem accepts_of_checkStrict (h : c.Settles P known) (hc : c.Keeps P asked) {s s' : σ} :
    ∀ signature : Signature, signature.IsFinite → P s →
      signature.checkStrict c s = (.ok true, s') → c.Accepts known signature.leaves s'
  | .families positions omittable, _, hs, hok => h.accepts_of_familiesStrict hs hok
  | .oneOf alternatives, hfin, hs, hok => by
    unfold Signature.checkStrict at hok
    obtain ⟨found, s₁, hany, hok⟩ := bind_eq_ok_iff.mp hok
    cases found with
    | true =>
      cases hok
      exact h.accepts_of_anyStrict hc alternatives hfin hs hany
    | false => exact absurd hok mismatch_ne_ok
  | .openEnded least answer, hfin, _, _ => absurd (by simp [Signature.leaves]) (hfin least answer)

theorem accepts_of_anyStrict (h : c.Settles P known) (hc : c.Keeps P asked) {s s' : σ} :
    ∀ alternatives : List Signature, (Signature.oneOf alternatives).IsFinite → P s →
      Signature.anyStrict c alternatives s = (.ok true, s') →
        c.Accepts known (Signature.leavesOf alternatives) s'
  | [], _, _, hok => by cases hok
  | signature :: rest, hfin, hs, hok => by
    obtain ⟨hfirst, hrest⟩ := Signature.isFinite_cons.mp hfin
    unfold Signature.anyStrict at hok
    obtain ⟨found, s₁, htry, hok⟩ := bind_eq_ok_iff.mp hok
    cases found with
    | true =>
      cases hok
      rcases tolerant_eq_ok_iff.mp htry with htry | ⟨hfalse, -⟩
      · exact (h.accepts_of_checkStrict hc signature hfirst hs htry).of_leaves
          fun leaf hl => List.mem_append_left _ hl
      · cases hfalse
    | false =>
      have hs₁ : P s₁ := by
        have := (hc.checkStrict signature).tolerant s hs
        rwa [htry] at this
      exact (h.accepts_of_anyStrict hc rest hrest hs₁ hok).of_leaves
        fun leaf hl => List.mem_append_right _ hl

end

mutual

/-- A signature whose check answers `true` has a leaf that the operands fit in the end. -/
theorem accepts_of_check (h : c.Settles P known) (hc : c.Keeps P asked) {s s' : σ} :
    ∀ signature : Signature, signature.IsFinite → c.AsksFor P asked signature.leaves → P s →
      signature.check c s = (.ok true, s') → c.Accepts known signature.leaves s'
  | .families positions omittable, _, hask, hs, hok => by
    have hl : positions.length = c.count s := by
      refine Decidable.byContradiction fun hne => ?_
      unfold Signature.check Signature.familiesCheck at hok
      rw [bind_of_ok (state_apply s), if_neg hne] at hok
      cases hok
    exact h.accepts_of_familiesCheck hc hask hs hl hok
  | .oneOf alternatives, hfin, hask, hs, hok =>
    h.accepts_of_check_oneOf hc alternatives hfin hask hs hok
  | .openEnded least answer, hfin, _, _, _ =>
    absurd (by simp [Signature.leaves]) (hfin least answer)

/-- A choice has no answer but for a call that fits one of its leaves. -/
theorem accepts_of_check_oneOf (h : c.Settles P known) (hc : c.Keeps P asked) {s s' : σ} {b : Bool}
    (alternatives : List Signature) (hfin : (Signature.oneOf alternatives).IsFinite)
    (hask : c.AsksFor P asked (Signature.leavesOf alternatives)) (hs : P s)
    (hok : (Signature.oneOf alternatives).check c s = (.ok b, s')) :
    c.Accepts known (Signature.leavesOf alternatives) s' := by
  unfold Signature.check at hok
  obtain ⟨fitted, s₁, hstrict, hok⟩ := bind_eq_ok_iff.mp hok
  cases fitted with
  | true =>
    cases hok
    exact h.accepts_of_anyStrict hc alternatives hfin hs hstrict
  | false =>
    obtain ⟨found, s₂, hany, hok⟩ := bind_eq_ok_iff.mp hok
    have hs₁ : P s₁ := by
      have := hc.anyStrict alternatives s hs
      rwa [hstrict] at this
    cases found with
    | true =>
      cases hok
      exact h.accepts_of_anyCheck hc alternatives hfin hask hs₁ hany
    | false => exact absurd hok mismatch_ne_ok

theorem accepts_of_anyCheck (h : c.Settles P known) (hc : c.Keeps P asked) {s s' : σ} :
    ∀ alternatives : List Signature, (Signature.oneOf alternatives).IsFinite →
      c.AsksFor P asked (Signature.leavesOf alternatives) → P s →
      Signature.anyCheck c alternatives s = (.ok true, s') →
        c.Accepts known (Signature.leavesOf alternatives) s'
  | [], _, _, _, hok => by cases hok
  | signature :: rest, hfin, hask, hs, hok => by
    obtain ⟨hfirst, hrest⟩ := Signature.isFinite_cons.mp hfin
    have haskFirst := hask.of_leaves fun leaf hl => List.mem_append_left _ hl
    unfold Signature.anyCheck at hok
    obtain ⟨found, s₁, htry, hok⟩ := bind_eq_ok_iff.mp hok
    cases found with
    | true =>
      cases hok
      rcases tolerant_eq_ok_iff.mp htry with htry | ⟨hfalse, -⟩
      · exact (h.accepts_of_check hc signature hfirst haskFirst hs htry).of_leaves
          fun leaf hl => List.mem_append_left _ hl
      · cases hfalse
    | false =>
      have hs₁ : P s₁ := by
        have := (hc.check signature haskFirst.asked).tolerant s hs
        rwa [htry] at this
      exact (h.accepts_of_anyCheck hc rest hrest
        (hask.of_leaves fun leaf hl => List.mem_append_right _ hl) hs₁ hok).of_leaves
          fun leaf hl => List.mem_append_right _ hl

end

end CallView.Settles

end SqlTyping
