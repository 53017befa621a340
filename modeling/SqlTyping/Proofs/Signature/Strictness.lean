import Mathlib.Logic.Relation
import SqlTyping.Proofs.Signature.Looking

namespace SqlTyping

/-!
# Checks without conversion

Where operands may not be converted, a check does nothing but look at the types of operands, and it
ends like the check of the call as written, whether or not the operands have types:

* `CallView.Looked` — a state that looking at operands leads to;
* `CallView.Steady` — looking shows the same however often operands have been looked at before;
* `CallView.Replies` — a check only looks at operands, and it gives one answer, whatever has been
  looked at before it;
* `CallView.Uniform`, `CallView.Shares` — it does so with some answer, and two checks with one in
  common;
* `CallView.withConversion` — the call with another way to convert its operands;
* `CallView.Steady.check_eq_checkStrict` — without conversion the two checks of a signature give the
  same answer, and the engine has no part in it;
* `DetachedCall.steady_view` — calls outside a statement are steady.
-/

namespace CallView

open Checking

variable {σ : Type}

/-- The type of an operand that is not omitted is looked at in `s`, which leads to `s'`. -/
def Looks (c : CallView σ) (s s' : σ) : Prop :=
  ∃ index, index < c.count s ∧ c.isDefault s index = false ∧ (c.typeOf index s).2 = s'

/-- Looking at operands, any number of times and in any order, leads from `s` to `s'`. -/
def Looked (c : CallView σ) : σ → σ → Prop := Relation.ReflTransGen c.Looks

/-- A call shows the same in two states: its operands, with their types and the faults that come in
    place of types. -/
structure SeesAlike (c : CallView σ) (s s' : σ) : Prop where
  count : c.count s' = c.count s
  isNull : ∀ index, c.isNull s' index = c.isNull s index
  isDefault : ∀ index, c.isDefault s' index = c.isDefault s index
  typeOf : ∀ index, index < c.count s → c.isDefault s index = false →
    (c.typeOf index s').1 = (c.typeOf index s).1

/-- The contract of a call that is checked as written: looking at operands changes nothing that the call
    shows. Whatever binds a call to its operands has to keep it, in a statement (`CallFrame.stable_view`) and
    outside one (`DetachedCall.steady_view`). -/
def Steady (c : CallView σ) (s : σ) : Prop := ∀ s', c.Looked s s' → c.SeesAlike s s'

/-- From every state that looking at operands leads to, the check gives the answer `r`, and it does
    nothing but look at operands. -/
def Replies {α : Type} (c : CallView σ) (s : σ) (x : Checking σ α) (r : Except Fault α) : Prop :=
  ∀ s', c.Looked s s' → (x s').1 = r ∧ c.Looked s (x s').2

/-- The check only looks at operands and has one answer. -/
def Uniform {α : Type} (c : CallView σ) (s : σ) (x : Checking σ α) : Prop := ∃ r, c.Replies s x r

/-- Two checks only look at operands and have one answer in common. -/
def Shares (c : CallView σ) (s : σ) (x y : Checking σ Bool) : Prop :=
  ∃ r, c.Replies s x r ∧ c.Replies s y r

section

variable {α β : Type} {c : CallView σ} {s : σ}

/-- A call whose types are at hand is steady: looking leads nowhere. -/
theorem Rests.steady (h : c.Rests s) : c.Steady s := by
  intro s' hs'
  have hsame : s' = s := by
    induction hs' with
    | refl => rfl
    | tail _ hlook ih =>
      obtain ⟨index, hi, hd, rfl⟩ := hlook
      subst ih
      obtain ⟨type, ht⟩ := h index hi hd
      rw [ht]
  subst hsame
  exact ⟨rfl, fun _ => rfl, fun _ => rfl, fun _ _ _ => rfl⟩

/-! ### Answers that do not depend on earlier looks -/

theorem replies_pure (a : α) : c.Replies s (pure a) (.ok a) := fun _ h => ⟨rfl, h⟩

theorem replies_fail (e : Fault) : c.Replies s (Checking.fail e : Checking σ α) (.error e) :=
  fun _ h => ⟨rfl, h⟩

namespace Replies

variable {x y : Checking σ α} {r : Except Fault α}

/-- Checks that are the same in all states that looking leads to have the same answer. -/
theorem congr (h : c.Replies s y r) (hxy : ∀ s', c.Looked s s' → x s' = y s') :
    c.Replies s x r := by
  intro s' hs'
  rw [hxy s' hs']
  exact h s' hs'

/-- After a result the answer is that of the rest. -/
theorem bind {f : α → Checking σ β} {a : α} {r : Except Fault β} (hx : c.Replies s x (.ok a))
    (hf : c.Replies s (f a) r) : c.Replies s (x >>= f) r := by
  intro s' hs'
  obtain ⟨ha, hlooked⟩ := hx s' hs'
  rw [bind_of_ok (Prod.ext ha rfl)]
  exact hf _ hlooked

/-- After a fault the answer is the fault. -/
theorem bind_error {e : Fault} (hx : c.Replies s x (.error e)) (f : α → Checking σ β) :
    c.Replies s (x >>= f) (.error e) := by
  intro s' hs'
  obtain ⟨he, hlooked⟩ := hx s' hs'
  rw [Checking.bind_of_error (Prod.ext he rfl)]
  exact ⟨rfl, hlooked⟩

/-- What the state is read for is the same in all states that looking leads to. -/
theorem of_state {f : σ → Checking σ α} (h : c.Replies s (f s) r)
    (hf : ∀ s', c.Looked s s' → f s' = f s) : c.Replies s (Checking.state >>= f) r :=
  h.congr fun s' hs' => by rw [bind_of_ok (state_apply s'), hf s' hs']

/-- A choice takes over an answer. -/
theorem tolerant_ok {x : Checking σ Bool} {b : Bool} (h : c.Replies s x (.ok b)) :
    c.Replies s x.tolerant (.ok b) := by
  intro s' hs'
  obtain ⟨hr, hlooked⟩ := h s' hs'
  have hx : x s' = (.ok b, (x s').2) := Prod.ext hr rfl
  have htry : x.tolerant s' = (.ok b, (x s').2) := tolerant_eq_ok_iff.mpr (.inl hx)
  rw [htry]
  exact ⟨rfl, hlooked⟩

/-- A choice takes an operand fault for a refusal. -/
theorem tolerant_operandFault {x : Checking σ Bool} {e : Fault} (h : c.Replies s x (.error e))
    (he : e.isOperandFault = true) : c.Replies s x.tolerant (.ok false) := by
  intro s' hs'
  obtain ⟨hr, hlooked⟩ := h s' hs'
  have hx : x s' = (.error e, (x s').2) := Prod.ext hr rfl
  have htry : x.tolerant s' = (.ok false, (x s').2) :=
    tolerant_eq_ok_iff.mpr (.inr ⟨rfl, e, he, hx⟩)
  rw [htry]
  exact ⟨rfl, hlooked⟩

/-- A choice stops at any other fault. -/
theorem tolerant_fault {x : Checking σ Bool} {e : Fault} (h : c.Replies s x (.error e))
    (he : e.isOperandFault = false) : c.Replies s x.tolerant (.error e) := by
  intro s' hs'
  obtain ⟨hr, hlooked⟩ := h s' hs'
  have hx : x s' = (.error e, (x s').2) := Prod.ext hr rfl
  have htry : x.tolerant s' = (.error e, (x s').2) := by
    unfold Checking.tolerant
    rw [hx]
    simp only [he, Bool.false_eq_true, if_false]
  rw [htry]
  exact ⟨rfl, hlooked⟩

end Replies

namespace Uniform

variable {x : Checking σ α}

theorem pure (a : α) : c.Uniform s (Pure.pure a) := ⟨_, replies_pure a⟩

theorem fail (e : Fault) : c.Uniform s (Checking.fail e : Checking σ α) := ⟨_, replies_fail e⟩

/-- One answer, and then one answer to each result. -/
theorem bind {f : α → Checking σ β} (hx : c.Uniform s x) (hf : ∀ a, c.Uniform s (f a)) :
    c.Uniform s (x >>= f) := by
  obtain ⟨r, hx⟩ := hx
  cases r with
  | error e => exact ⟨.error e, hx.bind_error f⟩
  | ok a =>
    obtain ⟨r, hf⟩ := hf a
    exact ⟨r, hx.bind hf⟩

/-- One answer at each place of a list is one answer along the list. -/
theorem mapM {f : β → Checking σ α} {l : List β} (h : ∀ b ∈ l, c.Uniform s (f b)) :
    c.Uniform s (l.mapM f) := by
  induction l with
  | nil => exact Uniform.pure []
  | cons b rest ih =>
    rw [List.mapM_cons]
    exact (h b (by simp)).bind fun a =>
      (ih fun b' hb' => h b' (by simp [hb'])).bind fun as => Uniform.pure (a :: as)

/-- What the state is read for is the same in all states that looking leads to. -/
theorem of_state {f : σ → Checking σ α} (h : c.Uniform s (f s))
    (hf : ∀ s', c.Looked s s' → f s' = f s) : c.Uniform s (Checking.state >>= f) := by
  obtain ⟨r, hr⟩ := h
  exact ⟨r, hr.of_state hf⟩

end Uniform

/-- A choice learns the same from two checks with a common answer. -/
theorem Shares.tolerant {x y : Checking σ Bool} (h : c.Shares s x y) :
    c.Shares s x.tolerant y.tolerant := by
  obtain ⟨r, hx, hy⟩ := h
  cases r with
  | ok b => exact ⟨.ok b, hx.tolerant_ok, hy.tolerant_ok⟩
  | error e =>
    cases he : e.isOperandFault
    · exact ⟨.error e, hx.tolerant_fault he, hy.tolerant_fault he⟩
    · exact ⟨.ok false, hx.tolerant_operandFault he, hy.tolerant_operandFault he⟩

end

namespace Steady

variable {c : CallView σ} {s : σ} {index : Nat}

/-! ### One look -/

/-- The type of an operand, or the fault in its place, is the same each time. -/
theorem replies_typeOf (h : c.Steady s) (hi : index < c.count s)
    (hd : c.isDefault s index = false) :
    c.Replies s (c.typeOf index) (c.typeOf index s).1 := by
  intro s' hs'
  have hsees := h s' hs'
  refine ⟨hsees.typeOf index hi hd, hs'.tail ⟨index, ?_, ?_, rfl⟩⟩
  · rwa [hsees.count]
  · rwa [hsees.isDefault]

/-- An operand is written in one way. -/
theorem uniform_operandText (h : c.Steady s) (hi : index < c.count s) :
    c.Uniform s (c.operandText index) := by
  by_cases hd : c.isDefault s index = true
  · refine ⟨.ok "DEFAULT", (replies_pure "DEFAULT").congr fun s' hs' => ?_⟩
    exact if_pos (by rw [(h s' hs').isDefault, hd])
  have hd : c.isDefault s index = false := by simpa using hd
  have htype := h.replies_typeOf hi hd
  -- A fault in place of the type is hidden by the text.
  refine ⟨.ok (match (c.typeOf index s).1 with
    | .ok type => s!"<{type.text}>"
    | .error _ => "<?>"), fun s' hs' => ?_⟩
  obtain ⟨ht, hlooked⟩ := htype s' hs'
  unfold CallView.operandText
  rw [if_neg (by simp [(h s' hs').isDefault, hd]), ← ht]
  cases hr : c.typeOf index s' with
  | mk r s'' =>
    rw [hr] at hlooked
    cases r <;> exact ⟨rfl, hlooked⟩

/-- The call is written in one way. -/
theorem uniform_signatureText (h : c.Steady s) : c.Uniform s c.signatureText := by
  refine Uniform.of_state ?_ fun s' hs' => by rw [(h s' hs').count]
  have htexts : c.Uniform s ((List.range (c.count s)).mapM c.operandText) :=
    Uniform.mapM fun index hi => h.uniform_operandText (List.mem_range.mp hi)
  exact htexts.bind fun _ => Uniform.pure _

/-- The call is refused with one fault. -/
theorem uniform_mismatch {α : Type} (h : c.Steady s) (allowed : String) :
    c.Uniform s (c.mismatch allowed : Checking σ α) :=
  h.uniform_signatureText.bind fun _ => Uniform.fail _

/-- One operand is checked with one outcome. -/
theorem uniform_checkOperand (h : c.Steady s) (positions : List Family) (omittable : Nat → Bool)
    (family : Family) (hi : index < c.count s) :
    c.Uniform s (Signature.checkOperand c positions omittable index family) := by
  have hrefuse : c.Uniform s (c.mismatch (quotedForm c.operator positions) : Checking σ Unit) :=
    h.uniform_mismatch _
  have hpass : c.Uniform s (pure () : Checking σ Unit) := Uniform.pure ()
  unfold Signature.checkOperand
  by_cases hignore : family = .ignore
  · rw [if_pos hignore]
    exact hpass
  rw [if_neg hignore]
  refine Uniform.of_state ?_ fun s' hs' => by simp only [(h s' hs').isDefault, (h s' hs').isNull]
  by_cases hd : c.isDefault s index = true
  · rw [if_pos hd]
    cases omittable index
    · exact hrefuse
    · exact hpass
  rw [if_neg hd]
  have hlook : c.Uniform s (c.typeOf index) := ⟨_, h.replies_typeOf hi (by simpa using hd)⟩
  by_cases hany : family = .any
  · rw [if_pos hany]
    refine hlook.bind fun type => ?_
    by_cases hc : type.name = .cursor
    · simpa only [if_pos hc] using hrefuse
    · simpa only [if_neg hc] using hpass
  rw [if_neg hany]
  by_cases hn : c.isNull s index = true
  · rw [if_pos hn]
    cases c.coerces
    · exact Uniform.fail _
    · exact hpass
  rw [if_neg hn]
  refine hlook.bind fun type => ?_
  by_cases hunknown : Family.of? type.name = some .any
  · simpa only [if_pos hunknown] using hpass
  by_cases hmember : family.accepts type.name = true
  · simpa only [if_neg hunknown, if_pos hmember] using hpass
  · simpa only [if_neg hunknown, if_neg hmember] using hrefuse

/-- Operands are checked one after the other with one outcome. -/
theorem uniform_checkFrom (h : c.Steady s) (positions : List Family) (omittable : Nat → Bool)
    {families : List Family} (hi : index + families.length ≤ c.count s) :
    c.Uniform s (Signature.checkFrom c positions omittable index families) := by
  induction families generalizing index with
  | nil => exact Uniform.pure ()
  | cons family rest ih =>
    rw [List.length_cons] at hi
    exact (h.uniform_checkOperand positions omittable family (by omega)).bind
      fun _ => ih (by omega)

/-! ### Signatures -/

/-- A list of families of another length is not for the call, and both checks say so. -/
theorem shares_families_of_ne (h : c.Steady s) {positions : List Family} (omittable : Nat → Bool)
    (hl : positions.length ≠ c.count s) :
    c.Shares s (Signature.familiesCheck c positions omittable)
      (Signature.familiesStrict c positions omittable) := by
  have hlength : ∀ s', c.Looked s s' → positions.length ≠ c.count s' := by
    intro s' hs'
    rwa [(h s' hs').count]
  refine ⟨.ok false, (replies_pure false).congr fun s' hs' => ?_,
    (replies_pure false).congr fun s' hs' => ?_⟩
  · unfold Signature.familiesCheck
    rw [bind_of_ok (state_apply s'), if_neg (hlength s' hs')]
  · unfold Signature.familiesStrict
    rw [bind_of_ok (state_apply s'), if_neg (hlength s' hs')]

/-- Without conversion the second look at the operands ends with the fault of the first one. -/
theorem shares_families_of_eq (h : c.Steady s) (hcoerces : c.coerces = false)
    {positions : List Family} (omittable : Nat → Bool) (hl : positions.length = c.count s) :
    c.Shares s (Signature.familiesCheck c positions omittable)
      (Signature.familiesStrict c positions omittable) := by
  have hlength : ∀ s', c.Looked s s' → positions.length = c.count s' :=
    fun s' hs' => hl.trans (h s' hs').count.symm
  -- Both checks are put together from that of the positions.
  have hstrict : ∀ {r : Except Fault Bool},
      c.Replies s (Signature.checkAll c positions omittable >>= fun _ => pure true) r →
      c.Replies s (Signature.familiesStrict c positions omittable) r := by
    intro r hr
    refine hr.congr fun s' hs' => ?_
    unfold Signature.familiesStrict
    rw [bind_of_ok (state_apply s'), if_pos (hlength s' hs')]
  have hcheck : ∀ {r : Except Fault Bool},
      c.Replies s ((Signature.familiesStrict c positions omittable).tolerant >>= fun fits =>
        if fits = true then pure true
        else Signature.checkAll c positions omittable >>= fun _ => pure false) r →
      c.Replies s (Signature.familiesCheck c positions omittable) r := by
    intro r hr
    refine hr.congr fun s' hs' => ?_
    unfold Signature.familiesCheck
    rw [bind_of_ok (state_apply s'), if_pos (hlength s' hs')]
    simp [hcoerces]
  obtain ⟨r, hall⟩ : c.Uniform s (Signature.checkAll c positions omittable) :=
    h.uniform_checkFrom positions omittable (by omega)
  cases r with
  | ok _ =>
    have hfits := hstrict (hall.bind (replies_pure true))
    exact ⟨.ok true, hcheck (hfits.tolerant_ok.bind (replies_pure true)), hfits⟩
  | error e =>
    have hfault := hstrict (hall.bind_error _)
    cases he : e.isOperandFault with
    | false => exact ⟨.error e, hcheck ((hfault.tolerant_fault he).bind_error _), hfault⟩
    | true =>
      have hagain : c.Replies s (Signature.checkAll c positions omittable >>= fun _ => pure false)
          (.error e : Except Fault Bool) := hall.bind_error _
      exact ⟨.error e, hcheck ((hfault.tolerant_operandFault he).bind hagain), hfault⟩

mutual

/-- Without conversion the two checks of a signature have an answer in common. -/
theorem shares_check (h : c.Steady s) (hcoerces : c.coerces = false) :
    ∀ signature : Signature, c.Shares s (signature.check c) (signature.checkStrict c)
  | .families positions omittable => by
    by_cases hl : positions.length = c.count s
    · exact h.shares_families_of_eq hcoerces omittable hl
    · exact h.shares_families_of_ne omittable hl
  | .openEnded _ answer => ⟨.ok answer, replies_pure answer, replies_pure answer⟩
  | .oneOf alternatives => by
    obtain ⟨r, hany, hstrict⟩ := h.shares_anyCheck hcoerces alternatives
    unfold Signature.check Signature.checkStrict
    cases r with
    | error e => exact ⟨.error e, hstrict.bind_error _, hstrict.bind_error _⟩
    | ok found =>
      cases found with
      | true => exact ⟨.ok true, hstrict.bind (replies_pure true), hstrict.bind (replies_pure true)⟩
      | false =>
        -- The second round finds nothing that the first one has not found.
        obtain ⟨r, hmismatch⟩ : c.Uniform s
            (c.mismatch ((Signature.oneOf alternatives).allowed c.operator) : Checking σ Bool) :=
          h.uniform_mismatch _
        exact ⟨r, hstrict.bind (hany.bind hmismatch), hstrict.bind hmismatch⟩

theorem shares_anyCheck (h : c.Steady s) (hcoerces : c.coerces = false) :
    ∀ alternatives : List Signature,
      c.Shares s (Signature.anyCheck c alternatives) (Signature.anyStrict c alternatives)
  | [] => ⟨.ok false, replies_pure false, replies_pure false⟩
  | signature :: rest => by
    obtain ⟨r, hcheck, hstrict⟩ := (h.shares_check hcoerces signature).tolerant
    unfold Signature.anyCheck Signature.anyStrict
    cases r with
    | error e => exact ⟨.error e, hcheck.bind_error _, hstrict.bind_error _⟩
    | ok found =>
      cases found with
      | true => exact ⟨.ok true, hcheck.bind (replies_pure true), hstrict.bind (replies_pure true)⟩
      | false =>
        obtain ⟨r, hrest, hrest'⟩ := h.shares_anyCheck hcoerces rest
        exact ⟨r, hcheck.bind hrest, hstrict.bind hrest'⟩

end

end Steady

/-! ### The part of the engine -/

/-- The call with another engine, another way to wrap operands, and another record. -/
def withConversion (c : CallView σ) (engine : CoercionEngine)
    (castTo : Nat → DataType → Checking σ Bool) (note : CoercionRequest → σ → σ) : CallView σ :=
  { c with engine, castTo, note }

section

variable {c : CallView σ} {engine : CoercionEngine} {castTo : Nat → DataType → Checking σ Bool}
  {note : CoercionRequest → σ → σ}

theorem checkFrom_withConversion (positions : List Family) (omittable : Nat → Bool) (index : Nat)
    (families : List Family) :
    Signature.checkFrom (c.withConversion engine castTo note) positions omittable index families =
      Signature.checkFrom c positions omittable index families := by
  induction families generalizing index with
  | nil => rfl
  | cons family rest ih =>
    unfold Signature.checkFrom
    rw [ih]
    rfl

/-- A call as written is never converted. -/
theorem familiesStrict_withConversion (positions : List Family) (omittable : Nat → Bool) :
    Signature.familiesStrict (c.withConversion engine castTo note) positions omittable =
      Signature.familiesStrict c positions omittable := by
  unfold Signature.familiesStrict Signature.checkAll
  rw [checkFrom_withConversion]
  rfl

/-- Where operands may not be converted, nobody is asked to convert them. -/
theorem familiesCheck_withConversion (hcoerces : c.coerces = false) (positions : List Family)
    (omittable : Nat → Bool) :
    Signature.familiesCheck (c.withConversion engine castTo note) positions omittable =
      Signature.familiesCheck c positions omittable := by
  have hcoerces' : (c.withConversion engine castTo note).coerces = false := hcoerces
  unfold Signature.familiesCheck Signature.checkAll
  rw [familiesStrict_withConversion, checkFrom_withConversion, hcoerces, hcoerces']
  rfl

mutual

theorem checkStrict_withConversion : ∀ signature : Signature,
    signature.checkStrict (c.withConversion engine castTo note) = signature.checkStrict c
  | .families positions omittable => familiesStrict_withConversion positions omittable
  | .openEnded _ _ => rfl
  | .oneOf alternatives => by
    unfold Signature.checkStrict
    rw [anyStrict_withConversion alternatives]
    rfl

theorem anyStrict_withConversion : ∀ alternatives : List Signature,
    Signature.anyStrict (c.withConversion engine castTo note) alternatives =
      Signature.anyStrict c alternatives
  | [] => rfl
  | signature :: rest => by
    unfold Signature.anyStrict
    rw [checkStrict_withConversion signature, anyStrict_withConversion rest]

end

mutual

theorem check_withConversion (hcoerces : c.coerces = false) : ∀ signature : Signature,
    signature.check (c.withConversion engine castTo note) = signature.check c
  | .families positions omittable => familiesCheck_withConversion hcoerces positions omittable
  | .openEnded _ _ => rfl
  | .oneOf alternatives => by
    unfold Signature.check
    rw [anyStrict_withConversion alternatives, anyCheck_withConversion hcoerces alternatives]
    rfl

theorem anyCheck_withConversion (hcoerces : c.coerces = false) : ∀ alternatives : List Signature,
    Signature.anyCheck (c.withConversion engine castTo note) alternatives =
      Signature.anyCheck c alternatives
  | [] => rfl
  | signature :: rest => by
    unfold Signature.anyCheck
    rw [check_withConversion hcoerces signature, anyCheck_withConversion hcoerces rest]

end

end

/-- **Without conversion the two checks are one.** They give the same answer, be it a result or a
    fault. Both do nothing but look at the types of operands and leave the operands as they were, and
    both would run in the same way with any other engine and any other means of conversion. -/
theorem Steady.check_eq_checkStrict {c : CallView σ} {s : σ} (h : c.Steady s)
    (hcoerces : c.coerces = false) (signature : Signature) :
    (signature.check c s).1 = (signature.checkStrict c s).1 ∧
    (∀ s' ∈ [(signature.check c s).2, (signature.checkStrict c s).2],
      c.Looked s s' ∧ c.SeesAlike s s') ∧
    ∀ engine castTo note,
      signature.check (c.withConversion engine castTo note) = signature.check c ∧
      signature.checkStrict (c.withConversion engine castTo note) = signature.checkStrict c := by
  obtain ⟨r, hcheck, hstrict⟩ := h.shares_check hcoerces signature
  obtain ⟨hr, hlooked⟩ := hcheck s .refl
  obtain ⟨hr', hlooked'⟩ := hstrict s .refl
  refine ⟨hr.trans hr'.symm, ?_, fun engine castTo note =>
    ⟨check_withConversion hcoerces signature, checkStrict_withConversion signature⟩⟩
  intro s' hs'
  have hlook : c.Looked s s' := by
    rcases List.mem_cons.mp hs' with rfl | hs'
    · exact hlooked
    · obtain rfl := List.mem_singleton.mp hs'
      exact hlooked'
  exact ⟨hlook, h s' hlook⟩

end CallView

/-! ### Calls outside a statement -/

namespace DetachedCall

variable (operator : String) (coerces : Bool) (engine : CoercionEngine)

/-- Looking at the operands of a call outside a statement leads nowhere. -/
theorem looked_view_iff {s s' : DetachedCall} :
    (view operator coerces engine).Looked s s' ↔ s' = s := by
  constructor
  · intro h
    induction h with
    | refl => rfl
    | tail _ hlook ih =>
      obtain ⟨index, -, -, rfl⟩ := hlook
      rw [ih]
      exact typeOf_state index s
  · rintro rfl
    exact .refl

/-- A call outside a statement is steady, also when an operand has no type. -/
theorem steady_view (s : DetachedCall) : (view operator coerces engine).Steady s := by
  intro s' hs'
  obtain rfl := (looked_view_iff operator coerces engine).mp hs'
  exact ⟨rfl, fun _ => rfl, fun _ => rfl, fun _ _ _ => rfl⟩

/-- A column that cannot be found stops both checks of a nested choice, after a NULL literal that two
    alternatives refuse; the call stays as it was. -/
theorem checks_agree_unresolved :
    let c := view "PAIR" false .implicitCasts
    let s : DetachedCall := ⟨[.null, .unresolved "X"], [], []⟩
    let signature : Signature := .oneOf
      [.openEnded 3 false, .oneOf [.required [.character, .ignore], .required [.numeric, .any]],
        .required [.ignore, .integer]]
    c.Steady s ∧ signature.check c s = (.error (.columnNotFound "X"), s) ∧
      signature.checkStrict c s = (.error (.columnNotFound "X"), s) ∧
      (signature.check c s).1 = (signature.checkStrict c s).1 := by
  refine ⟨steady_view _ _ _ _, rfl, rfl, ?_⟩
  exact ((steady_view "PAIR" false .implicitCasts _).check_eq_checkStrict rfl _).1

end DetachedCall

end SqlTyping
