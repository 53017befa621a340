import SqlTyping.Proofs.Signature.Strictness

namespace SqlTyping

/-!
# Alternatives of a choice

What a choice learns from its alternatives when they are tried as written:

* `CallView.mismatch_total` — a call that fits nothing is always refused, and by an operand fault;
* `Signature.anyStrict_append` — alternatives are tried one after the other;
* `Signature.isOperandFault_of_anyStrict` — a choice is stopped by no fault that it may pass over;
* `CallView.Takes` — the check as written accepts;
* `CallView.Steady.takes_oneOf_iff` — where looking always shows the same and all operands have types,
  a choice accepts exactly when one of its alternatives does;
* `Signature.check_of_checkStrict` — what is accepted as written is accepted without any conversion.
-/

namespace Checking

variable {σ α β : Type}

/-- A tolerant check is only stopped by a fault that is not about operands. -/
theorem tolerant_eq_error_iff {x : Checking σ Bool} {s t : σ} {e : Fault} :
    x.tolerant s = (.error e, t) ↔ x s = (.error e, t) ∧ e.isOperandFault = false := by
  unfold tolerant
  cases hx : x s with
  | mk r s' =>
    cases r with
    | ok b => simp
    | error e' =>
      by_cases he : e'.isOperandFault = true
      · simp only [he, if_true, Prod.mk.injEq, reduceCtorEq, false_and, Except.error.injEq, false_iff]
        rintro ⟨⟨rfl, -⟩, hf⟩
        simp [he] at hf
      · simp only [he, Bool.false_eq_true, if_false, Prod.mk.injEq, Except.error.injEq]
        refine ⟨fun ⟨h, ht⟩ => ⟨⟨h, ht⟩, ?_⟩, fun h => h.1⟩
        rw [← h]
        simpa using he

/-- Going through a list never fails when no step does. -/
theorem mapM_total {f : α → Checking σ β} (h : ∀ a s, ∃ b s', f a s = (.ok b, s')) (l : List α)
    (s : σ) : ∃ bs s', l.mapM f s = (.ok bs, s') := by
  induction l generalizing s with
  | nil => exact ⟨[], s, rfl⟩
  | cons a rest ih =>
    obtain ⟨b, s₁, hb⟩ := h a s
    obtain ⟨bs, s₂, hbs⟩ := ih s₁
    refine ⟨b :: bs, s₂, ?_⟩
    rw [List.mapM_cons, bind_of_ok hb, bind_of_ok hbs]
    rfl

end Checking

namespace CallView

open Checking

variable {σ : Type} {c : CallView σ} {s : σ}

/-! ### Refusals -/

/-- Every call can be written down, whether or not its operands have types. -/
theorem signatureText_total (c : CallView σ) (s : σ) :
    ∃ text s', c.signatureText s = (.ok text, s') := by
  have hone : ∀ index s, ∃ text s', c.operandText index s = (.ok text, s') := by
    intro index s
    unfold CallView.operandText
    split
    · exact ⟨_, _, rfl⟩
    · cases c.typeOf index s with
      | mk r s' => cases r <;> exact ⟨_, _, rfl⟩
  obtain ⟨texts, s', htexts⟩ := mapM_total hone (List.range (c.count s)) s
  refine ⟨c.operator ++ "(" ++ ", ".intercalate texts ++ ")", s', ?_⟩
  unfold CallView.signatureText
  rw [bind_of_ok (state_apply s), bind_of_ok htexts]
  rfl

/-- A refusal writes the call down and ends with an operand fault. -/
theorem mismatch_total {α : Type} (c : CallView σ) (allowed : String) (s : σ) :
    ∃ text s', c.signatureText s = (.ok text, s') ∧ (c.mismatch allowed : Checking σ α) s =
      (.error (.signatureMismatch c.operator text allowed), s') := by
  obtain ⟨text, s', htext⟩ := c.signatureText_total s
  exact ⟨text, s', htext, bind_of_ok htext _⟩

/-- A choice passes over every refusal. -/
theorem isOperandFault_of_mismatch {α : Type} {allowed : String} {e : Fault} {s' : σ}
    (h : (c.mismatch allowed : Checking σ α) s = (.error e, s')) : e.isOperandFault = true := by
  obtain ⟨text, t, -, hmismatch⟩ := c.mismatch_total (α := α) allowed s
  rw [hmismatch] at h
  cases h
  rfl

end CallView

namespace Signature

open Checking

variable {σ : Type} {c : CallView σ} {s s' : σ}

/-! ### One alternative after the other -/

/-- Two lists of alternatives are tried one after the other. -/
theorem anyStrict_append (c : CallView σ) (alternatives later : List Signature) :
    anyStrict c (alternatives ++ later) =
      (anyStrict c alternatives >>= fun found =>
        if found then pure true else anyStrict c later) := by
  induction alternatives with
  | nil => rfl
  | cons signature rest ih =>
    rw [List.cons_append, anyStrict, anyStrict, ih, bind_assoc]
    congr 1
    funext found
    cases found <;> rfl

/-- The only alternative there is. -/
theorem anyStrict_singleton (c : CallView σ) (signature : Signature) :
    anyStrict c [signature] = (signature.checkStrict c).tolerant := by
  have hsame : (fun found : Bool => if found then pure true else anyStrict c []) =
      (pure : Bool → Checking σ Bool) := by
    funext found
    cases found <;> rfl
  rw [anyStrict, hsame, bind_pure]

/-- Trying alternatives as written is stopped by no operand fault. -/
theorem isOperandFault_of_anyStrict {alternatives : List Signature} {e : Fault}
    (h : anyStrict c alternatives s = (.error e, s')) : e.isOperandFault = false := by
  induction alternatives generalizing s with
  | nil => cases h
  | cons signature rest ih =>
    unfold anyStrict at h
    cases htry : (signature.checkStrict c).tolerant s with
    | mk r s₁ =>
      cases r with
      | error e' =>
        rw [bind_of_error htry] at h
        cases h
        exact (tolerant_eq_error_iff.mp htry).2
      | ok found =>
        rw [bind_of_ok htry] at h
        cases found with
        | true => cases h
        | false => exact ih h

/-- To a choice around it, a choice answers what trying its alternatives answers: its refusal is passed
    over. -/
theorem tolerant_checkStrict_oneOf (c : CallView σ) (alternatives : List Signature) (s : σ) :
    (((oneOf alternatives).checkStrict c).tolerant s).1 = (anyStrict c alternatives s).1 := by
  unfold checkStrict tolerant
  cases hany : anyStrict c alternatives s with
  | mk r s' =>
    cases r with
    | error e =>
      rw [bind_of_error hany]
      simp [isOperandFault_of_anyStrict hany]
    | ok found =>
      rw [bind_of_ok hany]
      cases found with
      | true => rfl
      | false =>
        obtain ⟨text, t, -, hmismatch⟩ :=
          c.mismatch_total (α := Bool) ((oneOf alternatives).allowed c.operator) s'
        simp only [Bool.false_eq_true, if_false, hmismatch]
        rfl

/-- A choice accepts a call as written when an alternative does. -/
theorem anyStrict_of_checkStrict_oneOf {alternatives : List Signature}
    (h : (oneOf alternatives).checkStrict c s = (.ok true, s')) :
    anyStrict c alternatives s = (.ok true, s') := by
  unfold checkStrict at h
  obtain ⟨found, s₁, hany, h⟩ := bind_eq_ok_iff.mp h
  cases found with
  | true =>
    cases h
    exact hany
  | false => exact absurd h CallView.mismatch_ne_ok

/-- A list of families that accepts a call as written has its length. -/
theorem length_of_familiesStrict {positions : List Family} {omittable : Nat → Bool}
    (h : familiesStrict c positions omittable s = (.ok true, s')) :
    positions.length = c.count s := by
  refine Decidable.byContradiction fun hl => ?_
  unfold familiesStrict at h
  rw [bind_of_ok (state_apply s), if_neg hl] at h
  cases h

/-- A call that is accepted as written is accepted at once: the check ends where the look at the call
    has led to, whatever the engine would do. -/
theorem check_of_checkStrict {signature : Signature}
    (h : signature.checkStrict c s = (.ok true, s')) : signature.check c s = (.ok true, s') := by
  cases signature with
  | families positions omittable =>
    have hstrict : familiesStrict c positions omittable s = (.ok true, s') := h
    have hfits := tolerant_eq_ok_iff.mpr (.inl hstrict)
    unfold check familiesCheck
    rw [bind_of_ok (state_apply s), if_pos (length_of_familiesStrict hstrict), bind_of_ok hfits]
    rfl
  | oneOf alternatives =>
    unfold check
    rw [bind_of_ok (anyStrict_of_checkStrict_oneOf h)]
    rfl
  | openEnded least answer => exact h

end Signature

namespace CallView

open Checking

variable {σ : Type} {c : CallView σ} {s : σ}

/-! ### Answers to a steady call -/

/-- All operands have types, but for those that are omitted. -/
def TypesAll (c : CallView σ) (s : σ) : Prop :=
  ∀ index, index < c.count s → c.isDefault s index = false →
    ∃ type, (c.typeOf index s).1 = .ok type

/-- The check of the call as written accepts it. -/
def Takes (c : CallView σ) (s : σ) (signature : Signature) : Prop :=
  (signature.checkStrict c s).1 = .ok true

/-- The check only looks at operands, has one answer, and can only be stopped by an operand fault. -/
def Settled {α : Type} (c : CallView σ) (s : σ) (x : Checking σ α) : Prop :=
  ∃ r, c.Replies s x r ∧ ∀ e, r = .error e → e.isOperandFault = true

theorem Settled.pure {α : Type} (a : α) : c.Settled s (Pure.pure a : Checking σ α) :=
  ⟨_, replies_pure a, fun _ h => by cases h⟩

theorem Settled.bind {α β : Type} {x : Checking σ α} {f : α → Checking σ β} (hx : c.Settled s x)
    (hf : ∀ a, c.Settled s (f a)) : c.Settled s (x >>= f) := by
  obtain ⟨r, hr, hfault⟩ := hx
  cases r with
  | error e => exact ⟨.error e, hr.bind_error f, by simpa using hfault⟩
  | ok a =>
    obtain ⟨r, hf, hfault⟩ := hf a
    exact ⟨r, hr.bind hf, hfault⟩

/-- A choice is stopped by no alternative that is settled. -/
theorem Settled.tolerant {x : Checking σ Bool} (hx : c.Settled s x) :
    ∃ b, c.Replies s x.tolerant (.ok b) ∧ (b = true ↔ (x s).1 = .ok true) := by
  obtain ⟨r, hr, hfault⟩ := hx
  rw [(hr s .refl).1]
  cases r with
  | ok b => exact ⟨b, hr.tolerant_ok, by simp⟩
  | error e => exact ⟨false, hr.tolerant_operandFault (hfault e rfl), by simp⟩

/-- One operand that has a type, or is omitted, is refused by an operand fault if at all. -/
theorem isOperandFault_of_checkOperand {positions : List Family} {omittable : Nat → Bool}
    {index : Nat} {family : Family} {e : Fault} {s' : σ}
    (ht : c.isDefault s index = false → ∃ type, (c.typeOf index s).1 = .ok type)
    (h : Signature.checkOperand c positions omittable index family s = (.error e, s')) :
    e.isOperandFault = true := by
  have hcourse : Course fun _ _ : σ => True := ⟨fun _ _ => trivial, fun _ => trivial⟩
  have hpass : ∀ t, Runs (fun _ _ => True) (·.isOperandFault = true) t (pure () : Checking σ Unit)
      fun _ _ => True := fun _ => .pure trivial trivial
  have hrefuse : ∀ t, Runs (fun _ _ => True) (·.isOperandFault = true) t
      (c.mismatch (quotedForm c.operator positions) : Checking σ Unit) fun _ _ => True := fun _ =>
    .of_outcomes (fun _ _ hok => absurd hok mismatch_ne_ok) fun _ _ hfault =>
      ⟨trivial, isOperandFault_of_mismatch hfault⟩
  suffices hruns : Runs (fun _ _ => True) (·.isOperandFault = true) s
      (Signature.checkOperand c positions omittable index family) fun _ _ => True from
    (hruns.of_error h).2
  unfold Signature.checkOperand
  refine .ite (fun _ => hpass s) fun _ => .state_bind ?_
  refine .ite (fun _ => .ite (fun _ => hpass s) fun _ => hrefuse s) fun hd => ?_
  have hlook : Runs (fun _ _ => True) (·.isOperandFault = true) s (c.typeOf index)
      fun _ _ => True := by
    obtain ⟨type, ht⟩ := ht (by simpa using hd)
    refine .of_outcomes (fun _ _ _ => ⟨trivial, trivial⟩) fun e t he => ?_
    rw [he] at ht
    cases ht
  refine .ite (fun _ => hlook.bind hcourse fun type t _ _ => ?_) fun _ => ?_
  · exact .ite (fun _ => hrefuse t) fun _ => hpass t
  refine .ite (fun _ => .ite (fun _ => hpass s) fun _ => .fail trivial rfl) fun _ => ?_
  refine hlook.bind hcourse fun type t _ _ => .ite (fun _ => hpass t) fun _ => ?_
  exact .ite (fun _ => hpass t) fun _ => hrefuse t

/-- The first answer that is not a refusal. -/
def firstAnswer (r later : Except Fault Bool) : Except Fault Bool :=
  match r with
  | .ok false => later
  | r => r

theorem firstAnswer_eq_false_iff {r later : Except Fault Bool} :
    firstAnswer r later = .ok false ↔ r = .ok false ∧ later = .ok false := by
  match r with
  | .ok false => simp [firstAnswer]
  | .ok true => simp [firstAnswer]
  | .error e => simp [firstAnswer]

/-- A choice takes what trying its alternatives finds. -/
theorem takes_oneOf_of_anyStrict {alternatives : List Signature}
    (h : (Signature.anyStrict c alternatives s).1 = .ok true) : c.Takes s (.oneOf alternatives) := by
  have hany : Signature.anyStrict c alternatives s =
      (.ok true, (Signature.anyStrict c alternatives s).2) := Prod.ext h rfl
  unfold Takes Signature.checkStrict
  rw [bind_of_ok hany]
  rfl

namespace Steady

/-- A list of families has one answer to the call as written. -/
theorem uniform_familiesStrict (h : c.Steady s) (positions : List Family)
    (omittable : Nat → Bool) : c.Uniform s (Signature.familiesStrict c positions omittable) := by
  refine Uniform.of_state ?_ fun s' hs' => by simp only [(h s' hs').count]
  by_cases hl : positions.length = c.count s
  · rw [if_pos hl]
    exact (h.uniform_checkFrom positions omittable (by omega)).bind fun _ => Uniform.pure true
  · rw [if_neg hl]
    exact Uniform.pure false

mutual

/-- Every signature has one answer to the call as written. -/
theorem uniform_checkStrict (h : c.Steady s) : ∀ signature : Signature,
    c.Uniform s (signature.checkStrict c)
  | .families positions omittable => h.uniform_familiesStrict positions omittable
  | .openEnded _ answer => Uniform.pure answer
  | .oneOf alternatives => by
    unfold Signature.checkStrict
    refine (h.uniform_anyStrict alternatives).bind fun found => ?_
    cases found with
    | true => exact Uniform.pure true
    | false => exact h.uniform_mismatch _

theorem uniform_anyStrict (h : c.Steady s) : ∀ alternatives : List Signature,
    c.Uniform s (Signature.anyStrict c alternatives)
  | [] => Uniform.pure false
  | signature :: rest => by
    unfold Signature.anyStrict
    obtain ⟨r, hr⟩ := h.uniform_checkStrict signature
    obtain ⟨r', htry, -⟩ := Shares.tolerant ⟨r, hr, hr⟩
    refine Uniform.bind ⟨r', htry⟩ fun found => ?_
    cases found with
    | true => exact Uniform.pure true
    | false => exact h.uniform_anyStrict rest

end

/-- Alternatives that are tried later see the same call. -/
theorem anyStrict_append (h : c.Steady s) (alternatives later : List Signature) :
    (Signature.anyStrict c (alternatives ++ later) s).1 =
      firstAnswer (Signature.anyStrict c alternatives s).1 (Signature.anyStrict c later s).1 := by
  obtain ⟨r, hr⟩ := h.uniform_anyStrict alternatives
  obtain ⟨r', hr'⟩ := h.uniform_anyStrict later
  rw [Signature.anyStrict_append, (hr s .refl).1, (hr' s .refl).1]
  cases r with
  | error e => exact ((hr.bind_error _) s .refl).1
  | ok found =>
    have hrest : c.Replies s (if found then pure true else Signature.anyStrict c later)
        (firstAnswer (.ok found) r') := by
      cases found with
      | true => exact replies_pure true
      | false => exact hr'
    exact ((hr.bind hrest) s .refl).1

/-- An alternative that takes the call is found, or a fault comes before it. -/
theorem anyStrict_ne_false (h : c.Steady s) {alternatives : List Signature} {signature : Signature}
    (hmem : signature ∈ alternatives) (htakes : c.Takes s signature) :
    (Signature.anyStrict c alternatives s).1 ≠ .ok false := by
  induction alternatives with
  | nil => exact absurd hmem List.not_mem_nil
  | cons first rest ih =>
    rw [← List.singleton_append, h.anyStrict_append, Signature.anyStrict_singleton, ne_eq,
      firstAnswer_eq_false_iff]
    rintro ⟨hfirst, hrest⟩
    rcases List.mem_cons.mp hmem with rfl | hmem
    · have htry := tolerant_eq_ok_iff.mpr (.inl (Prod.ext htakes rfl))
      rw [htry] at hfirst
      cases hfirst
    · exact ih hmem hrest

/-- Operands with types are checked one after the other, and only an operand fault stops this. -/
theorem settled_checkFrom (h : c.Steady s) (ht : c.TypesAll s) (positions : List Family)
    (omittable : Nat → Bool) {index : Nat} {families : List Family}
    (hi : index + families.length ≤ c.count s) :
    c.Settled s (Signature.checkFrom c positions omittable index families) := by
  induction families generalizing index with
  | nil => exact Settled.pure ()
  | cons family rest ih =>
    rw [List.length_cons] at hi
    refine Settled.bind ?_ fun _ => ih (by omega)
    obtain ⟨r, hr⟩ : c.Uniform s (Signature.checkOperand c positions omittable index family) :=
      h.uniform_checkOperand positions omittable family (by omega)
    refine ⟨r, hr, fun e he => ?_⟩
    have hfault := (hr s .refl).1.trans he
    exact isOperandFault_of_checkOperand (ht index (by omega)) (Prod.ext hfault rfl)

theorem settled_familiesStrict (h : c.Steady s) (ht : c.TypesAll s) (positions : List Family)
    (omittable : Nat → Bool) : c.Settled s (Signature.familiesStrict c positions omittable) := by
  have hbody : c.Settled s (if positions.length = c.count s then
      Signature.checkAll c positions omittable >>= fun _ => Pure.pure true else Pure.pure false) := by
    by_cases hl : positions.length = c.count s
    · rw [if_pos hl]
      exact (h.settled_checkFrom ht positions omittable (by omega)).bind fun _ => Settled.pure true
    · rw [if_neg hl]
      exact Settled.pure false
  obtain ⟨r, hr, hfault⟩ := hbody
  exact ⟨r, hr.of_state fun s' hs' => by rw [(h s' hs').count], hfault⟩

mutual

/-- Where all operands have types, a check of the call as written is only stopped by an operand fault. -/
theorem settled_checkStrict (h : c.Steady s) (ht : c.TypesAll s) : ∀ signature : Signature,
    c.Settled s (signature.checkStrict c)
  | .families positions omittable => h.settled_familiesStrict ht positions omittable
  | .openEnded _ answer => Settled.pure answer
  | .oneOf alternatives => by
    unfold Signature.checkStrict
    refine (h.settled_anyStrict ht alternatives).bind fun found => ?_
    cases found with
    | true => exact Settled.pure true
    | false =>
      obtain ⟨r, hr⟩ : c.Uniform s
          (c.mismatch ((Signature.oneOf alternatives).allowed c.operator) : Checking σ Bool) :=
        h.uniform_mismatch _
      exact ⟨r, hr, fun e he => isOperandFault_of_mismatch (Prod.ext ((hr s .refl).1.trans he) rfl)⟩

theorem settled_anyStrict (h : c.Steady s) (ht : c.TypesAll s) : ∀ alternatives : List Signature,
    c.Settled s (Signature.anyStrict c alternatives)
  | [] => Settled.pure false
  | signature :: rest => by
    unfold Signature.anyStrict
    obtain ⟨b, hb, -⟩ := (h.settled_checkStrict ht signature).tolerant
    refine Settled.bind ⟨.ok b, hb, fun e he => by cases he⟩ fun found => ?_
    cases found with
    | true => exact Settled.pure true
    | false => exact h.settled_anyStrict ht rest

end

/-- Trying alternatives as written is a look for one that accepts. -/
theorem replies_anyStrict (h : c.Steady s) (ht : c.TypesAll s) (alternatives : List Signature) :
    ∃ b, c.Replies s (Signature.anyStrict c alternatives) (.ok b) ∧
      (b = true ↔ ∃ signature ∈ alternatives, c.Takes s signature) := by
  induction alternatives with
  | nil => exact ⟨false, replies_pure false, by simp⟩
  | cons signature rest ih =>
    obtain ⟨found, hfirst, hfound⟩ := (h.settled_checkStrict ht signature).tolerant
    obtain ⟨b, hrest, hb⟩ := ih
    unfold Signature.anyStrict
    rw [show ((signature.checkStrict c) s).1 = .ok true ↔ c.Takes s signature from .rfl] at hfound
    simp only [List.mem_cons, exists_eq_or_imp, ← hfound, ← hb]
    cases found with
    | true => exact ⟨true, hfirst.bind (replies_pure true), by simp⟩
    | false => exact ⟨b, hfirst.bind hrest, by simp⟩

/-- A choice accepts a call as written exactly when one of its alternatives does. -/
theorem takes_oneOf_iff (h : c.Steady s) (ht : c.TypesAll s) (alternatives : List Signature) :
    c.Takes s (.oneOf alternatives) ↔ ∃ signature ∈ alternatives, c.Takes s signature := by
  obtain ⟨b, hany, hb⟩ := h.replies_anyStrict ht alternatives
  have hany : Signature.anyStrict c alternatives s = (.ok b, (Signature.anyStrict c alternatives s).2) :=
    Prod.ext (hany s .refl).1 rfl
  rw [← hb]
  unfold Takes Signature.checkStrict
  rw [bind_of_ok hany]
  cases b with
  | true => simp
  | false =>
    obtain ⟨text, s', -, hrefused⟩ := c.mismatch_total (α := Bool)
      ((Signature.oneOf alternatives).allowed c.operator) (Signature.anyStrict c alternatives s).2
    simp [hrefused]

end Steady

end CallView

end SqlTyping
