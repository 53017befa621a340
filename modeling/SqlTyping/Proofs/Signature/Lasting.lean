import SqlTyping.Proofs.Signature.Stability

namespace SqlTyping

/-!
# Acceptance that lasts

A call that is accepted is accepted again as it was left, and then as written, whatever an engine has
done to it:

* `CallView.ShowsCast` — what a call shows is changed at one place, by a cast;
* `CallView.OperandsOnly P c` — what the call shows depends on its operands only, and a cast replaces an
  operand by an expression of the wanted type;
* `CallView.Comes` — where a check leads: nothing has changed, or all operands have types;
* `CallView.OperandsOnly.runs_check` — what is accepted with conversion is then taken as written;
* `CallView.OperandsOnly.check_again` — and accepted by the same check, without any part of the engine;
* `DetachedCall.operandsOnly_view` — calls outside a statement show their operands only.
-/

namespace Checking

variable {σ : Type}

/-- What is known of the answer `true` is known of it when operand faults are passed over. -/
theorem Runs.tolerant {R : σ → σ → Prop} {s : σ} {K : σ → Prop} {x : Checking σ Bool}
    (h : Runs R (fun _ => True) s x fun b s' => b = true → K s') :
    Runs R (fun _ => True) s x.tolerant fun b s' => b = true → K s' := by
  refine .of_outcomes (fun b s' hok => ?_) fun e s' he => ?_
  · rcases tolerant_eq_ok_iff.mp hok with hok | ⟨rfl, e, -, he⟩
    · exact h.of_ok hok
    · exact ⟨(h.of_error he).1, fun hb => by cases hb⟩
  · exact h.of_error (tolerant_eq_error_iff.mp he).1

end Checking

namespace CallView

open Checking

variable {σ : Type} {c : CallView σ} {s s' s'' : σ}

/-! ### What a call shows -/

/-- In `s'` the operand at `index` is of type `target`, and the others are of the types that they have
    in `s`. -/
structure ShowsCast (c : CallView σ) (index : Nat) (target : DataType) (s s' : σ) : Prop where
  count : c.count s' = c.count s
  typeOf_self : (c.typeOf index s').1 = .ok target
  typeOf_other : ∀ other, other ≠ index → (c.typeOf other s').1 = (c.typeOf other s).1

/-- Every operand has a type, the placeholders for omitted ones among them. -/
def AllTyped (c : CallView σ) (s : σ) : Prop :=
  ∀ index, index < c.count s → ∃ type, (c.typeOf index s).1 = .ok type

theorem ShowsSame.allTyped (h : c.ShowsSame s s') (ht : c.AllTyped s) : c.AllTyped s' := by
  intro index hi
  rw [h.count] at hi
  rw [h.typeOf]
  exact ht index hi

/-- A cast gives its operand a type and takes none away. -/
theorem ShowsCast.allTyped {index : Nat} {target : DataType} (h : c.ShowsCast index target s s')
    (ht : c.AllTyped s) : c.AllTyped s' := by
  intro other hi
  by_cases hother : other = index
  · subst hother
    exact ⟨target, h.typeOf_self⟩
  · rw [h.count] at hi
    rw [h.typeOf_other other hother]
    exact ht other hi

theorem AllTyped.typesAll (h : c.AllTyped s) : c.TypesAll s := fun index hi _ => h index hi

/-- What a call shows depends on its operands only, in all states `P` in which it may be: looking at it
    and keeping a request for the record change nothing that it shows, and a cast replaces an operand by
    an expression of the wanted type if it is made. -/
structure OperandsOnly (P : σ → Prop) (c : CallView σ) : Prop extends c.Stable P where
  castTo : ∀ index target s, P s → P (c.castTo index target s).2 ∧
    (c.ShowsSame s (c.castTo index target s).2 ∨
      c.ShowsCast index target s (c.castTo index target s).2)

/-- The states in which the call has `count` operands, all of them with types. -/
def Typed (c : CallView σ) (P : σ → Prop) (count : Nat) (t : σ) : Prop :=
  P t ∧ c.count t = count ∧ c.AllTyped t

/-- Where a check leads: the call shows the same as before, or at least all its operands have types. -/
def Comes (c : CallView σ) (P : σ → Prop) (s t : σ) : Prop :=
  c.SameAs P s t ∨ c.Typed P (c.count s) t

/-- Also after it, the call may be checked. -/
theorem Comes.holds {P : σ → Prop} (h : c.Comes P s s') : P s' := by
  rcases h with ⟨hp, -⟩ | ⟨hp, -⟩
  · exact hp
  · exact hp

/-- The number of operands stays. -/
theorem Comes.count {P : σ → Prop} (h : c.Comes P s s') : c.count s' = c.count s := by
  rcases h with ⟨-, hsame⟩ | ⟨-, hcount, -⟩
  · exact hsame.count
  · exact hcount

theorem Comes.trans {P : σ → Prop} (h : c.Comes P s s') (h' : c.Comes P s' s'') :
    c.Comes P s s'' := by
  rcases h' with ⟨hp, hsame'⟩ | ⟨hp, hcount', htyped⟩
  · rcases h with ⟨-, hsame⟩ | ⟨-, hcount, htyped⟩
    · exact .inl ⟨hp, hsame.trans hsame'⟩
    · exact .inr ⟨hp, hsame'.count.trans hcount, hsame'.allTyped htyped⟩
  · exact .inr ⟨hp, hcount'.trans h.count, htyped⟩

theorem Comes.refl {P : σ → Prop} (hs : P s) : c.Comes P s s := .inl ⟨hs, .refl c s⟩

theorem course_comes (P : σ → Prop) : Course (c.Comes P) where
  trans := Comes.trans
  stays h := .refl h.holds

/-- Where a check leads, and what is known of its results. -/
theorem runs_of_comes {α : Type} {P : σ → Prop} {x : Checking σ α} {Q : α → σ → Prop}
    (hx : c.Comes P s (x s).2) (hQ : ∀ a s', x s = (.ok a, s') → Q a s') :
    Runs (c.Comes P) (fun _ => True) s x Q :=
  Runs.of_snd (K := c.Comes P s) hx hQ

namespace OperandsOnly

variable {P : σ → Prop}

section

variable (h : c.OperandsOnly P)

include h

/-- Operands that have types keep having types, also when some of them are converted. -/
theorem keeps_typed (count : Nat) : c.Keeps (c.Typed P count) fun _ => True := by
  have hsame : ∀ {t t'}, P t' → c.ShowsSame t t' → c.Typed P count t → c.Typed P count t' :=
    fun hp hsame ht => ⟨hp, hsame.count.trans ht.2.1, hsame.allTyped ht.2.2⟩
  refine .of_castTo (fun index t ht => ?_) (fun _ index target t ht => ?_) fun request t ht => ?_
  · obtain ⟨hp, hshows⟩ := h.typeOf index t ht.1
    exact hsame hp hshows ht
  · obtain ⟨hp, hshows | hcast⟩ := h.castTo index target t ht.1
    · exact hsame hp hshows ht
    · exact ⟨hp, hcast.count.trans ht.2.1, hcast.allTyped ht.2.2⟩
  · obtain ⟨hp, hshows⟩ := h.note request t ht.1
    exact hsame hp hshows ht

/-- The types of all operands are found only where there are types. -/
theorem typed_of_types {types : List DataType} (hs : P s) (hok : c.types s = (.ok types, s')) :
    c.Typed P (c.count s) s' := by
  have hkeeps := (h.keeps_sameAs s).types s ⟨hs, .refl c s⟩
  rw [hok] at hkeeps
  obtain ⟨hp, hsame⟩ := hkeeps
  refine ⟨hp, hsame.count, fun index hi => ?_⟩
  rw [hsame.count] at hi
  rw [hsame.typeOf]
  unfold CallView.types at hok
  rw [bind_of_ok (state_apply s)] at hok
  -- Each type is asked for in a state in which the call shows the same as in `s`.
  have hall : ∀ {l : List Nat} {ts : List DataType} {t t' : σ}, c.SameAs P s t →
      l.mapM c.typeOf t = (.ok ts, t') → ∀ i ∈ l, ∃ type, (c.typeOf i s).1 = .ok type := by
    intro l
    induction l with
    | nil => exact fun _ _ i hi => absurd hi List.not_mem_nil
    | cons j rest ih =>
      intro ts t t' ht hmap i hi
      rw [List.mapM_cons] at hmap
      obtain ⟨type, t₁, hone, hmap⟩ := bind_eq_ok_iff.mp hmap
      obtain ⟨types, t₂, hrest, -⟩ := bind_eq_ok_iff.mp hmap
      have ht₁ := (h.keeps_sameAs s).typeOf j t ht
      rw [hone] at ht₁
      rcases List.mem_cons.mp hi with rfl | hi
      · exact ⟨type, (ht.2.typeOf i).symm.trans (congrArg Prod.fst hone)⟩
      · exact ih ht₁ hrest i hi
  exact hall ⟨hs, .refl c s⟩ hok index (List.mem_range.mpr hi)

/-! ### Where a check leads -/

/-- Operands that pass the check of every position are taken as written. -/
theorem runs_checkAll {positions : List Family} {omittable : Nat → Bool} (hs : P s)
    (hl : positions.length = c.count s) (converted : Bool) :
    Runs (c.Comes P) (fun _ => True) s
      (Signature.checkAll c positions omittable >>= fun _ => pure converted)
      fun _ s' => c.Takes s' (.families positions omittable) := by
  have hstrict : Signature.familiesStrict c positions omittable s =
      (Signature.checkAll c positions omittable >>= fun _ => pure true) s := by
    unfold Signature.familiesStrict
    rw [bind_of_ok (state_apply s), if_pos hl]
  have hkeeps := (h.keeps_sameAs s).checkAll positions omittable
  refine runs_of_comes (.inl (hkeeps.bind (fun _ => keeps_pure _) s ⟨hs, .refl c s⟩))
    fun b s' hok => ?_
  obtain ⟨⟨⟩, s₁, hall, hret⟩ := bind_eq_ok_iff.mp hok
  cases hret
  have hfits : (Signature.families positions omittable).checkStrict c s = (.ok true, s') :=
    hstrict.trans (bind_of_ok hall _)
  exact h.takes_of_checkStrict hs hfits

/-- The engine is asked only when all operands have types, and whatever it does, a call is accepted only
    after all positions have been checked on the operands as they are in the end. -/
theorem runs_familiesCheck (hs : P s) (positions : List Family) (omittable : Nat → Bool) :
    Runs (c.Comes P) (fun _ => True) s (Signature.familiesCheck c positions omittable)
      fun b s' => b = true → c.Takes s' (.families positions omittable) := by
  have hcourse := course_comes (c := c) P
  unfold Signature.familiesCheck
  refine Runs.state_bind (.ite (fun hl => ?_) fun _ => .pure (.refl hs) fun hb => by cases hb)
  refine Runs.bind hcourse (Q := fun b s' => b = true → c.Takes s' (.families positions omittable))
    ?_ fun fitted s₁ hcomes hfits => ?_
  · have hkeeps := (h.keeps_sameAs s).familiesStrict positions omittable
    refine runs_of_comes (.inl (hkeeps.tolerant s ⟨hs, .refl c s⟩)) fun b s' hok hb => ?_
    subst hb
    rcases tolerant_eq_ok_iff.mp hok with hok | ⟨hfalse, -⟩
    · have hstrict : (Signature.families positions omittable).checkStrict c s = (.ok true, s') := hok
      exact h.takes_of_checkStrict hs hstrict
    · cases hfalse
  refine .ite (fun hf => .pure (.refl hcomes.holds) fun _ => hfits hf) fun _ => ?_
  have hs₁ := hcomes.holds
  have hl₁ : positions.length = c.count s₁ := hl.trans hcomes.count.symm
  refine .ite (fun hco => ?_) fun _ => ?_
  · refine Runs.bind hcourse (Q := fun _ => c.Typed P (c.count s₁)) ?_ fun types s₂ _ htyped => ?_
    · exact runs_of_comes (.inl ((h.keeps_sameAs s₁).types s₁ ⟨hs₁, .refl c s₁⟩))
        fun types s₂ hok => h.typed_of_types hs₁ hok
    refine Runs.bind hcourse (Q := fun _ => c.Typed P (c.count s₁)) ?_ fun converted s₃ _ ht₃ => ?_
    · have hkeeps := (h.keeps_typed (c.count s₁)).coerce hco types positions trivial s₂ htyped
      refine runs_of_comes (.inr ?_) fun converted s₃ hok => ?_
      · rwa [htyped.2.1]
      · rwa [hok] at hkeeps
    · exact (h.runs_checkAll ht₃.1 (hl₁.trans ht₃.2.1.symm) converted).imp fun _ _ _ ht _ => ht
  · exact (h.runs_checkAll hs₁ hl₁ false).imp fun _ _ _ ht _ => ht

/-- Where trying alternatives as written leads, and what it says of the operands there. -/
theorem runs_anyStrict (hs : P s) (alternatives : List Signature) :
    Runs (c.Comes P) (fun _ => True) s (Signature.anyStrict c alternatives) fun b s' =>
      (Signature.anyStrict c alternatives s').1 = .ok b := by
  have hsame := (h.keeps_sameAs s).anyStrict alternatives s ⟨hs, .refl c s⟩
  refine runs_of_comes (.inl hsame) fun b s' hok => ?_
  rw [hok] at hsame
  exact (h.alike.anyStrict alternatives s s' ⟨hs, hsame⟩).answer_eq.trans (congrArg Prod.fst hok)

/-- Where no alternative has been found as written, a choice takes a call that one of them has come to
    take only because its operands have been converted. -/
theorem takes_oneOf_of_comes {alternatives : List Signature} {signature : Signature} (hs : P s)
    (hrefused : (Signature.anyStrict c alternatives s).1 = .ok false) (hcomes : c.Comes P s s')
    (hmem : signature ∈ alternatives) (htakes : c.Takes s' signature) :
    c.Takes s' (.oneOf alternatives) := by
  have hsteady := h.steady hcomes.holds
  rcases hcomes with hsame | ⟨-, -, htyped⟩
  -- The alternative would have been found before.
  · have hanswer := (h.alike.anyStrict alternatives s s' ⟨hs, hsame⟩).answer_eq
    exact absurd (hanswer.trans hrefused) (hsteady.anyStrict_ne_false hmem htakes)
  · exact (hsteady.takes_oneOf_iff htyped.typesAll alternatives).mpr ⟨signature, hmem, htakes⟩

end

mutual

/-- A signature accepts only a call that it then takes as written. -/
theorem runs_check (h : c.OperandsOnly P) {s : σ} (hs : P s) : ∀ signature : Signature,
    Runs (c.Comes P) (fun _ => True) s (signature.check c) fun b s' => b = true → c.Takes s' signature
  | .families positions omittable => h.runs_familiesCheck hs positions omittable
  | .openEnded _ answer => .pure (.refl hs) fun hb => congrArg Except.ok hb
  | .oneOf alternatives => by
    have hcourse := course_comes (c := c) P
    unfold Signature.check
    refine (h.runs_anyStrict hs alternatives).bind hcourse fun fitted s₁ hcomes₁ hanswer => ?_
    have hs₁ := hcomes₁.holds
    cases fitted with
    | true => exact .pure (.refl hs₁) fun _ => takes_oneOf_of_anyStrict hanswer
    | false =>
      refine (h.runs_anyCheck hs₁ alternatives).bind hcourse fun found s₂ hcomes₂ hfound => ?_
      have hs₂ := hcomes₂.holds
      cases found with
      | true =>
        obtain ⟨signature, hmem, htakes⟩ := hfound rfl
        exact .pure (.refl hs₂) fun _ => h.takes_oneOf_of_comes hs₁ hanswer hcomes₂ hmem htakes
      | false =>
        have hkeeps := (h.keeps_sameAs s₂).mismatch (α := Bool)
          ((Signature.oneOf alternatives).allowed c.operator)
        exact runs_of_comes (.inl (hkeeps s₂ ⟨hs₂, .refl c s₂⟩))
          fun b s' hok => absurd hok mismatch_ne_ok

theorem runs_anyCheck (h : c.OperandsOnly P) {s : σ} (hs : P s) : ∀ alternatives : List Signature,
    Runs (c.Comes P) (fun _ => True) s (Signature.anyCheck c alternatives) fun b s' =>
      b = true → ∃ signature ∈ alternatives, c.Takes s' signature
  | [] => .pure (.refl hs) fun hb => by cases hb
  | signature :: rest => by
    unfold Signature.anyCheck
    refine (h.runs_check hs signature).tolerant.bind (course_comes P) fun found s₁ hcomes hfound => ?_
    have hs₁ := hcomes.holds
    cases found with
    | true => exact .pure (.refl hs₁) fun _ => ⟨signature, by simp, hfound rfl⟩
    | false =>
      refine (h.runs_anyCheck hs₁ rest).imp fun b s' _ hrest hb => ?_
      obtain ⟨other, hmem, htakes⟩ := hrest hb
      exact ⟨other, List.mem_cons_of_mem _ hmem, htakes⟩

end

/-- **An accepted call stays accepted.** Whatever the engine has done to its operands, a call that a
    signature has accepted is, as it was left, accepted as written. It is then accepted by the same
    check, too, in the same way with any engine, any means of conversion and any record, so that the
    engine has no part in it; and nothing that the call shows is changed. -/
theorem check_again (h : c.OperandsOnly P) {signature : Signature} (hs : P s)
    (hok : signature.check c s = (.ok true, s')) :
    ∃ s'', signature.checkStrict c s' = (.ok true, s'') ∧ signature.check c s' = (.ok true, s'') ∧
      c.ShowsSame s' s'' ∧
      ∀ engine castTo note,
        signature.check (c.withConversion engine castTo note) s' = (.ok true, s'') := by
  obtain ⟨hcomes, htakes⟩ := (h.runs_check hs signature).of_ok hok
  have hstrict : signature.checkStrict c s' = (.ok true, (signature.checkStrict c s').2) :=
    Prod.ext (htakes rfl) rfl
  have hsame := (h.keeps_sameAs s').checkStrict signature s' ⟨hcomes.holds, .refl c s'⟩
  refine ⟨_, hstrict, Signature.check_of_checkStrict hstrict, hsame.2, fun engine castTo note => ?_⟩
  refine Signature.check_of_checkStrict ?_
  rw [checkStrict_withConversion]
  exact hstrict

end OperandsOnly

end CallView

/-! ### Calls outside a statement -/

namespace DetachedCall

/-- A call outside a statement shows its operands and nothing else. -/
theorem operandsOnly_view (operator : String) (coerces : Bool) (engine : CoercionEngine) :
    (view operator coerces engine).OperandsOnly fun _ => True where
  toStable := stable_view operator coerces engine
  castTo index target s _ := by
    refine ⟨trivial, ?_⟩
    show (view operator coerces engine).ShowsSame s (castTo index target s).2 ∨
      (view operator coerces engine).ShowsCast index target s (castTo index target s).2
    unfold castTo
    by_cases hi : index < s.operands.length
    · rw [if_pos hi]
      refine .inr ⟨List.length_set, ?_, fun other hother => ?_⟩
      · simp [view, typeOf, hi, Operand.type]
      · have hne : index ≠ other := fun he => hother he.symm
        simp only [view, typeOf, List.getElem?_set_ne hne]
        cases s.operands[other]? <;> rfl
    · rw [if_neg hi]
      exact .inl (.refl _ s)

/-- An engine that casts the first operand whatever it is asked for, and reports success: the first
    alternative is refused nevertheless, and then the second one fits as written. It accepts the call
    again as it was left. -/
theorem check_again_misreported :
    let engine : CoercionEngine :=
      ⟨fun _ _ _ => .cast 0 (.notNull .varchar) fun _ => .stop true⟩
    let c := view "PAIR" true engine
    let signature : Signature := .oneOf
      [.required [.date, .date], .oneOf [.openEnded 3 false, .required [.character, .integer]]]
    let s : DetachedCall := ⟨[.typed (.notNull .boolean), .typed (.notNull .integer)], [], []⟩
    (signature.check c s).1 = .ok true ∧
      (signature.checkStrict c (signature.check c s).2).1 = .ok true ∧
      (signature.check c (signature.check c s).2).1 = .ok true := by
  intro engine c signature s
  have hok : signature.check c s = (.ok true, (signature.check c s).2) := rfl
  obtain ⟨s'', hstrict, hcheck, -⟩ :=
    (operandsOnly_view "PAIR" true engine).check_again trivial hok
  exact ⟨rfl, congrArg Prod.fst hstrict, congrArg Prod.fst hcheck⟩

end DetachedCall

end SqlTyping
