import SqlTyping.Proofs.Guarding

namespace SqlTyping

/-!
# Checks that keep an invariant

A check changes its state also when it stops with a fault, so an invariant is kept when it holds
again after every outcome.

* `Checking.Keeps P x` — `P` holds after `x` whenever it held before;
* `Checking.Ends P Q E x` — from `P` the check `x` leads to `Q` with a result, to `E` with a fault;
* `CallView.Keeps P asked c` — looking at the call keeps `P`, and so does its engine when it is
  asked for one of the lists of families `asked`;
* `CallView.Keeps.of_castTo` — with any engine this only takes that casts of operands keep `P`;
* `CallView.Keeps.check` — then every check of a signature keeps `P`.
-/

namespace Checking

variable {σ τ α β : Type} {P : σ → Prop}

/-- However the check ends, the invariant holds afterwards if it held before. -/
def Keeps (P : σ → Prop) (x : Checking σ α) : Prop := ∀ s, P s → P (x s).2

theorem keeps_pure (a : α) : (pure a : Checking σ α).Keeps P := fun _ h => h

theorem keeps_fail (e : Fault) : (fail e : Checking σ α).Keeps P := fun _ h => h

theorem keeps_state : (state : Checking σ σ).Keeps P := fun _ h => h

theorem keeps_ofExcept (r : Except Fault α) : (ofExcept r : Checking σ α).Keeps P := fun _ h => h

theorem keeps_update {f : σ → σ} (h : ∀ s, P s → P (f s)) : (update f).Keeps P := h

/-- In a sequence each step may use that the invariant holds before it and what the step before it
    answered. -/
theorem Keeps.bind' {x : Checking σ α} {f : α → Checking σ β} (hx : x.Keeps P)
    (hf : ∀ s a s', P s → x s = (.ok a, s') → P s' → P (f a s').2) : (x >>= f).Keeps P := by
  intro s hs
  have hs' := hx s hs
  rw [bind_apply]
  cases hr : x s with
  | mk r s' =>
    rw [hr] at hs'
    cases r with
    | ok a => exact hf s a s' hs hr hs'
    | error e => exact hs'

/-- A sequence keeps what both parts keep. -/
theorem Keeps.bind {x : Checking σ α} {f : α → Checking σ β} (hx : x.Keeps P)
    (hf : ∀ a, (f a).Keeps P) : (x >>= f).Keeps P :=
  Keeps.bind' hx fun _ a s' _ _ hs' => hf a s' hs'

/-- A check that starts by reading the state. -/
theorem keeps_state_bind {f : σ → Checking σ β} (hf : ∀ s, P s → P (f s s).2) :
    (state >>= f).Keeps P := hf

theorem Keeps.ite {c : Prop} [Decidable c] {x y : Checking σ α} (hx : c → x.Keeps P)
    (hy : ¬ c → y.Keeps P) : (if c then x else y).Keeps P := by
  by_cases h : c
  · rw [if_pos h]
    exact hx h
  · rw [if_neg h]
    exact hy h

theorem Keeps.tolerant {x : Checking σ Bool} (hx : x.Keeps P) : x.tolerant.Keeps P := by
  intro s hs
  have hs' := hx s hs
  unfold Checking.tolerant
  cases hr : x s with
  | mk r s' =>
    rw [hr] at hs'
    cases r with
    | ok b => exact hs'
    | error e =>
      simp only
      split
      · exact hs'
      · exact hs'

theorem keeps_forM {f : α → Checking σ Unit} {l : List α} (hf : ∀ a ∈ l, (f a).Keeps P) :
    (l.forM f).Keeps P := by
  induction l with
  | nil => exact keeps_pure ()
  | cons a rest ih =>
    exact (hf a (by simp)).bind fun _ => ih fun b hb => hf b (by simp [hb])

/-- A check on a part keeps what writing the part back keeps. -/
theorem Keeps.focus {get : τ → σ} {put : τ → σ → τ} {Q : τ → Prop} {x : Checking σ α}
    (h : ∀ t, Q t → Q (put t (x (get t)).2)) : (Checking.focus get put x).Keeps Q := by
  intro t ht
  exact h t ht

end Checking

/-! ### Checks with an outcome -/

namespace Checking

variable {σ α β : Type} {P : σ → Prop} {Q : α → σ → Prop} {R : β → σ → Prop} {E : σ → Prop}

/-- From a state with `P` the check ends with a result and a state in `Q`, or with a fault in a state
    with `E`. -/
def Ends (P : σ → Prop) (Q : α → σ → Prop) (E : σ → Prop) (x : Checking σ α) : Prop :=
  ∀ s, P s → match x s with
    | (.ok a, s') => Q a s'
    | (.error _, s') => E s'

theorem ends_pure {a : α} (h : ∀ s, P s → Q a s) : (pure a : Checking σ α).Ends P Q E := h

theorem ends_fail {e : Fault} (h : ∀ s, P s → E s) : (fail e : Checking σ α).Ends P Q E := h

/-- A value that does not depend on the state. -/
theorem ends_ofExcept {r : Except Fault α} (h : ∀ a s, P s → r = .ok a → Q a s)
    (hE : ∀ s, P s → E s) : (ofExcept r).Ends P Q E := by
  intro s hs
  cases r with
  | ok a => exact h a s hs rfl
  | error e => exact hE s hs

/-- The second part of a sequence starts where the first one ends. -/
theorem Ends.bind {x : Checking σ α} {f : α → Checking σ β} (hx : x.Ends P Q E)
    (hf : ∀ a, (f a).Ends (Q a) R E) : (x >>= f).Ends P R E := by
  intro s hs
  have hs' := hx s hs
  rw [bind_apply]
  cases hr : x s with
  | mk r s' =>
    rw [hr] at hs'
    cases r with
    | ok a => exact hf a s' hs'
    | error e => exact hs'

/-- A check that starts by reading the state. -/
theorem ends_state_bind {f : σ → Checking σ β} (h : ∀ s, P s → (f s).Ends (· = s) R E) :
    (state >>= f).Ends P R E :=
  fun s hs => h s hs s rfl

/-- A check that keeps `P` ends in it; with a fault this may be all that is known. -/
theorem Keeps.ends {x : Checking σ α} (hx : x.Keeps P) (hE : ∀ s, P s → E s) :
    x.Ends P (fun _ => P) E := by
  intro s hs
  have hs' := hx s hs
  cases hr : x s with
  | mk r s' =>
    rw [hr] at hs'
    cases r with
    | ok a => exact hs'
    | error e => exact hE s' hs'

/-- An end that does not depend on the outcome. -/
theorem ends_of_forall {x : Checking σ α} (h : ∀ s, P s → E (x s).2) : x.Ends P (fun _ => E) E := by
  intro s hs
  have hs' := h s hs
  cases hr : x s with
  | mk r s' =>
    rw [hr] at hs'
    cases r with
    | ok a => exact hs'
    | error e => exact hs'

theorem Ends.snd {x : Checking σ α} (h : x.Ends P (fun _ => E) E) {s : σ} (hs : P s) :
    E (x s).2 := by
  have hs' := h s hs
  cases hr : x s with
  | mk r s' =>
    rw [hr] at hs'
    cases r with
    | ok a => exact hs'
    | error e => exact hs'

theorem Ends.imp {P' : σ → Prop} {Q' : α → σ → Prop} {E' : σ → Prop} {x : Checking σ α}
    (h : x.Ends P Q E) (hP : ∀ s, P' s → P s) (hQ : ∀ a s, Q a s → Q' a s)
    (hE : ∀ s, E s → E' s) : x.Ends P' Q' E' := by
  intro s hs
  have hs' := h s (hP s hs)
  cases hr : x s with
  | mk r s' =>
    rw [hr] at hs'
    cases r with
    | ok a => exact hQ a s' hs'
    | error e => exact hE s' hs'

theorem Ends.ite {c : Prop} [Decidable c] {x y : Checking σ α} (hx : c → x.Ends P Q E)
    (hy : ¬ c → y.Ends P Q E) : (if c then x else y).Ends P Q E := by
  by_cases h : c
  · rw [if_pos h]
    exact hx h
  · rw [if_neg h]
    exact hy h

end Checking

/-! ### Checks of a call -/

namespace Checking

variable {σ α : Type} {P : σ → Prop} {x : Checking σ α}

/-- Keeping an invariant is being guarded without an eye on the faults. -/
theorem keeps_iff_guards : x.Keeps P ↔ x.Guards P fun _ => True := by
  constructor
  · intro h s hs
    have hs' := h s hs
    refine .of_outcomes (fun a s' hx => ?_) fun e s' hx => ?_
    · rw [hx] at hs'
      exact ⟨hs', trivial⟩
    · rw [hx] at hs'
      exact ⟨hs', trivial⟩
  · exact fun h s hs => (h s hs).rel

end Checking

/-- Looking at the operands of a call keeps the invariant, and so does its engine when it is asked
    for one of the given lists of families. It is asked only when operands may be converted. -/
structure CallView.Keeps {σ : Type} (P : σ → Prop) (asked : List Family → Prop) (c : CallView σ) :
    Prop where
  typeOf : ∀ index, (c.typeOf index).Keeps P
  coerce : c.coerces = true → ∀ types positions, asked positions →
    (c.coerce types positions).Keeps P

namespace CallView

open Checking

variable {σ : Type} {P : σ → Prop} {c : CallView σ}

/-- The standard engine casts only operands for which there is a conversion. -/
theorem keeps_run_implicitCasts {pairs : List (DataType × Family)} {start : Nat} {converted : Bool}
    (hcast : ∀ index source family target, pairs[index]? = some (source, family) →
      implicitCast? source family = some target → (c.castTo (start + index) target).Keeps P) :
    ((CoercionPlan.implicitCasts start converted pairs).run c).Keeps P :=
  keeps_iff_guards.mpr (guards_run_implicitCasts fun index source family target hget himplicit =>
    keeps_iff_guards.mp (hcast index source family target hget himplicit))

/-- Noting a request and then carrying out a plan. -/
theorem keeps_coerce (h : ∀ index, (c.typeOf index).Keeps P)
    (hnote : ∀ request s, P s → P (c.note request s)) {types : List DataType}
    {positions : List Family} (hrun : ((c.engine.plan c.operator types positions).run c).Keeps P) :
    (c.coerce types positions).Keeps P := by
  have htext : c.signatureText.Guards P fun _ => True :=
    guards_signatureText (fun _ => True) (fun _ _ _ _ => trivial)
      fun index _ => keeps_iff_guards.mp (h index)
  exact keeps_iff_guards.mpr (guards_coerce htext hnote (keeps_iff_guards.mp hrun))

namespace Keeps

variable {asked : List Family → Prop}

/-- Whatever the engine does, it keeps what a cast of an operand keeps. -/
theorem of_castTo (h : ∀ index, (c.typeOf index).Keeps P)
    (hcast : c.coerces = true → ∀ index target, (c.castTo index target).Keeps P)
    (hnote : ∀ request s, P s → P (c.note request s)) : c.Keeps P fun _ => True where
  typeOf := h
  coerce hc _ _ _ := by
    refine keeps_coerce h hnote (keeps_iff_guards.mpr ?_)
    exact guards_run (fun index => keeps_iff_guards.mp (h index))
      (fun index target => keeps_iff_guards.mp (hcast hc index target)) (fun _ => trivial) _

theorem guards (h : c.Keeps P asked) :
    c.Guards P (fun _ => True) (fun _ => True) asked where
  shown _ _ _ _ := trivial
  typeOf index _ := keeps_iff_guards.mp (h.typeOf index)
  coerce hc types positions hasked := keeps_iff_guards.mp (h.coerce hc types positions hasked)
  refused _ _ := trivial
  refusedNull _ := trivial

theorem types (h : c.Keeps P asked) : c.types.Keeps P := keeps_iff_guards.mpr h.guards.types

theorem familiesStrict (h : c.Keeps P asked) (positions : List Family) (omittable : Nat → Bool) :
    (Signature.familiesStrict c positions omittable).Keeps P :=
  keeps_iff_guards.mpr (h.guards.familiesStrict positions omittable)

theorem checkStrict (h : c.Keeps P asked) (signature : Signature) :
    (signature.checkStrict c).Keeps P :=
  keeps_iff_guards.mpr (h.guards.checkStrict signature)

theorem anyStrict (h : c.Keeps P asked) (alternatives : List Signature) :
    (Signature.anyStrict c alternatives).Keeps P :=
  keeps_iff_guards.mpr (h.guards.anyStrict alternatives)

/-- The check of a signature keeps an invariant when its leaves of the right length are lists of
    families for which the engine keeps it. -/
theorem check (h : c.Keeps P asked) (signature : Signature)
    (hask : ∀ positions omittable, .families positions omittable ∈ signature.leaves →
      ∀ s, P s → positions.length = c.count s → asked positions) : (signature.check c).Keeps P :=
  keeps_iff_guards.mpr (h.guards.check signature hask)

end Keeps

end CallView

end SqlTyping
