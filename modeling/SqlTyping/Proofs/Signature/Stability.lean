import SqlTyping.Proofs.Keeping
import SqlTyping.Proofs.Mirroring
import SqlTyping.Proofs.Signature.Alternatives

namespace SqlTyping

/-!
# Calls that show the same

What a signature sees of a call is what the call shows: its operands and their types, or the faults in the
place of types. Where looking does not change it, equal shows get equal answers:

* `CallView.ShowsSame` — a call shows the same in two states;
* `CallView.Stable P c` — looking at the call and noting requests change nothing that it shows;
* `CallView.Stable.alike` — what is read of the call in states that show the same ends alike;
* `CallView.Stable.takes_of_sameAs` — and a signature takes it in both states or in none;
* `DetachedCall.stable_view` — this is so for calls outside a statement.
-/

namespace Checking

variable {σ τ α : Type}

/-- Checks with equal answers end alike. -/
theorem endAlike_of_eq {M : σ → τ → Prop} {s : σ} {t : τ} {x : Checking σ α} {y : Checking τ α}
    (h : (y t).1 = (x s).1) (hm : M (x s).2 (y t).2) : EndAlike M Eq s t x y := by
  cases hx : x s with
  | mk r s' =>
    cases hy : y t with
    | mk r' t' =>
      rw [hx, hy] at h hm
      obtain rfl : r' = r := h
      cases r' with
      | ok a => exact .ok hx hy rfl hm
      | error e => exact .stop hx hy hm

end Checking

namespace CallView

open Checking

variable {σ : Type} {c : CallView σ} {s s' s'' : σ}

namespace Keeps

variable {P : σ → Prop} {asked : List Family → Prop}

/-- What looking keeps is kept when the call is written down. -/
theorem signatureText (h : c.Keeps P asked) : c.signatureText.Keeps P :=
  keeps_iff_guards.mpr (guards_signatureText (fun _ => True) (fun _ _ _ _ => trivial)
    fun index _ => keeps_iff_guards.mp (h.typeOf index))

theorem mismatch {α : Type} (h : c.Keeps P asked) (allowed : String) :
    (c.mismatch allowed : Checking σ α).Keeps P :=
  keeps_iff_guards.mpr (h.guards.mismatch allowed)

theorem checkAll (h : c.Keeps P asked) (positions : List Family) (omittable : Nat → Bool) :
    (Signature.checkAll c positions omittable).Keeps P :=
  keeps_iff_guards.mpr (h.guards.checkFrom positions omittable fun _ _ => trivial)

end Keeps

/-- A call shows the same in two states, whatever operand is asked for. -/
structure ShowsSame (c : CallView σ) (s s' : σ) : Prop where
  count : c.count s' = c.count s
  isNull : ∀ index, c.isNull s' index = c.isNull s index
  isDefault : ∀ index, c.isDefault s' index = c.isDefault s index
  typeOf : ∀ index, (c.typeOf index s').1 = (c.typeOf index s).1

namespace ShowsSame

theorem refl (c : CallView σ) (s : σ) : c.ShowsSame s s :=
  ⟨rfl, fun _ => rfl, fun _ => rfl, fun _ => rfl⟩

theorem symm (h : c.ShowsSame s s') : c.ShowsSame s' s where
  count := h.count.symm
  isNull index := (h.isNull index).symm
  isDefault index := (h.isDefault index).symm
  typeOf index := (h.typeOf index).symm

theorem trans (h : c.ShowsSame s s') (h' : c.ShowsSame s' s'') : c.ShowsSame s s'' where
  count := h'.count.trans h.count
  isNull index := (h'.isNull index).trans (h.isNull index)
  isDefault index := (h'.isDefault index).trans (h.isDefault index)
  typeOf index := (h'.typeOf index).trans (h.typeOf index)

theorem seesAlike (h : c.ShowsSame s s') : c.SeesAlike s s' :=
  ⟨h.count, h.isNull, h.isDefault, fun index _ _ => h.typeOf index⟩

end ShowsSame

/-- The contract of a call that may be converted: in all states `P` in which it may be, looking at it and
    keeping a request for the record change nothing that it shows. Whatever binds a call to its operands has
    to keep it, in a statement (`CallFrame.stable_view`) and outside one (`DetachedCall.stable_view`). -/
structure Stable (P : σ → Prop) (c : CallView σ) : Prop where
  typeOf : ∀ index s, P s → P (c.typeOf index s).2 ∧ c.ShowsSame s (c.typeOf index s).2
  note : ∀ request s, P s → P (c.note request s) ∧ c.ShowsSame s (c.note request s)

/-- The states in which the call shows the same as in `s`. -/
def SameAs (c : CallView σ) (P : σ → Prop) (s t : σ) : Prop := P t ∧ c.ShowsSame s t

namespace Stable

variable {P : σ → Prop}

section

variable (h : c.Stable P)

include h

/-- Looking at the call changes nothing that it shows. -/
theorem keeps_sameAs (s : σ) : c.Keeps (c.SameAs P s) fun _ => False where
  typeOf index t ht := by
    obtain ⟨hp, hsame⟩ := h.typeOf index t ht.1
    exact ⟨hp, ht.2.trans hsame⟩
  coerce _ _ _ hasked := hasked.elim

theorem steady (hs : P s) : c.Steady s := by
  intro s' hlooked
  suffices hsame : c.SameAs P s s' from hsame.2.seesAlike
  induction hlooked with
  | refl => exact ⟨hs, .refl c s⟩
  | tail _ hlook ih =>
    obtain ⟨index, -, -, rfl⟩ := hlook
    exact (h.keeps_sameAs s).typeOf index _ ih

/-- In states in which it shows the same the call looks alike. -/
theorem alike : c.Alike .equality (fun s t => P s ∧ c.SameAs P s t) c where
  operator := rfl
  coerces := rfl
  engine := rfl
  count hm := hm.2.2.count
  isNull index hm := hm.2.2.isNull index
  isDefault index hm := hm.2.2.isDefault index
  typeOf index s t hm := by
    obtain ⟨hp, hsame⟩ := h.typeOf index s hm.1
    obtain ⟨hp', hsame'⟩ := h.typeOf index t hm.2.1
    refine endAlike_of_eq (hm.2.2.typeOf index) ⟨hp, hp', ?_⟩
    exact (hsame.symm.trans hm.2.2).trans hsame'
  note {s t request request'} hrequest hm := by
    obtain rfl := hrequest.eq
    obtain ⟨hp, hsame⟩ := h.note request' s hm.1
    obtain ⟨hp', hsame'⟩ := h.note request' t hm.2.1
    exact ⟨hp, hp', (hsame.symm.trans hm.2.2).trans hsame'⟩

/-- The plan of the engine is carried out where the call shows the same. -/
theorem exists_coerce_eq (hs : P s) (types : List DataType) (positions : List Family) :
    ∃ s', c.SameAs P s s' ∧
      c.coerce types positions s = (c.engine.plan c.operator types positions).run c s' := by
  obtain ⟨call, s₁, htext⟩ := c.signatureText_total s
  have hsame := (h.keeps_sameAs s).signatureText s ⟨hs, .refl c s⟩
  rw [htext] at hsame
  obtain ⟨hp, hsame'⟩ := h.note ⟨call, types, positions⟩ s₁ hsame.1
  refine ⟨c.note ⟨call, types, positions⟩ s₁, ⟨hp, hsame.2.trans hsame'⟩, ?_⟩
  unfold CallView.coerce
  rw [bind_of_ok htext, bind_of_ok (update_apply _ _)]

/-- Where the call shows the same, a signature takes it as before. -/
theorem takes_of_sameAs {signature : Signature} (hs : P s) (hm : c.SameAs P s s')
    (htakes : c.Takes s signature) : c.Takes s' signature :=
  (h.alike.checkStrict signature s s' ⟨hs, hm⟩).answer_eq.trans htakes

/-- What is taken is still taken when it has been looked at. -/
theorem takes_of_checkStrict {signature : Signature} (hs : P s)
    (hok : signature.checkStrict c s = (.ok true, s')) : c.Takes s' signature := by
  have hm := (h.keeps_sameAs s).checkStrict signature s ⟨hs, .refl c s⟩
  rw [hok] at hm
  exact h.takes_of_sameAs hs hm (congrArg Prod.fst hok)

end

end Stable

end CallView

/-- A call outside a statement shows the same however often it is looked at. -/
theorem DetachedCall.stable_view (operator : String) (coerces : Bool) (engine : CoercionEngine) :
    (view operator coerces engine).Stable fun _ => True where
  typeOf index s _ := by
    refine ⟨trivial, ?_⟩
    show (view operator coerces engine).ShowsSame s (typeOf index s).2
    rw [typeOf_state]
    exact .refl _ s
  note request s _ := by
    refine ⟨trivial, rfl, fun _ => rfl, fun _ => rfl, fun index => ?_⟩
    show (typeOf index _).1 = (typeOf index s).1
    simp only [typeOf, view]
    cases s.operands[index]? <;> rfl

end SqlTyping
