import SqlTyping.Signature.Check

namespace SqlTyping

/-!
# Checks that are guarded

What a check may do to the state, and with which faults it may stop:

* `Checking.Runs R E s x Q` — from `s` the check `x` comes to a state that `R` relates to `s`, with a
  result in `Q` or with a fault in `E`;
* `Checking.Course` — what is asked of `R` so that checks can be put in sequence;
* `Checking.Guards K E x` — the same for an invariant `K`, whatever the result;
* `CoercionPlan.FaultsWithin`, `CoercionEngine.FaultsWithin` — an engine adds no faults of its own but
  those of a class;
* `CallView.Guards K E looked asked c` — looking at the operands of a call is guarded, and so is its
  engine;
* `CallView.Guards.check` — then every check of a signature is guarded.
-/

namespace Checking

variable {σ α β : Type} {R : σ → σ → Prop} {E : Fault → Prop} {s : σ}

/-- From `s` the check ends in a state to which `R` leads from `s`, with a result in `Q` or with a fault
    in `E`. -/
def Runs (R : σ → σ → Prop) (E : Fault → Prop) (s : σ) (x : Checking σ α) (Q : α → σ → Prop) : Prop :=
  match x s with
  | (.ok a, s') => R s s' ∧ Q a s'
  | (.error e, s') => R s s' ∧ E e

/-- What happens to the state in one step after another; nothing happens to a state that has been
    reached. -/
structure Course (R : σ → σ → Prop) : Prop where
  trans : ∀ {a b c}, R a b → R b c → R a c
  stays : ∀ {a b}, R a b → R b b

namespace Runs

variable {Q Q' : α → σ → Prop} {P : β → σ → Prop}

theorem pure {a : α} (hs : R s s) (h : Q a s) : Runs R E s (pure a) Q := ⟨hs, h⟩

theorem fail {e : Fault} (hs : R s s) (h : E e) : Runs R E s (fail e) Q := ⟨hs, h⟩

theorem ofExcept {r : Except Fault α} (hs : R s s) (h : ∀ a, r = .ok a → Q a s)
    (hE : ∀ e, r = .error e → E e) : Runs R E s (ofExcept r) Q := by
  cases r with
  | ok a => exact ⟨hs, h a rfl⟩
  | error e => exact ⟨hs, hE e rfl⟩

/-- A check is told by its two outcomes. -/
theorem of_outcomes {x : Checking σ α} (h : ∀ a s', x s = (.ok a, s') → R s s' ∧ Q a s')
    (hE : ∀ e s', x s = (.error e, s') → R s s' ∧ E e) : Runs R E s x Q := by
  unfold Runs
  cases hx : x s with
  | mk r s' =>
    cases r with
    | ok a => exact h a s' hx
    | error e => exact hE e s' hx

theorem of_ok {x : Checking σ α} {a : α} {s' : σ} (h : Runs R E s x Q) (hx : x s = (.ok a, s')) :
    R s s' ∧ Q a s' := by
  unfold Runs at h
  rw [hx] at h
  exact h

theorem of_error {x : Checking σ α} {e : Fault} {s' : σ} (h : Runs R E s x Q)
    (hx : x s = (.error e, s')) : R s s' ∧ E e := by
  unfold Runs at h
  rw [hx] at h
  exact h

/-- However the check ends. -/
theorem rel {x : Checking σ α} (h : Runs R E s x Q) : R s (x s).2 := by
  cases hx : x s with
  | mk r s' =>
    cases r with
    | ok a => exact (h.of_ok hx).1
    | error e => exact (h.of_error hx).1

theorem imp {x : Checking σ α} (h : Runs R E s x Q) (hQ : ∀ a s', R s s' → Q a s' → Q' a s') :
    Runs R E s x Q' := by
  refine of_outcomes (fun a s' hx => ?_) fun e s' hx => h.of_error hx
  obtain ⟨hr, hq⟩ := h.of_ok hx
  exact ⟨hr, hQ a s' hr hq⟩

/-- What is known of a result holds with it. -/
theorem with_result {x : Checking σ α} (h : Runs R E s x Q)
    (hQ : ∀ a s', x s = (.ok a, s') → Q' a s') : Runs R E s x Q' :=
  of_outcomes (fun a s' hx => ⟨(h.of_ok hx).1, hQ a s' hx⟩) fun _ _ hx => h.of_error hx

/-- What holds of the state that is reached, however the check ends. -/
theorem of_snd {K : σ → Prop} {x : Checking σ α} (h : K (x s).2)
    (hok : ∀ a s', x s = (.ok a, s') → Q a s') : Runs (fun _ => K) (fun _ => True) s x Q := by
  refine of_outcomes (fun a s' hx => ?_) fun e s' hx => ?_
  · rw [hx] at h
    exact ⟨h, hok a s' hx⟩
  · rw [hx] at h
    exact ⟨h, trivial⟩

theorem ite {c : Prop} [Decidable c] {x y : Checking σ α} (hx : c → Runs R E s x Q)
    (hy : ¬ c → Runs R E s y Q) : Runs R E s (if c then x else y) Q := by
  by_cases h : c
  · rw [if_pos h]
    exact hx h
  · rw [if_neg h]
    exact hy h

/-- A check on a part of the state. -/
theorem focus {τ : Type} {S : τ → τ → Prop} {get : τ → σ} {put : τ → σ → τ} {t : τ}
    {x : Checking σ α} (hx : Runs R E (get t) x Q) (h : ∀ s', R (get t) s' → S t (put t s')) :
    Runs S E t (focus get put x) fun _ _ => True := by
  unfold Runs Checking.focus
  cases hr : x (get t) with
  | mk r s' =>
    cases r with
    | ok a => exact ⟨h s' (hx.of_ok hr).1, trivial⟩
    | error e => exact ⟨h s' (hx.of_error hr).1, (hx.of_error hr).2⟩

/-- A check that starts by reading the state. -/
theorem state_bind {f : σ → Checking σ β} (h : Runs R E s (f s) P) : Runs R E s (state >>= f) P := h

/-- A step whose result is known leaves the rest to be run. -/
theorem bind_ok {x : Checking σ α} {f : α → Checking σ β} {a : α} (hx : x s = (.ok a, s))
    (hf : Runs R E s (f a) P) : Runs R E s (x >>= f) P := by
  refine .of_outcomes (fun b s' h => ?_) fun e s' h => ?_
  · rw [bind_of_ok hx] at h
    exact hf.of_ok h
  · rw [bind_of_ok hx] at h
    exact hf.of_error h

section

variable (hR : Course R)

include hR

/-- The second part of a sequence starts where the first one ends. -/
theorem bind {x : Checking σ α} {f : α → Checking σ β} (hx : Runs R E s x Q)
    (hf : ∀ a s', R s s' → Q a s' → Runs R E s' (f a) P) : Runs R E s (x >>= f) P := by
  cases hr : x s with
  | mk r s' =>
    cases r with
    | ok a =>
      obtain ⟨hs, hq⟩ := hx.of_ok hr
      have hrest := hf a s' hs hq
      refine of_outcomes (fun b t hb => ?_) fun e t he => ?_
      · rw [bind_of_ok hr] at hb
        exact ⟨hR.trans hs (hrest.of_ok hb).1, (hrest.of_ok hb).2⟩
      · rw [bind_of_ok hr] at he
        exact ⟨hR.trans hs (hrest.of_error he).1, (hrest.of_error he).2⟩
    | error e =>
      refine of_outcomes (fun b t hb => ?_) fun e' t he => ?_
      · rw [bind_of_error hr] at hb
        cases hb
      · rw [bind_of_error hr] at he
        cases he
        exact hx.of_error hr

/-- Each of a list of checks is run at some later time, where `J` holds, which all of them keep. What
    holds of one of them then stays. -/
theorem forM_keeping {f : α → Checking σ Unit} {l : List α} {J : σ → Prop} {K : α → σ → Prop}
    (hs : R s s) (hJ : J s) (hK : ∀ a t t', R t t' → K a t → K a t')
    (h : ∀ a ∈ l, ∀ t, R s t → J t → Runs R E t (f a) fun _ t' => K a t' ∧ J t') :
    Runs R E s (l.forM f) fun _ t => (∀ a ∈ l, K a t) ∧ J t := by
  induction l generalizing s with
  | nil => exact pure hs ⟨fun a ha => absurd ha List.not_mem_nil, hJ⟩
  | cons a rest ih =>
    refine (h a (List.mem_cons_self ..) s hs hJ).bind hR fun _ s' hs' ⟨ha, hJ'⟩ => ?_
    refine (ih (hR.stays hs') hJ' fun b hb t ht => h b (List.mem_cons_of_mem _ hb) t
      (hR.trans hs' ht)).imp fun _ t ht ⟨hrest, hJt⟩ => ⟨fun b hb => ?_, hJt⟩
    rcases List.mem_cons.mp hb with rfl | hb
    · exact hK _ s' t ht ha
    · exact hrest b hb

theorem forM_all {f : α → Checking σ Unit} {l : List α} {K : α → σ → Prop} (hs : R s s)
    (hK : ∀ a t t', R t t' → K a t → K a t')
    (h : ∀ a ∈ l, ∀ t, R s t → Runs R E t (f a) fun _ => K a) :
    Runs R E s (l.forM f) fun _ t => ∀ a ∈ l, K a t :=
  (forM_keeping hR (J := fun _ => True) hs trivial hK fun a ha t ht _ =>
    (h a ha t ht).imp fun _ _ _ hk => ⟨hk, trivial⟩).imp fun _ _ _ hend => hend.1

theorem forM {f : α → Checking σ Unit} {l : List α} (hs : R s s)
    (h : ∀ a ∈ l, ∀ t, R s t → Runs R E t (f a) fun _ _ => True) :
    Runs R E s (l.forM f) fun _ _ => True :=
  (forM_all hR (K := fun _ _ => True) hs (fun _ _ _ _ _ => trivial) h).imp fun _ _ _ _ => trivial

end

end Runs

/-! ### Invariants -/

variable {K : σ → Prop}

/-- However the check ends, `K` holds afterwards if it held before, and a fault is in `E`. -/
def Guards (K : σ → Prop) (E : Fault → Prop) (x : Checking σ α) : Prop :=
  ∀ s, K s → Runs (fun _ => K) E s x fun _ _ => True

theorem course_of_invariant : Course fun _ : σ => K := ⟨fun _ h => h, fun h => h⟩

theorem guards_pure (a : α) : (pure a : Checking σ α).Guards K E := fun _ h => .pure h trivial

theorem guards_fail {e : Fault} (h : E e) : (fail e : Checking σ α).Guards K E :=
  fun _ hs => .fail hs h

theorem guards_update {f : σ → σ} (h : ∀ s, K s → K (f s)) : (update f).Guards K E :=
  fun s hs => ⟨h s hs, trivial⟩

theorem Guards.bind {x : Checking σ α} {f : α → Checking σ β} (hx : x.Guards K E)
    (hf : ∀ a, (f a).Guards K E) : (x >>= f).Guards K E :=
  fun s hs => (hx s hs).bind course_of_invariant fun a s' hs' _ => hf a s' hs'

theorem guards_state_bind {f : σ → Checking σ β}
    (h : ∀ s, K s → Runs (fun _ => K) E s (f s) fun _ _ => True) : (state >>= f).Guards K E := h

theorem Guards.ite {c : Prop} [Decidable c] {x y : Checking σ α} (hx : c → x.Guards K E)
    (hy : ¬ c → y.Guards K E) : (if c then x else y).Guards K E :=
  fun s hs => .ite (fun h => hx h s hs) fun h => hy h s hs

/-- An invariant does not ask where a check has started. -/
theorem Runs.of_apply {Q : α → σ → Prop} {x y : Checking σ α} {t : σ}
    (hy : Runs (fun _ => K) E t y Q) (h : x s = y t) : Runs (fun _ => K) E s x Q := by
  unfold Runs at hy ⊢
  rw [h]
  exact hy

/-- A tolerant check only hides faults. -/
theorem Guards.tolerant {x : Checking σ Bool} (hx : x.Guards K E) : x.tolerant.Guards K E := by
  intro s hs
  unfold Runs Checking.tolerant
  cases hr : x s with
  | mk r s' =>
    cases r with
    | ok b => exact (hx s hs).of_ok hr
    | error e =>
      obtain ⟨hs', he⟩ := (hx s hs).of_error hr
      simp only
      by_cases ho : e.isOperandFault = true
      · rw [if_pos ho]
        exact ⟨hs', trivial⟩
      · rw [if_neg ho]
        exact ⟨hs', he⟩

theorem guards_mapM {f : α → Checking σ β} {l : List α} (hf : ∀ a ∈ l, (f a).Guards K E) :
    (l.mapM f).Guards K E := by
  induction l with
  | nil => exact guards_pure []
  | cons a rest ih =>
    rw [List.mapM_cons]
    exact (hf a (List.mem_cons_self ..)).bind fun _ =>
      (ih fun b hb => hf b (List.mem_cons_of_mem _ hb)).bind fun _ => guards_pure _

end Checking

/-! ### Faults of an engine -/

/-- The plan stops with faults in `E` only, as long as those it is told of are in `E`. -/
def CoercionPlan.FaultsWithin (E : Fault → Prop) : CoercionPlan → Prop
  | .stop _ => True
  | .fail fault => E fault
  | .askDefault _ next | .askNull _ next => ∀ answer, (next answer).FaultsWithin E
  | .askType _ next => ∀ answer, (∀ e, answer = .error e → E e) → (next answer).FaultsWithin E
  | .cast _ _ next => ∀ answer, (∀ e, answer = .error e → E e) → (next answer).FaultsWithin E

/-- The engine adds no faults of its own but those in `E`. -/
def CoercionEngine.FaultsWithin (E : Fault → Prop) (engine : CoercionEngine) : Prop :=
  ∀ operator types positions, (engine.plan operator types positions).FaultsWithin E

theorem CoercionPlan.faultsWithin_of_forall {E : Fault → Prop} (hE : ∀ e, E e)
    (plan : CoercionPlan) : plan.FaultsWithin E := by
  induction plan with
  | stop converted => trivial
  | fail fault => exact hE fault
  | askDefault index next ih => exact ih
  | askNull index next ih => exact ih
  | askType index next ih => exact fun answer _ => ih answer
  | cast index target next ih => exact fun answer _ => ih answer

theorem CoercionPlan.faultsWithin_implicitCasts {E : Fault → Prop} (pairs : List (DataType × Family))
    (index : Nat) (converted : Bool) : (implicitCasts index converted pairs).FaultsWithin E := by
  induction pairs generalizing index converted with
  | nil => trivial
  | cons pair rest ih =>
    obtain ⟨source, family⟩ := pair
    intro omitted
    cases hcast : implicitCast? source family with
    | none =>
      cases omitted with
      | true => exact ih _ _
      | false => exact ih _ _
    | some target =>
      cases omitted with
      | true => exact ih _ _
      | false =>
        intro answer hanswer
        cases answer with
        | ok done => exact ih _ _
        | error e => exact hanswer e rfl

/-- The standard engine only passes faults on. -/
theorem CoercionEngine.faultsWithin_implicitCasts {E : Fault → Prop} :
    CoercionEngine.implicitCasts.FaultsWithin E :=
  fun _ _ _ => CoercionPlan.faultsWithin_implicitCasts _ _ _

/-! ### Checks of a call -/

/-- Looking at the operands `looked` of a call is guarded, and so is its engine when it is asked for one
    of the lists of families `asked`. A call shows only operands that may be looked at, and it may be refused
    because of them. -/
structure CallView.Guards {σ : Type} (K : σ → Prop) (E : Fault → Prop) (looked : Nat → Prop)
    (asked : List Family → Prop) (c : CallView σ) : Prop where
  shown : ∀ s index, K s → index < c.count s → looked index
  typeOf : ∀ index, looked index → (c.typeOf index).Guards K E
  coerce : c.coerces = true → ∀ types positions, asked positions →
    (c.coerce types positions).Guards K E
  refused : ∀ actual allowed, E (.signatureMismatch c.operator actual allowed)
  refusedNull : ∀ index, E (.nullOperand c.operator index)

namespace CallView

open Checking

variable {σ : Type} {K : σ → Prop} {E : Fault → Prop} {c : CallView σ}

/-- A fault of an operand is not passed on: its type is shown as unknown. -/
theorem guards_signatureText (looked : Nat → Prop)
    (hshown : ∀ s index, K s → index < c.count s → looked index)
    (h : ∀ index, looked index → (c.typeOf index).Guards K E) : c.signatureText.Guards K E := by
  refine guards_state_bind fun s hs => (Guards.bind (guards_mapM fun index hi => ?_) fun _ =>
    guards_pure _) s hs
  intro t ht
  have hend := h index (hshown s index hs (List.mem_range.mp hi)) t ht
  have hafter : K (c.operandText index t).2 := by
    unfold CallView.operandText
    split
    · exact ht
    · have hrel := hend.rel
      cases hr : c.typeOf index t with
      | mk r t' =>
        rw [hr] at hrel
        cases r with
        | ok type => exact hrel
        | error e => exact hrel
  refine .of_outcomes (fun text t' hr => ?_) fun e t' hr => ?_
  · rw [hr] at hafter
    exact ⟨hafter, trivial⟩
  · unfold CallView.operandText at hr
    split at hr
    · cases hr
    · split at hr
      · cases hr
      · cases hr

/-- Carrying out a plan stops with faults of looking at the call and of casts, and with those of the
    plan. -/
theorem guards_run_within (h : ∀ index, (c.typeOf index).Guards K E)
    (hcast : ∀ index target, (c.castTo index target).Guards K E) {plan : CoercionPlan}
    (hplan : plan.FaultsWithin E) : (plan.run c).Guards K E := by
  induction plan with
  | stop converted => exact guards_pure _
  | fail fault => exact guards_fail hplan
  | askDefault index next ih => exact fun s hs => ih _ (hplan _) s hs
  | askNull index next ih => exact fun s hs => ih _ (hplan _) s hs
  | askType index next ih =>
    intro s hs
    have hrun := h index s hs
    refine ih _ (hplan _ fun e he => ?_) _ hrun.rel
    exact (hrun.of_error (Prod.ext he rfl)).2
  | cast index target next ih =>
    intro s hs
    have hrun := hcast index target s hs
    refine ih _ (hplan _ fun e he => ?_) _ hrun.rel
    exact (hrun.of_error (Prod.ext he rfl)).2

/-- Any plan may be carried out where any fault may come. -/
theorem guards_run (h : ∀ index, (c.typeOf index).Guards K E)
    (hcast : ∀ index target, (c.castTo index target).Guards K E) (hE : ∀ e, E e)
    (plan : CoercionPlan) : (plan.run c).Guards K E :=
  guards_run_within h hcast (plan.faultsWithin_of_forall hE)

/-- A position that is not looked at has no conversion. -/
theorem implicitCast?_ignore (source : DataType) : implicitCast? source .ignore = none := by
  unfold implicitCast?
  split
  · rfl
  · rfl

/-- The standard engine casts only operands for which there is a conversion, and passes on the fault of
    a cast. -/
theorem guards_run_implicitCasts {pairs : List (DataType × Family)} {start : Nat} {converted : Bool}
    (hcast : ∀ index source family target, pairs[index]? = some (source, family) →
      implicitCast? source family = some target → (c.castTo (start + index) target).Guards K E) :
    ((CoercionPlan.implicitCasts start converted pairs).run c).Guards K E := by
  induction pairs generalizing start converted with
  | nil => exact guards_pure _
  | cons pair rest ih =>
    obtain ⟨source, family⟩ := pair
    have hrest : ∀ converted,
        ((CoercionPlan.implicitCasts (start + 1) converted rest).run c).Guards K E := by
      intro converted
      refine ih fun index source family target hget himplicit => ?_
      have := hcast (index + 1) source family target hget himplicit
      rwa [show start + (index + 1) = start + 1 + index by omega] at this
    intro s hs
    by_cases hpass : c.isDefault s start = true ∨ implicitCast? source family = none
    · exact (hrest converted s hs).of_apply (CoercionPlan.run_implicitCasts_pass hpass)
    · obtain ⟨hd, hsome⟩ := not_or.mp hpass
      obtain ⟨target, hto⟩ := Option.ne_none_iff_exists'.mp hsome
      have hfirst := hcast 0 source family target rfl hto
      rw [Nat.add_zero] at hfirst
      exact (hfirst.bind (fun done => hrest (done || converted)) s hs).of_apply
        (CoercionPlan.run_implicitCasts_cast (by simpa using hd) hto)

/-- Noting a request and then carrying out a plan. -/
theorem guards_coerce (htext : c.signatureText.Guards K E)
    (hnote : ∀ request s, K s → K (c.note request s)) {types : List DataType}
    {positions : List Family}
    (hrun : ((c.engine.plan c.operator types positions).run c).Guards K E) :
    (c.coerce types positions).Guards K E :=
  htext.bind fun _ => (guards_update (hnote _)).bind fun _ => hrun

end CallView

namespace CallView.Guards

open Checking

variable {σ : Type} {K : σ → Prop} {E : Fault → Prop} {looked : Nat → Prop}
  {asked : List Family → Prop} {c : CallView σ} {s : σ}

theorem types (h : c.Guards K E looked asked) : c.types.Guards K E := by
  refine guards_state_bind fun s hs => guards_mapM (fun index hi => ?_) s hs
  exact h.typeOf index (h.shown s index hs (List.mem_range.mp hi))

theorem mismatch {α : Type} (h : c.Guards K E looked asked) (allowed : String) :
    (c.mismatch allowed : Checking σ α).Guards K E :=
  (guards_signatureText looked h.shown h.typeOf).bind fun _ => guards_fail (h.refused _ _)

theorem checkOperand (h : c.Guards K E looked asked) (positions : List Family)
    (omittable : Nat → Bool) {index : Nat} (hi : looked index) (family : Family) :
    (Signature.checkOperand c positions omittable index family).Guards K E := by
  have hrefuse : (c.mismatch (quotedForm c.operator positions) : Checking σ Unit).Guards K E :=
    h.mismatch _
  unfold Signature.checkOperand
  refine Guards.ite (fun _ => guards_pure _) fun _ => guards_state_bind fun s hs => ?_
  refine Runs.ite (fun _ => ?_) fun _ => Runs.ite (fun _ => ?_) fun _ => ?_
  · exact Guards.ite (fun _ => guards_pure _) (fun _ => hrefuse) s hs
  · refine (h.typeOf index hi).bind (fun type => ?_) s hs
    exact Guards.ite (fun _ => hrefuse) fun _ => guards_pure _
  · refine Runs.ite (fun _ => ?_) fun _ => (h.typeOf index hi).bind (fun type => ?_) s hs
    · exact Guards.ite (fun _ => guards_pure _) (fun _ => guards_fail (h.refusedNull _)) s hs
    · refine Guards.ite (fun _ => guards_pure _) fun _ => ?_
      exact Guards.ite (fun _ => guards_pure _) fun _ => hrefuse

theorem checkFrom (h : c.Guards K E looked asked) (positions : List Family)
    (omittable : Nat → Bool) {index : Nat} {families : List Family}
    (hlooked : ∀ i, i < index + families.length → looked i) :
    (Signature.checkFrom c positions omittable index families).Guards K E := by
  induction families generalizing index with
  | nil => exact guards_pure _
  | cons family rest ih =>
    rw [List.length_cons] at hlooked
    refine (h.checkOperand positions omittable (hlooked index (by omega)) family).bind fun _ => ?_
    exact ih fun i hi => hlooked i (by omega)

/-- All operands are looked at when the call shows as many as there are families. -/
theorem checkAll (h : c.Guards K E looked asked) {positions : List Family} (hs : K s)
    (hl : positions.length = c.count s) (omittable : Nat → Bool) :
    (Signature.checkAll c positions omittable).Guards K E := by
  refine h.checkFrom positions omittable fun i hi => h.shown s i hs ?_
  omega

theorem familiesStrict (h : c.Guards K E looked asked) (positions : List Family)
    (omittable : Nat → Bool) : (Signature.familiesStrict c positions omittable).Guards K E := by
  unfold Signature.familiesStrict
  refine guards_state_bind fun s hs => Runs.ite (fun hl => ?_) fun _ => guards_pure _ s hs
  exact (h.checkAll hs hl omittable).bind (fun _ => guards_pure _) s hs

/-- The engine is asked for a list of families only when it has the length of the call. -/
theorem familiesCheck (h : c.Guards K E looked asked) {positions : List Family}
    (hask : ∀ s, K s → positions.length = c.count s → asked positions) (omittable : Nat → Bool) :
    (Signature.familiesCheck c positions omittable).Guards K E := by
  unfold Signature.familiesCheck
  refine guards_state_bind fun s hs => Runs.ite (fun hl => ?_) fun _ => guards_pure _ s hs
  have hasked := hask s hs hl
  have hagain := fun converted : Bool =>
    (h.checkAll hs hl omittable).bind fun _ => guards_pure (K := K) (E := E) converted
  refine (h.familiesStrict positions omittable).tolerant.bind (fun fitted => ?_) s hs
  refine Guards.ite (fun _ => guards_pure _) fun _ => Guards.ite (fun hc => ?_) fun _ => ?_
  · exact h.types.bind fun types => (h.coerce hc types positions hasked).bind hagain
  · exact (guards_pure false).bind hagain

mutual

theorem checkStrict (h : c.Guards K E looked asked) :
    ∀ signature : Signature, (signature.checkStrict c).Guards K E
  | .families positions omittable => h.familiesStrict positions omittable
  | .oneOf alternatives => by
    unfold Signature.checkStrict
    refine (h.anyStrict alternatives).bind fun found => ?_
    exact Guards.ite (fun _ => guards_pure _) fun _ => h.mismatch _
  | .openEnded _ _ => guards_pure _

theorem anyStrict (h : c.Guards K E looked asked) :
    ∀ alternatives : List Signature, (Signature.anyStrict c alternatives).Guards K E
  | [] => guards_pure _
  | signature :: rest => by
    unfold Signature.anyStrict
    refine (h.checkStrict signature).tolerant.bind fun found => ?_
    exact Guards.ite (fun _ => guards_pure _) fun _ => h.anyStrict rest

end

mutual

/-- The check of a signature is guarded when the engine is for the lists of families among its leaves
    that have the right length. -/
theorem check (h : c.Guards K E looked asked) : ∀ signature : Signature,
    (∀ positions omittable, .families positions omittable ∈ signature.leaves →
      ∀ s, K s → positions.length = c.count s → asked positions) →
    (signature.check c).Guards K E
  | .families positions omittable, hask =>
    h.familiesCheck (hask positions omittable (by simp [Signature.leaves])) omittable
  | .oneOf alternatives, hask => by
    unfold Signature.check
    refine (h.anyStrict alternatives).bind fun fitted =>
      Guards.ite (fun _ => guards_pure _) fun _ => ?_
    refine (h.anyCheck alternatives ?_).bind fun found => ?_
    · simpa [Signature.leaves] using hask
    · exact Guards.ite (fun _ => guards_pure _) fun _ => h.mismatch _
  | .openEnded _ _, _ => guards_pure _

theorem anyCheck (h : c.Guards K E looked asked) : ∀ alternatives : List Signature,
    (∀ positions omittable, .families positions omittable ∈ Signature.leavesOf alternatives →
      ∀ s, K s → positions.length = c.count s → asked positions) →
    (Signature.anyCheck c alternatives).Guards K E
  | [], _ => guards_pure _
  | signature :: rest, hask => by
    unfold Signature.anyCheck
    simp only [Signature.leavesOf, List.mem_append] at hask
    refine Guards.bind (h.check signature ?_).tolerant fun found => ?_
    · exact fun positions omittable hmem => hask positions omittable (.inl hmem)
    · refine Guards.ite (fun _ => guards_pure _) fun _ => h.anyCheck rest ?_
      exact fun positions omittable hmem => hask positions omittable (.inr hmem)

end

end CallView.Guards

end SqlTyping
