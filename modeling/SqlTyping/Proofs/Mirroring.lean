import SqlTyping.Proofs.DataType.Likeness
import SqlTyping.Proofs.Guarding

namespace SqlTyping

/-!
# Checks that end alike

Two checks, each on states of its own, compared step by step:

* `Checking.Follows E M Q s t x y` — when `x` succeeds from `s`, so does `y` from `t`, with results that `Q`
  relates, in states that `M` relates; where `E` holds, the faults of `x` are faults of `y` too;
* `Checking.EndAlike M Q s t x y` — the same with every fault of `x` being one of `y`;
* `Checking.Mirrors M x y` — from all states that `M` relates, the checks end alike with equal results;
* `CoercionEngine.Respects L e` — for operands of alike types the engine does the same, as the standard
  one does for every `L` (`respects_implicitCasts`);
* `CallView.Alike L M c c'` — in states that `M` relates two calls look the same but for types that are
  alike; `CallView.Mirrors L M asked c c'` — their engines end alike, too, when asked for families `asked`;
* `CallView.Mirrors.check` — then every signature is checked alike.
-/

namespace Checking

variable {σ τ α β γ δ : Type}

/-- When `x` succeeds from `s`, then `y` succeeds from `t` with a result that `Q` relates, in states that
    `M` relates. Where `E` holds, a fault of `x` is one of `y`, again in states that `M` relates. -/
inductive Follows (E : Prop) (M : σ → τ → Prop) (Q : α → β → Prop) (s : σ) (t : τ) (x : Checking σ α)
    (y : Checking τ β) : Prop
  | ok {a b s' t'} (hx : x s = (.ok a, s')) (hy : y t = (.ok b, t')) (h : Q a b) (hm : M s' t')
  | error {e s'} (hx : x s = (.error e, s')) (hy : E → ∃ t', y t = (.error e, t') ∧ M s' t')

/-- From `s` and `t` the checks `x` and `y` end with the same fault or with results that `Q` relates, in
    states that `M` relates. -/
abbrev EndAlike (M : σ → τ → Prop) (Q : α → β → Prop) (s : σ) (t : τ) (x : Checking σ α)
    (y : Checking τ β) : Prop := Follows True M Q s t x y

variable {E : Prop} {M : σ → τ → Prop} {Q : α → β → Prop} {P : γ → δ → Prop} {s : σ} {t : τ}

namespace Follows

/-- Both checks stop with the same fault. -/
theorem stop {x : Checking σ α} {y : Checking τ β} {e : Fault} {s' : σ} {t' : τ}
    (hx : x s = (.error e, s')) (hy : y t = (.error e, t')) (hm : M s' t') : Follows E M Q s t x y :=
  .error hx fun _ => ⟨t', hy, hm⟩

/-- The ways in which two checks end alike. -/
theorem ends {x : Checking σ α} {y : Checking τ β} (h : EndAlike M Q s t x y) :
    (∃ a b s' t', x s = (.ok a, s') ∧ y t = (.ok b, t') ∧ Q a b ∧ M s' t') ∨
      ∃ e s' t', x s = (.error e, s') ∧ y t = (.error e, t') ∧ M s' t' := by
  cases h with
  | ok hx hy h hm => exact .inl ⟨_, _, _, _, hx, hy, h, hm⟩
  | error hx hy =>
    obtain ⟨t', hy, hm⟩ := hy trivial
    exact .inr ⟨_, _, t', hx, hy, hm⟩

/-- A check that succeeds is followed. -/
theorem of_ok {x : Checking σ α} {y : Checking τ β} {a : α} {s' : σ} (h : Follows E M Q s t x y)
    (hx : x s = (.ok a, s')) : ∃ b t', y t = (.ok b, t') ∧ Q a b ∧ M s' t' := by
  cases h with
  | ok hx' hy h hm =>
    rw [hx'] at hx
    cases hx
    exact ⟨_, _, hy, h, hm⟩
  | error hx' =>
    rw [hx'] at hx
    cases hx

theorem pure {a : α} {b : β} (hm : M s t) (h : Q a b) : Follows E M Q s t (pure a) (pure b) :=
  .ok rfl rfl h hm

theorem fail {e : Fault} (hm : M s t) : Follows E M Q s t (fail e) (fail e) := .stop rfl rfl hm

/-- It only matters what the checks do in the two states. -/
theorem of_apply {s' : σ} {t' : τ} {x x' : Checking σ α} {y y' : Checking τ β}
    (h : Follows E M Q s' t' x' y') (hx : x s = x' s') (hy : y t = y' t') :
    Follows E M Q s t x y := by
  cases h with
  | ok hx' hy' h hm => exact .ok (hx.trans hx') (hy.trans hy') h hm
  | error hx' hy' =>
    refine .error (hx.trans hx') fun he => ?_
    obtain ⟨t'', hy', hm⟩ := hy' he
    exact ⟨t'', hy.trans hy', hm⟩

/-- Answers that do not depend on the state. -/
theorem ofExcept {r : Except Fault α} {r' : Except Fault β} (hm : M s t) (h : AnswersAlike Q r r') :
    Follows E M Q s t (ofExcept r) (ofExcept r') := by
  cases h with
  | ok h => exact .ok rfl rfl h hm
  | error e => exact .stop rfl rfl hm

/-- The second part of a sequence starts where the first one ends. -/
theorem bind {x : Checking σ α} {y : Checking τ β} {f : α → Checking σ γ} {g : β → Checking τ δ}
    (hxy : Follows E M Q s t x y) (hfg : ∀ a b s' t', x s = (.ok a, s') → Q a b → M s' t' →
      Follows E M P s' t' (f a) (g b)) : Follows E M P s t (x >>= f) (y >>= g) := by
  cases hxy with
  | ok hx hy h hm => exact (hfg _ _ _ _ hx h hm).of_apply (bind_of_ok hx f) (bind_of_ok hy g)
  | error hx hy =>
    refine .error (bind_of_error hx f) fun he => ?_
    obtain ⟨t', hy, hm⟩ := hy he
    exact ⟨t', bind_of_error hy g, hm⟩

/-- The same where it is known how the first part ends. -/
theorem bind_runs {R : σ → σ → Prop} {K : α → σ → Prop} {x : Checking σ α} {y : Checking τ β}
    {f : α → Checking σ γ} {g : β → Checking τ δ} (hxy : Follows E M Q s t x y)
    (hruns : Runs R (fun _ => True) s x K) (hfg : ∀ a b s' t', R s s' → K a s' → Q a b → M s' t' →
      Follows E M P s' t' (f a) (g b)) : Follows E M P s t (x >>= f) (y >>= g) :=
  hxy.bind fun a b s' t' hx => hfg a b s' t' (hruns.of_ok hx).1 (hruns.of_ok hx).2

/-- Corresponding values, then the rest. -/
theorem ofExcept_bind {r : Except Fault α} {r' : Except Fault β} {f : α → Checking σ γ}
    {g : β → Checking τ δ} (hm : M s t) (m : α → β) (hr : r' = r.map m)
    (h : ∀ a, r = .ok a → Follows E M P s t (f a) (g (m a))) :
    Follows E M P s t (Checking.ofExcept r >>= f) (Checking.ofExcept r' >>= g) := by
  subst hr
  cases r with
  | ok a => exact (h a rfl).of_apply rfl rfl
  | error e => exact .stop rfl rfl hm

/-- The same value, or the same fault. -/
theorem ofExcept_eq (hm : M s t) (r : Except Fault α) :
    Follows E M Eq s t (Checking.ofExcept r) (Checking.ofExcept r) := by
  cases r with
  | ok a => exact .ok rfl rfl rfl hm
  | error e => exact .stop rfl rfl hm

/-- The same value, then the rest. -/
theorem ofExcept_eq_bind {r : Except Fault α} {f : α → Checking σ γ} {g : α → Checking τ δ}
    (hm : M s t) (h : ∀ a, Follows E M P s t (f a) (g a)) :
    Follows E M P s t (Checking.ofExcept r >>= f) (Checking.ofExcept r >>= g) := by
  cases r with
  | ok a => exact (h a).of_apply rfl rfl
  | error e => exact .stop rfl rfl hm

/-- Both checks start by reading their states. -/
theorem state_bind {f : σ → Checking σ γ} {g : τ → Checking τ δ}
    (h : Follows E M P s t (f s) (g t)) : Follows E M P s t (state >>= f) (state >>= g) :=
  h.of_apply rfl rfl

theorem update {f : σ → σ} {g : τ → τ} (h : M (f s) (g t)) :
    Follows E M Eq s t (update f) (update g) := .ok rfl rfl rfl h

theorem ite {c : Prop} [Decidable c] {x x' : Checking σ α} {y y' : Checking τ β}
    (h : c → Follows E M Q s t x y) (h' : ¬ c → Follows E M Q s t x' y') :
    Follows E M Q s t (if c then x else x') (if c then y else y') := by
  by_cases hc : c
  · rw [if_pos hc, if_pos hc]
    exact h hc
  · rw [if_neg hc, if_neg hc]
    exact h' hc

/-- More is known about the states that are reached. -/
theorem imp {M' : σ → τ → Prop} {x : Checking σ α} {y : Checking τ β} (h : Follows E M Q s t x y)
    (hM : M (x s).2 (y t).2 → M' (x s).2 (y t).2) : Follows E M' Q s t x y := by
  cases h with
  | ok hx hy h hm =>
    rw [hx, hy] at hM
    exact .ok hx hy h (hM hm)
  | error hx hy =>
    refine .error hx fun he => ?_
    obtain ⟨t', hy, hm⟩ := hy he
    rw [hx, hy] at hM
    exact ⟨t', hy, hM hm⟩

/-- However the checks end. -/
theorem rel {x : Checking σ α} {y : Checking τ β} (h : EndAlike M Q s t x y) :
    M (x s).2 (y t).2 := by
  obtain ⟨a, b, s', t', hx, hy, -, hm⟩ | ⟨e, s', t', hx, hy, hm⟩ := h.ends
  · rw [hx, hy]
    exact hm
  · rw [hx, hy]
    exact hm

/-- Results that are related by being equal make the answers equal. -/
theorem answer_eq {x : Checking σ α} {y : Checking τ α} (h : EndAlike M Eq s t x y) :
    (y t).1 = (x s).1 := by
  obtain ⟨a, b, s', t', hx, hy, h, -⟩ | ⟨e, s', t', hx, hy, -⟩ := h.ends
  · rw [hx, hy, h]
  · rw [hx, hy]

/-- Checks on parts of larger states. -/
theorem focus {σ' τ' : Type} {N : σ' → τ' → Prop} {get : σ' → σ} {put : σ' → σ → σ'}
    {get' : τ' → τ} {put' : τ' → τ → τ'} {s : σ'} {t : τ'} {x : Checking σ α} {y : Checking τ β}
    (h : Follows E M Q (get s) (get' t) x y)
    (hN : ∀ a b, M a b → N (put s a) (put' t b)) :
    Follows E N Q s t (Checking.focus get put x) (Checking.focus get' put' y) := by
  cases h with
  | @ok a b s' t' hx hy h hm =>
    have hfocus : Checking.focus get put x s = (.ok a, put s s') := by rw [Checking.focus, hx]
    have hfocus' : Checking.focus get' put' y t = (.ok b, put' t t') := by rw [Checking.focus, hy]
    exact .ok hfocus hfocus' h (hN _ _ hm)
  | @error e s' hx hy =>
    have hfocus : Checking.focus get put x s = (.error e, put s s') := by rw [Checking.focus, hx]
    refine .error hfocus fun he => ?_
    obtain ⟨t', hy, hm⟩ := hy he
    have hfocus' : Checking.focus get' put' y t = (.error e, put' t t') := by rw [Checking.focus, hy]
    exact ⟨put' t t', hfocus', hN _ _ hm⟩

/-- Checks that are run on larger states and leave parts of them. -/
theorem within {σ' τ' : Type} {N : σ' → τ' → Prop} {get : σ' → σ} {get' : τ' → τ} {s' : σ'} {t' : τ'}
    {x : Checking σ α} {y : Checking τ β} {x' : Checking σ' α} {y' : Checking τ' β}
    (h : Follows E N Q s' t' x' y') (hx : x s = ((x' s').1, get (x' s').2))
    (hy : y t = ((y' t').1, get' (y' t').2)) (hM : ∀ a b, N a b → M (get a) (get' b)) :
    Follows E M Q s t x y := by
  cases h with
  | ok hx' hy' h hm =>
    rw [hx'] at hx
    rw [hy'] at hy
    exact .ok hx hy h (hM _ _ hm)
  | error hx' hy' =>
    rw [hx'] at hx
    refine .error hx fun he => ?_
    obtain ⟨b, hy', hm⟩ := hy' he
    rw [hy'] at hy
    exact ⟨_, hy, hM _ _ hm⟩

/-- Each of a list of checks is run at some later time. -/
theorem forM {R : σ → σ → Prop} (hR : Course R) {f : α → Checking σ Unit}
    {g : α → Checking τ Unit} {l : List α} (hs : R s s) (hm : M s t)
    (hruns : ∀ a ∈ l, ∀ s', R s s' → Runs R (fun _ => True) s' (f a) fun _ _ => True)
    (h : ∀ a ∈ l, ∀ s' t', R s s' → M s' t' → Follows E M Eq s' t' (f a) (g a)) :
    Follows E M Eq s t (l.forM f) (l.forM g) := by
  induction l generalizing s t with
  | nil => exact .pure hm rfl
  | cons a rest ih =>
    have ha := List.mem_cons_self (a := a) (l := rest)
    refine (h a ha s t hs hm).bind_runs (hruns a ha s hs) fun _ _ s' t' hs' _ _ hm' => ?_
    refine ih (hR.stays hs') hm' (fun b hb u hu => ?_) fun b hb u u' hu hmu => ?_
    · exact hruns b (List.mem_cons_of_mem _ hb) u (hR.trans hs' hu)
    · exact h b (List.mem_cons_of_mem _ hb) u u' (hR.trans hs' hu) hmu

end Follows

/-! ### From all related states -/

/-- From all states that `M` relates, the two checks end with equal results or the same fault, in states
    that `M` relates. -/
def Mirrors (M : σ → τ → Prop) (x : Checking σ α) (y : Checking τ α) : Prop :=
  ∀ s t, M s t → EndAlike M Eq s t x y

theorem mirrors_pure (a : α) : Mirrors M (pure a) (pure a) := fun _ _ hm => .pure hm rfl

theorem mirrors_fail (e : Fault) : Mirrors (α := α) M (fail e) (fail e) := fun _ _ hm => .fail hm

theorem Mirrors.bind {x : Checking σ α} {y : Checking τ α} {f : α → Checking σ γ}
    {g : α → Checking τ γ} (hxy : Mirrors M x y) (hfg : ∀ a, Mirrors M (f a) (g a)) :
    Mirrors M (x >>= f) (y >>= g) := fun s t hm =>
  (hxy s t hm).bind fun a _ s' t' _ hab hm' => hab ▸ hfg a s' t' hm'

theorem Mirrors.ite {c : Prop} [Decidable c] {x x' : Checking σ α} {y y' : Checking τ α}
    (h : Mirrors M x y) (h' : Mirrors M x' y') :
    Mirrors M (if c then x else x') (if c then y else y') := fun s t hm =>
  .ite (fun _ => h s t hm) fun _ => h' s t hm

theorem Mirrors.tolerant {x : Checking σ Bool} {y : Checking τ Bool} (h : Mirrors M x y) :
    Mirrors M x.tolerant y.tolerant := by
  intro s t hm
  obtain ⟨a, b, s', t', hx, hy, h, hm'⟩ | ⟨e, s', t', hx, hy, hm'⟩ := (h s t hm).ends
  · have hx' : x.tolerant s = (.ok a, s') := by rw [Checking.tolerant, hx]
    have hy' : y.tolerant t = (.ok b, t') := by rw [Checking.tolerant, hy]
    exact .ok hx' hy' h hm'
  · by_cases he : e.isOperandFault = true
    · have hx' : x.tolerant s = (.ok false, s') := by simp only [Checking.tolerant, hx, if_pos he]
      have hy' : y.tolerant t = (.ok false, t') := by simp only [Checking.tolerant, hy, if_pos he]
      exact .ok hx' hy' rfl hm'
    · have hx' : x.tolerant s = (.error e, s') := by simp only [Checking.tolerant, hx, if_neg he]
      have hy' : y.tolerant t = (.error e, t') := by simp only [Checking.tolerant, hy, if_neg he]
      exact .stop hx' hy' hm'

/-- Related results for the entries of a list are related lists. -/
theorem mapM_follows {f : α → Checking σ γ} {g : α → Checking τ δ}
    (h : ∀ a s t, M s t → Follows E M P s t (f a) (g a)) (l : List α) (hm : M s t) :
    Follows E M (List.Forall₂ P) s t (l.mapM f) (l.mapM g) := by
  induction l generalizing s t with
  | nil => exact .pure hm .nil
  | cons a rest ih =>
    rw [List.mapM_cons, List.mapM_cons]
    refine (h a s t hm).bind fun c d s₁ t₁ _ hcd hm₁ => ?_
    exact (ih hm₁).bind fun cs ds s₂ t₂ _ hrest hm₂ => .pure hm₂ (.cons hcd hrest)

theorem mirrors_mapM {f : α → Checking σ γ} {g : α → Checking τ γ} (h : ∀ a, Mirrors M (f a) (g a))
    (l : List α) : Mirrors M (l.mapM f) (l.mapM g) := by
  intro s t hm
  have hend : EndAlike M (List.Forall₂ Eq) s t (l.mapM f) (l.mapM g) := mapM_follows h l hm
  rwa [List.forall₂_eq_eq_eq] at hend

end Checking

/-! ### Engines -/

/-- Plans that do the same, with alike types in the place of types. -/
inductive CoercionPlan.Alike (L : Likeness) : CoercionPlan → CoercionPlan → Prop
  | stop (converted : Bool) : Alike L (.stop converted) (.stop converted)
  | fail (fault : Fault) : Alike L (.fail fault) (.fail fault)
  | askDefault (index : Nat) {next next' : Bool → CoercionPlan}
    (h : ∀ b, Alike L (next b) (next' b)) : Alike L (.askDefault index next) (.askDefault index next')
  | askNull (index : Nat) {next next' : Bool → CoercionPlan}
    (h : ∀ b, Alike L (next b) (next' b)) : Alike L (.askNull index next) (.askNull index next')
  | askType (index : Nat) {next next' : Except Fault DataType → CoercionPlan}
    (h : ∀ r r', AnswersAlike L.types r r' → Alike L (next r) (next' r')) :
      Alike L (.askType index next) (.askType index next')
  | cast (index : Nat) {target target' : DataType} {next next' : Except Fault Bool → CoercionPlan}
    (ht : L.types target target') (h : ∀ r, Alike L (next r) (next' r)) :
      Alike L (.cast index target next) (.cast index target' next')

/-- For operands of alike types the engine does the same. -/
def CoercionEngine.Respects (L : Likeness) (e : CoercionEngine) : Prop :=
  ∀ operator types types' families, List.Forall₂ L.types types types' →
    CoercionPlan.Alike L (e.plan operator types families) (e.plan operator types' families)

/-- Every plan does the same as itself. -/
theorem CoercionPlan.Alike.refl (plan : CoercionPlan) : CoercionPlan.Alike .equality plan plan := by
  induction plan with
  | stop converted => exact .stop converted
  | fail fault => exact .fail fault
  | askDefault index next ih => exact .askDefault index ih
  | askNull index next ih => exact .askNull index ih
  | askType index next ih =>
    refine .askType index fun r r' hr => ?_
    cases hr with
    | ok h => exact h ▸ ih _
    | error e => exact ih _
  | cast index target next ih => exact .cast index rfl ih

/-- For the same operands every engine does the same. -/
theorem CoercionEngine.respects_equality (e : CoercionEngine) : e.Respects .equality := by
  intro operator types types' families h
  have heq : List.Forall₂ Eq types types' := h
  rw [List.forall₂_eq_eq_eq] at heq
  subst heq
  exact .refl _

section

variable {L : Likeness}

/-- Whether an operand is converted depends on the name of its type only. -/
theorem implicitCast?_alike {a b : DataType} (h : L.types a b) (family : Family) :
    Option.Rel L.types (implicitCast? a family) (implicitCast? b family) := by
  have hname := Likeness.name h
  unfold implicitCast? DataType.isNullType DataType.family?
  rw [hname]
  split
  · exact .none
  cases family.target? with
  | none => exact .none
  | some target =>
    simp only
    split
    · exact .some (L.refl _)
    cases Family.of? a.name with
    | none => exact .none
    | some own =>
      simp only
      split
      · exact .some (L.withNullable (L.refl _) (L.nullable h))
      · exact .none

/-- The standard conversions do the same for operands of alike types. -/
theorem CoercionPlan.Alike.implicitCasts {sources sources' : List (DataType × Family)}
    (h : List.Forall₂ (fun c d => L.types c.1 d.1 ∧ d.2 = c.2) sources sources') (index : Nat)
    (converted : Bool) : CoercionPlan.Alike L (.implicitCasts index converted sources)
      (.implicitCasts index converted sources') := by
  induction h generalizing index converted with
  | nil => exact .stop converted
  | @cons c d _ _ hcd _ ih =>
    unfold CoercionPlan.implicitCasts
    refine .askDefault index fun omitted => ?_
    have hcast := implicitCast?_alike hcd.1 c.2
    rw [hcd.2]
    generalize implicitCast? c.1 c.2 = target, implicitCast? d.1 c.2 = target' at hcast
    cases omitted with
    | true => exact ih (index + 1) converted
    | false =>
      cases hcast with
      | none => exact ih (index + 1) converted
      | some htarget =>
        refine .cast index htarget fun r => ?_
        cases r with
        | ok done => exact ih (index + 1) (done || converted)
        | error e => exact .fail e

/-- Alike types, each with the family that is asked for in its place. -/
theorem Likeness.forall₂_zip {L : Likeness} {types types' : List DataType}
    (h : List.Forall₂ L.types types types') (families : List Family) :
    List.Forall₂ (fun x y => L.types x.1 y.1 ∧ y.2 = x.2) (types.zip families)
      (types'.zip families) := by
  induction h generalizing families with
  | nil => exact .nil
  | cons hab _ ih =>
    cases families with
    | nil => exact .nil
    | cons family families => exact .cons ⟨hab, rfl⟩ (ih families)

/-- The standard engine does the same for operands of alike types, whatever alike is. -/
theorem CoercionEngine.respects_implicitCasts (L : Likeness) :
    CoercionEngine.implicitCasts.Respects L := by
  intro operator types types' families h
  exact .implicitCasts (Likeness.forall₂_zip h families) 0 false

end

/-! ### Checks of a call -/

/-- Requests that differ only in that types are alike. -/
structure CoercionRequest.Alike (L : Likeness) (q q' : CoercionRequest) : Prop where
  call : q'.call = q.call
  types : List.Forall₂ L.types q.types q'.types
  families : q'.families = q.families

/-- Requests with the same types are the same. -/
theorem CoercionRequest.Alike.eq {q q' : CoercionRequest} (h : q.Alike .equality q') : q' = q := by
  obtain ⟨hcall, htypes, hfamilies⟩ := h
  have htypes : List.Forall₂ Eq q.types q'.types := htypes
  rw [List.forall₂_eq_eq_eq] at htypes
  cases q
  cases q'
  simp only at hcall htypes hfamilies
  rw [hcall, htypes, hfamilies]

/-- In states that `M` relates the two calls look the same but for types that are alike, and looking at
    the types of their operands and noting requests end alike. -/
structure CallView.Alike (L : Likeness) {σ τ : Type} (M : σ → τ → Prop) (c : CallView σ)
    (c' : CallView τ) : Prop where
  operator : c'.operator = c.operator
  coerces : c'.coerces = c.coerces
  engine : c'.engine = c.engine
  count : ∀ {s t}, M s t → c'.count t = c.count s
  isNull : ∀ {s t} index, M s t → c'.isNull t index = c.isNull s index
  isDefault : ∀ {s t} index, M s t → c'.isDefault t index = c.isDefault s index
  typeOf : ∀ index s t, M s t → Checking.EndAlike M L.types s t (c.typeOf index) (c'.typeOf index)
  note : ∀ {s t request request'}, request.Alike L request' → M s t →
    M (c.note request s) (c'.note request' t)

/-- Their engines end alike, too, when they are asked for one of the lists of families `asked`. -/
structure CallView.Mirrors (L : Likeness) {σ τ : Type} (M : σ → τ → Prop)
    (asked : List Family → Prop) (c : CallView σ) (c' : CallView τ) : Prop extends c.Alike L M c' where
  coerce : ∀ {families types types'}, asked families → List.Forall₂ L.types types types' →
    Checking.Mirrors M (c.coerce types families) (c'.coerce types' families)

open Checking

namespace CallView.Alike

variable {L : Likeness} {σ τ : Type} {M : σ → τ → Prop} {c : CallView σ} {c' : CallView τ}

theorem types (h : c.Alike L M c') {s : σ} {t : τ} (hm : M s t) :
    EndAlike M (List.Forall₂ L.types) s t c.types c'.types := by
  refine .state_bind ?_
  rw [h.count hm]
  exact mapM_follows h.typeOf _ hm

theorem operandText (h : c.Alike L M c') (index : Nat) :
    (c.operandText index).Mirrors M (c'.operandText index) := by
  intro s t hm
  have hdefault := h.isDefault index hm
  cases hd : c.isDefault s index with
  | true =>
    have hx : c.operandText index s = (.ok "DEFAULT", s) := if_pos hd
    have hy : c'.operandText index t = (.ok "DEFAULT", t) := if_pos (hdefault.trans hd)
    exact .ok hx hy rfl hm
  | false =>
    have hne : ¬ c.isDefault s index = true := by simp [hd]
    have hne' : ¬ c'.isDefault t index = true := by simp [hdefault, hd]
    obtain ⟨type, type', s', t', hx, hy, halike, hm'⟩ | ⟨e, s', t', hx, hy, hm'⟩ :=
      (h.typeOf index s t hm).ends
    · have hx' : c.operandText index s = (.ok s!"<{type.text}>", s') := by
        rw [CallView.operandText, if_neg hne, hx]
      have hy' : c'.operandText index t = (.ok s!"<{type.text}>", t') := by
        rw [CallView.operandText, if_neg hne', hy, ← L.text halike]
      exact .ok hx' hy' rfl hm'
    -- A type that is not known is shown as such.
    · have hx' : c.operandText index s = (.ok "<?>", s') := by
        rw [CallView.operandText, if_neg hne, hx]
      have hy' : c'.operandText index t = (.ok "<?>", t') := by
        rw [CallView.operandText, if_neg hne', hy]
      exact .ok hx' hy' rfl hm'

theorem signatureText (h : c.Alike L M c') : c.signatureText.Mirrors M c'.signatureText := by
  intro s t hm
  refine .state_bind ?_
  rw [h.count hm, h.operator]
  exact (mirrors_mapM h.operandText _).bind (fun _ => mirrors_pure _) s t hm

theorem mismatch {α : Type} (h : c.Alike L M c') (allowed : String) :
    (c.mismatch allowed : Checking σ α).Mirrors M (c'.mismatch allowed) := by
  unfold CallView.mismatch
  rw [h.operator]
  exact h.signatureText.bind fun _ => mirrors_fail _

/-- A plan sees the same answers on both sides. -/
theorem run (h : c.Alike L M c') (hcast : ∀ index {target target'}, L.types target target' →
    (c.castTo index target).Mirrors M (c'.castTo index target')) {plan plan' : CoercionPlan}
    (hplan : plan.Alike L plan') : (plan.run c).Mirrors M (plan'.run c') := by
  induction hplan with
  | stop converted => exact mirrors_pure _
  | fail fault => exact mirrors_fail _
  | askDefault index hnext ih =>
    intro s t hm
    refine (ih (c.isDefault s index) s t hm).of_apply rfl ?_
    simp only [CoercionPlan.run, h.isDefault index hm]
  | askNull index hnext ih =>
    intro s t hm
    refine (ih (c.isNull s index) s t hm).of_apply rfl ?_
    simp only [CoercionPlan.run, h.isNull index hm]
  | @askType index next next' hnext ih =>
    intro s t hm
    -- Whether there is a type or a fault, the plans are told alike.
    have hgoes : ∀ {r r' s' t'}, c.typeOf index s = (r, s') → c'.typeOf index t = (r', t') →
        AnswersAlike L.types r r' → M s' t' →
          EndAlike M Eq s t ((CoercionPlan.askType index next).run c)
            ((CoercionPlan.askType index next').run c') := by
      intro r r' s' t' hx hy halike hm'
      refine (ih r r' halike s' t' hm').of_apply ?_ ?_
      · simp only [CoercionPlan.run, hx]
      · simp only [CoercionPlan.run, hy]
    obtain ⟨a, b, s', t', hx, hy, halike, hm'⟩ | ⟨e, s', t', hx, hy, hm'⟩ :=
      (h.typeOf index s t hm).ends
    · exact hgoes hx hy (.ok halike) hm'
    · exact hgoes hx hy (.error e) hm'
  | @cast index target target' next next' htarget hnext ih =>
    intro s t hm
    have hgoes : ∀ {r s' t'}, c.castTo index target s = (r, s') →
        c'.castTo index target' t = (r, t') → M s' t' →
          EndAlike M Eq s t ((CoercionPlan.cast index target next).run c)
            ((CoercionPlan.cast index target' next').run c') := by
      intro r s' t' hx hy hm'
      refine (ih r s' t' hm').of_apply ?_ ?_
      · simp only [CoercionPlan.run, hx]
      · simp only [CoercionPlan.run, hy]
    obtain ⟨a, b, s', t', hx, hy, rfl, hm'⟩ | ⟨e, s', t', hx, hy, hm'⟩ :=
      (hcast index htarget s t hm).ends
    · exact hgoes hx hy hm'
    · exact hgoes hx hy hm'

/-- The standard engine casts only operands for which there is a conversion. -/
theorem run_implicitCasts (h : c.Alike L M c') {pairs pairs' : List (DataType × Family)}
    (hpairs : List.Forall₂ (fun x y => L.types x.1 y.1 ∧ y.2 = x.2) pairs pairs') (start : Nat)
    (converted : Bool) (hcast : ∀ index source family {target target'},
      pairs[index]? = some (source, family) → implicitCast? source family = some target →
        L.types target target' →
          (c.castTo (start + index) target).Mirrors M (c'.castTo (start + index) target')) :
    ((CoercionPlan.implicitCasts start converted pairs).run c).Mirrors M
      ((CoercionPlan.implicitCasts start converted pairs').run c') := by
  induction hpairs generalizing start converted with
  | nil => exact mirrors_pure _
  | @cons x y rest rest' hxy _ ih =>
    obtain ⟨source, family⟩ := x
    obtain ⟨source', family'⟩ := y
    obtain ⟨hsource, hfamily⟩ := hxy
    obtain rfl : family' = family := hfamily
    have hrest : ∀ converted,
        ((CoercionPlan.implicitCasts (start + 1) converted rest).run c).Mirrors M
          ((CoercionPlan.implicitCasts (start + 1) converted rest').run c') := by
      intro converted
      refine ih (start + 1) converted fun index source family target target' hget hsource htarget => ?_
      have := hcast (index + 1) source family hget hsource htarget
      rwa [show start + (index + 1) = start + 1 + index by omega] at this
    intro s t hm
    have hdefault := h.isDefault start hm
    cases hd : c.isDefault s start with
    | true =>
      exact (hrest converted s t hm).of_apply (CoercionPlan.run_implicitCasts_pass (.inl hd))
        (CoercionPlan.run_implicitCasts_pass (.inl (hdefault.trans hd)))
    | false =>
      -- Where there is no conversion on one side there is none on the other.
      have himplicit := implicitCast?_alike hsource family'
      generalize hto : implicitCast? source family' = found, hto' : implicitCast? source' family' = found'
        at himplicit
      cases himplicit with
      | none =>
        exact (hrest converted s t hm).of_apply (CoercionPlan.run_implicitCasts_pass (.inr hto))
          (CoercionPlan.run_implicitCasts_pass (.inr hto'))
      | some htarget =>
        have hfirst := hcast 0 source family' rfl hto htarget
        rw [Nat.add_zero] at hfirst
        have hgoes := hfirst.bind (fun done => hrest (done || converted)) s t hm
        exact hgoes.of_apply (CoercionPlan.run_implicitCasts_cast hd hto)
          (CoercionPlan.run_implicitCasts_cast (hdefault.trans hd) hto')

/-- Noting alike requests and then carrying out plans that end alike. -/
theorem coerce (h : c.Alike L M c') {types types' : List DataType} (families : List Family)
    (htypes : List.Forall₂ L.types types types')
    (hrun : ((c.engine.plan c.operator types families).run c).Mirrors M
      ((c.engine.plan c.operator types' families).run c')) :
    (c.coerce types families).Mirrors M (c'.coerce types' families) := by
  unfold CallView.coerce
  rw [h.engine, h.operator]
  refine h.signatureText.bind fun call => Mirrors.bind (fun s t hm => .update ?_) fun _ => hrun
  exact h.note ⟨rfl, htypes, rfl⟩ hm

theorem checkOperand (h : c.Alike L M c') (positions : List Family) (omittable : Nat → Bool)
    (index : Nat) (family : Family) :
      (Signature.checkOperand c positions omittable index family).Mirrors M
        (Signature.checkOperand c' positions omittable index family) := by
  have hrefuse : (c.mismatch (quotedForm c.operator positions) : Checking σ Unit).Mirrors M
      (c'.mismatch (quotedForm c.operator positions)) := h.mismatch _
  have htype : ∀ {f : DataType → Checking σ Unit} {g : DataType → Checking τ Unit},
      (∀ a b, L.types a b → (f a).Mirrors M (g b)) →
        (c.typeOf index >>= f).Mirrors M (c'.typeOf index >>= g) := fun hfg s t hm =>
    (h.typeOf index s t hm).bind fun a b s' t' _ halike hm' => hfg a b halike s' t' hm'
  unfold Signature.checkOperand
  rw [h.operator, h.coerces]
  refine Mirrors.ite (mirrors_pure _) fun s t hm => .state_bind ?_
  rw [h.isDefault index hm, h.isNull index hm]
  refine Mirrors.ite (Mirrors.ite (mirrors_pure _) hrefuse) ?_ s t hm
  -- A type is only asked for its name.
  refine Mirrors.ite (htype fun a b halike => ?_) ?_
  · rw [L.name halike]
    exact Mirrors.ite hrefuse (mirrors_pure _)
  refine Mirrors.ite (Mirrors.ite (mirrors_pure _) (mirrors_fail _)) (htype fun a b halike => ?_)
  rw [L.name halike]
  exact Mirrors.ite (mirrors_pure _) (Mirrors.ite (mirrors_pure _) hrefuse)

theorem checkFrom (h : c.Alike L M c') (positions : List Family) (omittable : Nat → Bool)
    (index : Nat) (families : List Family) :
      (Signature.checkFrom c positions omittable index families).Mirrors M
        (Signature.checkFrom c' positions omittable index families) := by
  induction families generalizing index with
  | nil => exact mirrors_pure _
  | cons family rest ih => exact (h.checkOperand positions omittable index family).bind fun _ => ih _

theorem familiesStrict (h : c.Alike L M c') (positions : List Family) (omittable : Nat → Bool) :
    (Signature.familiesStrict c positions omittable).Mirrors M
      (Signature.familiesStrict c' positions omittable) := by
  intro s t hm
  refine .state_bind ?_
  rw [h.count hm]
  exact Mirrors.ite ((h.checkFrom positions omittable 0 positions).bind fun _ => mirrors_pure _)
    (mirrors_pure _) s t hm

mutual

theorem checkStrict (h : c.Alike L M c') :
    ∀ signature : Signature, (signature.checkStrict c).Mirrors M (signature.checkStrict c')
  | .families positions omittable => h.familiesStrict positions omittable
  | .oneOf alternatives => by
    unfold Signature.checkStrict
    rw [h.operator]
    exact (h.anyStrict alternatives).bind fun found => Mirrors.ite (mirrors_pure _) (h.mismatch _)
  | .openEnded _ _ => mirrors_pure _

theorem anyStrict (h : c.Alike L M c') : ∀ alternatives : List Signature,
    (Signature.anyStrict c alternatives).Mirrors M (Signature.anyStrict c' alternatives)
  | [] => mirrors_pure _
  | signature :: rest => by
    unfold Signature.anyStrict
    exact (h.checkStrict signature).tolerant.bind fun found =>
      Mirrors.ite (mirrors_pure _) (h.anyStrict rest)

end

end CallView.Alike

namespace CallView.Mirrors

variable {L : Likeness} {σ τ : Type} {M : σ → τ → Prop} {asked : List Family → Prop} {c : CallView σ}
  {c' : CallView τ}

/-- Whatever engines do, they do it alike when they are the same for alike types and casts of operands
    end alike. -/
theorem of_castTo (h : c.Alike L M c') (hrespects : c.engine.Respects L)
    (hcast : ∀ index {target target'}, L.types target target' →
      (c.castTo index target).Mirrors M (c'.castTo index target')) :
    c.Mirrors L M (fun _ => True) c' where
  toAlike := h
  coerce _ htypes := h.coerce _ htypes (h.run hcast (hrespects _ _ _ _ htypes))

theorem familiesCheck (h : c.Mirrors L M asked c') {positions : List Family}
    (hask : ∀ s t, M s t → positions.length = c.count s → asked positions) (omittable : Nat → Bool) :
    (Signature.familiesCheck c positions omittable).Mirrors M
      (Signature.familiesCheck c' positions omittable) := by
  have hagain : ∀ converted : Bool, (do
      Signature.checkAll c positions omittable
      return converted : Checking σ Bool).Mirrors M (do
      Signature.checkAll c' positions omittable
      return converted : Checking τ Bool) := fun converted =>
    (h.checkFrom positions omittable 0 positions).bind fun _ => mirrors_pure converted
  intro s t hm
  refine .state_bind ?_
  rw [h.count hm, h.coerces]
  refine .ite (fun hl => ?_) fun _ => .pure hm rfl
  have hasked := hask s t hm hl
  refine (h.familiesStrict positions omittable).tolerant.bind (fun fitted => ?_) s t hm
  refine Mirrors.ite (mirrors_pure _) (Mirrors.ite ?_ ((mirrors_pure false).bind hagain))
  intro s t hm
  refine (h.types hm).bind fun types types' s' t' _ htypes hm' => ?_
  exact ((h.coerce hasked htypes).bind hagain) s' t' hm'

mutual

/-- A signature is checked alike on calls that look the same when their engines end alike for the lists
    of families among its leaves that have the right length. -/
theorem check (h : c.Mirrors L M asked c') : ∀ signature : Signature,
    (∀ positions omittable, .families positions omittable ∈ signature.leaves →
      ∀ s t, M s t → positions.length = c.count s → asked positions) →
    (signature.check c).Mirrors M (signature.check c')
  | .families positions omittable, hask =>
    h.familiesCheck (hask positions omittable (by simp [Signature.leaves])) omittable
  | .oneOf alternatives, hask => by
    unfold Signature.check
    rw [h.operator]
    refine (h.anyStrict alternatives).bind fun fitted => Mirrors.ite (mirrors_pure _) ?_
    refine (h.anyCheck alternatives ?_).bind fun found =>
      Mirrors.ite (mirrors_pure _) (h.mismatch _)
    simpa [Signature.leaves] using hask
  | .openEnded _ _, _ => mirrors_pure _

theorem anyCheck (h : c.Mirrors L M asked c') : ∀ alternatives : List Signature,
    (∀ positions omittable, .families positions omittable ∈ Signature.leavesOf alternatives →
      ∀ s t, M s t → positions.length = c.count s → asked positions) →
    (Signature.anyCheck c alternatives).Mirrors M (Signature.anyCheck c' alternatives)
  | [], _ => mirrors_pure _
  | signature :: rest, hask => by
    unfold Signature.anyCheck
    simp only [Signature.leavesOf, List.mem_append] at hask
    refine Mirrors.bind (h.check signature ?_).tolerant fun found => ?_
    · exact fun positions omittable hmem => hask positions omittable (.inl hmem)
    · refine Mirrors.ite (mirrors_pure _) (h.anyCheck rest ?_)
      exact fun positions omittable hmem => hask positions omittable (.inr hmem)

end

end CallView.Mirrors

end SqlTyping
