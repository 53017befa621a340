import SqlTyping.Fault

namespace SqlTyping

/-!
# Checks that keep their state

A check reads and changes a state and may stop with a fault; what it changed before the fault stays.

* `Checking σ α` — a check on states `σ` with results `α`, a monad;
* `Checking.tolerant` — a check whose operand faults become the answer `false`;
* `Checking.focus` — a check on a part of a larger state.
-/

/-- A check: from a state to a result or a fault, and in either case the state it has reached. -/
def Checking (σ α : Type) : Type := σ → Except Fault α × σ

namespace Checking

variable {σ τ α β : Type}

instance : Monad (Checking σ) where
  pure a := fun s => (.ok a, s)
  bind x f := fun s =>
    match x s with
    | (.ok a, s') => f a s'
    | (.error e, s') => (.error e, s')

/-- Stops with a fault. -/
def fail (e : Fault) : Checking σ α := fun s => (.error e, s)

/-- The current state. -/
def state : Checking σ σ := fun s => (.ok s, s)

/-- Changes the state. -/
def update (f : σ → σ) : Checking σ Unit := fun s => (.ok (), f s)

/-- A value or a fault that does not depend on the state. -/
def ofExcept (r : Except Fault α) : Checking σ α := fun s => (r, s)

/-- The check with operand faults turned into the answer `false`; other faults stop it. -/
def tolerant (x : Checking σ Bool) : Checking σ Bool := fun s =>
  match x s with
  | (.error e, s') => if e.isOperandFault then (.ok false, s') else (.error e, s')
  | r => r

/-- The check `x` on the part `get s` of a larger state, which `put` writes back. -/
def focus (get : τ → σ) (put : τ → σ → τ) (x : Checking σ α) : Checking τ α := fun s =>
  match x (get s) with
  | (r, part) => (r, put s part)

/-! ### One step at a time -/

@[simp] theorem pure_apply (a : α) (s : σ) : (pure a : Checking σ α) s = (.ok a, s) := rfl

@[simp] theorem fail_apply (e : Fault) (s : σ) : (fail e : Checking σ α) s = (.error e, s) := rfl

@[simp] theorem state_apply (s : σ) : (state : Checking σ σ) s = (.ok s, s) := rfl

@[simp] theorem update_apply (f : σ → σ) (s : σ) : update f s = (.ok (), f s) := rfl

@[simp] theorem ofExcept_apply (r : Except Fault α) (s : σ) :
    (ofExcept r : Checking σ α) s = (r, s) := rfl

theorem bind_apply (x : Checking σ α) (f : α → Checking σ β) (s : σ) :
    (x >>= f) s =
      match x s with
      | (.ok a, s') => f a s'
      | (.error e, s') => (.error e, s') := rfl

/-- After a result the rest is run from the state reached. -/
theorem bind_of_ok {x : Checking σ α} {s s' : σ} {a : α} (h : x s = (.ok a, s'))
    (f : α → Checking σ β) : (x >>= f) s = f a s' := by
  rw [bind_apply, h]

/-- After a fault the rest is not run. -/
theorem bind_of_error {x : Checking σ α} {s s' : σ} {e : Fault} (h : x s = (.error e, s'))
    (f : α → Checking σ β) : (x >>= f) s = (.error e, s') := by
  rw [bind_apply, h]

/-- A sequence of two checks succeeds exactly when both succeed, one after the other. -/
theorem bind_eq_ok_iff {x : Checking σ α} {f : α → Checking σ β} {s t : σ} {b : β} :
    (x >>= f) s = (.ok b, t) ↔ ∃ a s', x s = (.ok a, s') ∧ f a s' = (.ok b, t) := by
  rw [bind_apply]
  cases h : x s with
  | mk r s' =>
    cases r with
    | ok a =>
      -- `x` has run, so the witness is what it returned.
      constructor
      · intro hf
        exact ⟨a, s', rfl, hf⟩
      · rintro ⟨a', t', he, hf⟩
        cases he
        exact hf
    | error e => simp

instance : LawfulMonad (Checking σ) :=
  LawfulMonad.mk' (Checking σ)
    (fun x => by
      funext s
      change (x >>= fun a => pure (id a)) s = x s
      rw [bind_apply]
      cases x s with
      | mk r s' => cases r <;> rfl)
    (fun _ _ => rfl)
    (fun x f g => by
      funext s
      simp only [bind_apply]
      cases x s with
      | mk r s' => cases r <;> rfl)

/-- An operand fault is the only thing a tolerant check hides. -/
theorem tolerant_eq_ok_iff {x : Checking σ Bool} {s t : σ} {b : Bool} :
    x.tolerant s = (.ok b, t) ↔
      x s = (.ok b, t) ∨ b = false ∧ ∃ e, e.isOperandFault = true ∧ x s = (.error e, t) := by
  unfold tolerant
  cases h : x s with
  | mk r s' =>
    cases r with
    | ok a => simp
    | error e =>
      cases he : e.isOperandFault
      -- Another fault passes through, so neither side can hold.
      · simp only [he, Bool.false_eq_true, if_false, Prod.mk.injEq, reduceCtorEq, false_and,
          false_or, false_iff]
        rintro ⟨-, e', he', h1, -⟩
        cases h1
        simp [he] at he'
      -- An operand fault has become `false`, and the first case of the right side is out.
      · simp only [he, if_true, Prod.mk.injEq, Except.ok.injEq, reduceCtorEq, false_and, false_or]
        constructor
        · rintro ⟨rfl, rfl⟩
          exact ⟨rfl, e, he, rfl, rfl⟩
        · rintro ⟨rfl, e', _, _, rfl⟩
          exact ⟨rfl, rfl⟩

end Checking

end SqlTyping
