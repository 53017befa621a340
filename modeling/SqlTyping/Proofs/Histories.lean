import SqlTyping.Proofs.Keeping

namespace SqlTyping

/-!
# Histories of requests

A state is asked for one thing after another; a request that fails leaves it as it was:

* `Checking.attempt` — a change that may fail, as a check;
* `Checking.after` — the state after a list of requests, whichever of them failed;
* `Checking.keeps_after` — what every request keeps holds after all of them;
* `Checking.related_after` — so do relations between a state and a later one, if they are reflexive and
  transitive.
-/

namespace Checking

variable {σ α ρ : Type} {s : σ} {change : σ → Except Fault (α × σ)}

/-- A change that may fail. The state changes only when it succeeds. -/
def attempt (change : σ → Except Fault (α × σ)) : Checking σ α := fun s =>
  match change s with
  | .ok (a, s') => (.ok a, s')
  | .error e => (.error e, s)

theorem attempt_of_ok {a : α} {s' : σ} (h : change s = .ok (a, s')) :
    attempt change s = (.ok a, s') := by
  unfold attempt
  rw [h]

theorem attempt_of_error {e : Fault} (h : change s = .error e) :
    attempt change s = (.error e, s) := by
  unfold attempt
  rw [h]

/-- The state after requests, one after the other. -/
def after (perform : ρ → Checking σ α) (s : σ) (requests : List ρ) : σ :=
  requests.foldl (fun s r => (perform r s).2) s

variable {perform : ρ → Checking σ α}

@[simp] theorem after_nil : after perform s [] = s := rfl

@[simp] theorem after_cons (r : ρ) (requests : List ρ) :
    after perform s (r :: requests) = after perform (perform r s).2 requests := rfl

theorem after_append (earlier later : List ρ) :
    after perform s (earlier ++ later) = after perform (after perform s earlier) later :=
  List.foldl_append

/-- An invariant that every request keeps holds after all of them. -/
theorem keeps_after {P : σ → Prop} (hstep : ∀ r, (perform r).Keeps P) (h : P s)
    (requests : List ρ) : P (after perform s requests) := by
  induction requests generalizing s with
  | nil => exact h
  | cons r requests ih => exact ih (hstep r s h)

/-- What relates a state to the next one relates it to all later ones. -/
theorem related_after {R : σ → σ → Prop} (hrefl : ∀ s, R s s)
    (htrans : ∀ s s' s'', R s s' → R s' s'' → R s s'') (hstep : ∀ r s, R s (perform r s).2)
    (requests : List ρ) : R s (after perform s requests) := by
  induction requests generalizing s with
  | nil => exact hrefl s
  | cons r requests ih => exact htrans s _ _ (hstep r s) ih

end Checking

end SqlTyping
