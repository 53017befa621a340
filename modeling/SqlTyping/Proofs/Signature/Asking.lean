import SqlTyping.Proofs.Signature.Stability

namespace SqlTyping

/-!
# Requests to the engine

When a check asks the engine to convert operands, and for what. A ghost beside the state of the call keeps
the requests in order, each with the state in which it was made:

* `Watched`, `CallView.watched` — a call with what its engine has been asked for;
* `CallView.erases_watched` — without the requests this is the check of the call;
* `CallView.AskedRightly` — the call did not fit as written, and the engine is told its operand types;
* `CallView.CarriedOut` — the plan that the engine has for a request has been carried out;
* `CallView.Asks lists x` — `x` asks the engine rightly and for a subsequence of `lists`;
* `CallView.asks_check` — a check asks for the family lists among the leaves, from left to right;
* `CallView.check_withEngine` — only the plans for what is asked for matter of an engine;
* `CallView.Candid` — the engine does not deny what it has converted;
* `CallView.asked_once` — what a check asks for, and when a list of families is not for a call.
-/

/-- A request to the engine, and the state of the call in which it was made. -/
structure Asked (σ : Type) where
  state : σ
  request : CoercionRequest

/-- A call under a check, with what its engine has been asked for so far, oldest first. -/
structure Watched (σ : Type) where
  state : σ
  asked : List (Asked σ) := []

/-- The families that a list of families asks for. -/
def Signature.positions? : Signature → Option (List Family)
  | families positions _ => some positions
  | _ => none

/-- The lists of families among the leaves of a signature, left to right. -/
def Signature.familyLists (signature : Signature) : List (List Family) :=
  signature.leaves.filterMap positions?

/-- The lists of families among the leaves of alternatives. -/
def Signature.familyListsOf (alternatives : List Signature) : List (List Family) :=
  (leavesOf alternatives).filterMap positions?

namespace Checking

variable {σ : Type}

/-- A tolerant check leads where the check leads. -/
theorem snd_tolerant (x : Checking σ Bool) (s : σ) : (x.tolerant s).2 = (x s).2 := by
  unfold tolerant
  cases x s with
  | mk r s' =>
    cases r with
    | ok b => rfl
    | error e =>
      by_cases he : e.isOperandFault = true
      · simp only [he, if_true]
      · simp only [he, Bool.false_eq_true, if_false]

end Checking

namespace CallView

open Checking

variable {σ α β : Type}

/-- A check of a call, on the call under watch. -/
def onState (x : Checking σ α) : Checking (Watched σ) α :=
  focus Watched.state (fun w s => { w with state := s }) x

/-- The call, with every request kept. -/
def watched (c : CallView σ) : CallView (Watched σ) where
  operator := c.operator
  coerces := c.coerces
  engine := c.engine
  count w := c.count w.state
  isNull w := c.isNull w.state
  isDefault w := c.isDefault w.state
  typeOf index := onState (c.typeOf index)
  castTo index target := onState (c.castTo index target)
  note request w := ⟨c.note request w.state, w.asked ++ [⟨w.state, request⟩]⟩

/-- One step of a check leads from one state to another: a type is looked up, an operand is cast, or a
    request is noted. -/
inductive Moves (c : CallView σ) : σ → σ → Prop
  | typeOf (index : Nat) (s : σ) : Moves c s (c.typeOf index s).2
  | castTo (index : Nat) (target : DataType) (s : σ) : Moves c s (c.castTo index target s).2
  | note (request : CoercionRequest) (s : σ) : Moves c s (c.note request s)

/-- Steps of checks lead from one state to another. -/
def Reaches (c : CallView σ) : σ → σ → Prop := Relation.ReflTransGen c.Moves

/-- In a check that has begun in `s` the engine has been asked rightly: operands may be converted, the
    call has as many as there are families, it does not fit them as written, and the request tells the
    types of the operands, found just before, and the call as it then was. -/
def AskedRightly (c : CallView σ) (s : σ) (e : Asked σ) : Prop :=
  c.coerces = true ∧ ∃ start refused typed omittable, c.Reaches s start ∧
    e.request.families.length = c.count start ∧
    (Signature.familiesStrict c e.request.families omittable).tolerant start = (.ok false, refused) ∧
    c.types refused = (.ok e.request.types, typed) ∧
    c.signatureText typed = (.ok e.request.call, e.state)

/-- When a request had been noted, the plan that the engine has for it was carried out, and this led on
    to `s`. -/
def CarriedOut (c : CallView σ) (e : Asked σ) (s : σ) : Prop :=
  c.Reaches ((c.engine.plan c.operator e.request.types e.request.families).run c
    (c.note e.request e.state)).2 s

/-- From `w` to `w'` the engine has been asked rightly, and for a subsequence of `lists`, and each of its
    plans has been carried out. -/
structure AskedSince (c : CallView σ) (lists : List (List Family)) (w w' : Watched σ) : Prop where
  reaches : c.Reaches w.state w'.state
  asked : ∃ later, w'.asked = w.asked ++ later ∧ (later.map (·.request.families)).Sublist lists ∧
    ∀ e ∈ later, c.AskedRightly w.state e ∧ c.CarriedOut e w'.state

/-- However it ends, the check asks the engine only rightly, and for a subsequence of `lists`. -/
def Asks (c : CallView σ) (lists : List (List Family)) (x : Checking (Watched σ) α) : Prop :=
  ∀ w, c.AskedSince lists w (x w).2

variable {c : CallView σ} {lists lists' : List (List Family)} {w w' w'' : Watched σ}

/-! ### Without the requests -/

theorem mirrors_onState (x : Checking σ α) : x.Mirrors (fun s w => w.state = s) (onState x) := by
  rintro _ w rfl
  exact endAlike_of_eq rfl rfl

/-- The call under watch looks like the call. -/
theorem alike_watched (c : CallView σ) : c.Alike .equality (fun s w => w.state = s) c.watched := by
  refine ⟨rfl, rfl, rfl, ?_, ?_, ?_, fun index => mirrors_onState (c.typeOf index), ?_⟩
  · rintro _ w rfl
    rfl
  · rintro _ w _ rfl
    rfl
  · rintro _ w _ rfl
    rfl
  · rintro _ w request request' hrequest rfl
    rw [hrequest.eq]
    rfl

theorem mirrors_castTo_watched (c : CallView σ) (index : Nat) {target target' : DataType}
    (htarget : Likeness.equality.types target target') :
    (c.castTo index target).Mirrors (fun s w => w.state = s) (c.watched.castTo index target') := by
  obtain rfl : target = target' := htarget
  exact mirrors_onState (c.castTo index target)

/-- Its engine does the same. -/
theorem mirrors_watched (c : CallView σ) :
    c.Mirrors .equality (fun s w => w.state = s) (fun _ => True) c.watched :=
  .of_castTo c.alike_watched c.engine.respects_equality fun index => c.mirrors_castTo_watched index

/-- What is done under watch is done to the call. -/
theorem erases {x : Checking σ α} {y : Checking (Watched σ) α}
    (h : EndAlike (fun s w => w.state = s) Eq w.state w x y) {r : Except Fault α}
    (hy : y w = (r, w')) : x w.state = (r, w'.state) := by
  have hr := h.answer_eq
  have hs := h.rel
  rw [hy] at hr hs
  exact Prod.ext hr.symm hs.symm

theorem erases_types {types : List DataType} (hy : c.watched.types w = (.ok types, w')) :
    c.types w.state = (.ok types, w'.state) := by
  have hend : EndAlike (fun s w => w.state = s) (List.Forall₂ Eq) w.state w c.types c.watched.types :=
    c.mirrors_watched.types rfl
  rw [List.forall₂_eq_eq_eq] at hend
  exact erases hend hy

/-- The plans of the engine lead to the same state. -/
theorem state_run (c : CallView σ) (types : List DataType) (families : List Family) (w : Watched σ) :
    ((c.engine.plan c.operator types families).run c.watched w).2.state =
      ((c.engine.plan c.operator types families).run c w.state).2 := by
  have htypes : List.Forall₂ Likeness.equality.types types types := List.forall₂_same.mpr fun _ _ => rfl
  exact (c.alike_watched.run (fun index => c.mirrors_castTo_watched index)
    (c.engine.respects_equality _ _ _ families htypes) w.state w rfl).rel

/-- A check of a signature under watch is the check of the signature. -/
theorem erases_watched (c : CallView σ) (signature : Signature) (w : Watched σ) :
    (signature.check c.watched w).1 = (signature.check c w.state).1 ∧
      (signature.check c.watched w).2.state = (signature.check c w.state).2 := by
  have hmirrors := c.mirrors_watched.check signature fun _ _ _ _ _ _ _ => trivial
  rw [erases (hmirrors w.state w rfl) rfl]
  exact ⟨rfl, rfl⟩

/-! ### Requests one after the other -/

namespace AskedSince

theorem refl (c : CallView σ) (w : Watched σ) : c.AskedSince [] w w :=
  ⟨.refl, [], by simp⟩

theorem mono (h : c.AskedSince lists w w') (hl : lists.Sublist lists') :
    c.AskedSince lists' w w' := by
  obtain ⟨hreaches, later, hasked, hsub, hright⟩ := h
  exact ⟨hreaches, later, hasked, hsub.trans hl, hright⟩

/-- Requests are asked for one list after the other. -/
theorem trans (h : c.AskedSince lists w w') (h' : c.AskedSince lists' w' w'') :
    c.AskedSince (lists ++ lists') w w'' := by
  obtain ⟨hreaches, later, hasked, hsub, hright⟩ := h
  obtain ⟨hreaches', later', hasked', hsub', hright'⟩ := h'
  refine ⟨hreaches.trans hreaches', later ++ later', ?_, ?_, fun e he => ?_⟩
  · rw [hasked', hasked, List.append_assoc]
  · rw [List.map_append]
    exact hsub.append hsub'
  · rcases List.mem_append.mp he with he | he
    · exact ⟨(hright e he).1, (hright e he).2.trans hreaches'⟩
    · obtain ⟨⟨hc, start, refused, typed, omittable, hstart, hrest⟩, hrun⟩ := hright' e he
      exact ⟨⟨hc, start, refused, typed, omittable, hreaches.trans hstart, hrest⟩, hrun⟩

/-- Where nothing is asked for the requests stay the same. -/
theorem asked_eq (h : c.AskedSince [] w w') : w'.asked = w.asked := by
  obtain ⟨-, later, hasked, hsub, -⟩ := h
  obtain rfl : later = [] := List.map_eq_nil_iff.mp (List.sublist_nil.mp hsub)
  simpa using hasked

/-- Nothing is asked for in a step that leaves the requests alone. -/
theorem tail (h : c.AskedSince lists w w') (hmove : c.Moves w'.state w''.state)
    (hasked : w''.asked = w'.asked) : c.AskedSince lists w w'' := by
  obtain ⟨hreaches, later, hlater, hsub, hright⟩ := h
  exact ⟨hreaches.tail hmove, later, hasked.trans hlater, hsub, fun e he =>
    ⟨(hright e he).1, (hright e he).2.tail hmove⟩⟩

/-- What follows a check comes behind it. -/
theorem bind {x : Checking (Watched σ) α} {f : α → Checking (Watched σ) β}
    (hx : c.AskedSince lists w (x w').2) (hf : ∀ a, c.Asks lists' (f a)) :
    c.AskedSince (lists ++ lists') w ((x >>= f) w').2 := by
  cases hr : x w' with
  | mk r w'' =>
    rw [hr] at hx
    cases r with
    | error e =>
      rw [bind_of_error hr]
      exact hx.mono (List.sublist_append_left ..)
    | ok a =>
      rw [bind_of_ok hr]
      exact hx.trans (hf a w'')

end AskedSince

theorem asks_pure (a : α) : c.Asks [] (pure a) := fun w => .refl c w

theorem Asks.bind {x : Checking (Watched σ) α} {f : α → Checking (Watched σ) β}
    (hx : c.Asks lists x) (hf : ∀ a, c.Asks lists' (f a)) : c.Asks (lists ++ lists') (x >>= f) :=
  fun w => (hx w).bind hf

theorem Asks.tolerant {x : Checking (Watched σ) Bool} (hx : c.Asks lists x) :
    c.Asks lists x.tolerant := by
  intro w
  rw [snd_tolerant]
  exact hx w

/-- What leaves the requests alone wherever it is done asks for nothing. -/
theorem asks_of_keeps {x : Checking (Watched σ) α}
    (h : ∀ w, x.Keeps (c.AskedSince [] w)) : c.Asks [] x := fun w => h w w (.refl c w)

/-! ### Looking and carrying out a plan -/

/-- Looking at the call asks for nothing. -/
theorem keeps_watched (c : CallView σ) (lists : List (List Family)) (w : Watched σ) :
    c.watched.Keeps (c.AskedSince lists w) fun _ => False where
  typeOf index _ hw := hw.tail (.typeOf index _) rfl
  coerce _ _ _ hasked := hasked.elim

theorem asks_anyStrict (alternatives : List Signature) :
    c.Asks [] (Signature.anyStrict c.watched alternatives) :=
  asks_of_keeps fun w => (c.keeps_watched [] w).anyStrict alternatives

theorem asks_mismatch (allowed : String) : c.Asks [] (c.watched.mismatch allowed : Checking _ α) :=
  asks_of_keeps fun w => (c.keeps_watched [] w).mismatch allowed

theorem asks_checkAll (positions : List Family) (omittable : Nat → Bool) :
    c.Asks [] (Signature.checkAll c.watched positions omittable) :=
  asks_of_keeps fun w => (c.keeps_watched [] w).checkAll positions omittable

/-- A plan that is carried out asks for nothing more. -/
theorem asks_run (plan : CoercionPlan) : c.Asks [] (plan.run c.watched) :=
  asks_of_keeps fun _ => keeps_iff_guards.mpr <| guards_run
    (fun index => keeps_iff_guards.mp fun _ hw => hw.tail (.typeOf index _) rfl)
    (fun index target => keeps_iff_guards.mp fun _ hw => hw.tail (.castTo index target _) rfl)
    (fun _ => trivial) plan

/-- A request that is made rightly, after nothing else has been asked for, and the plan for it. -/
theorem AskedSince.run {request : CoercionRequest} (h : c.AskedSince [] w w')
    (hright : c.AskedRightly w.state ⟨w'.state, request⟩) :
    c.AskedSince [request.families] w ((c.engine.plan c.operator request.types request.families).run
      c.watched (c.watched.note request w')).2 := by
  have hrun := asks_run (c := c) (c.engine.plan c.operator request.types request.families)
    (c.watched.note request w')
  refine ⟨(h.reaches.tail (.note request _)).trans hrun.reaches, [⟨w'.state, request⟩], ?_,
    List.Sublist.refl _, ?_⟩
  · exact hrun.asked_eq.trans (congrArg (· ++ _) h.asked_eq)
  · intro e he
    obtain rfl := List.mem_singleton.mp he
    refine ⟨hright, ?_⟩
    rw [state_run]
    exact .refl

/-! ### What a check asks for -/

/-- A request that is made when the call does not fit as written. -/
theorem asks_converted {positions : List Family} {omittable : Nat → Bool} {w₁ : Watched σ}
    (hcoerces : c.coerces = true) (hl : positions.length = c.count w.state)
    (htry : (Signature.familiesStrict c.watched positions omittable).tolerant w = (.ok false, w₁)) :
    c.AskedSince [positions] w ((do
      let converted ← c.watched.coerce (← c.watched.types) positions
      Signature.checkAll c.watched positions omittable
      return converted : Checking (Watched σ) Bool) w₁).2 := by
  have hquiet₁ : c.AskedSince [] w w₁ := by
    have := ((c.keeps_watched [] w).familiesStrict positions omittable).tolerant w (.refl c w)
    rwa [htry] at this
  cases htypes : c.watched.types w₁ with
  | mk r w₂ =>
    have hquiet₂ : c.AskedSince [] w w₂ := by
      have := (c.keeps_watched [] w).types w₁ hquiet₁
      rwa [htypes] at this
    cases r with
    | error e =>
      rw [bind_of_error htypes]
      exact hquiet₂.mono (List.nil_sublist _)
    | ok types =>
      obtain ⟨call, w₃, htext⟩ := c.watched.signatureText_total w₂
      have hquiet₃ : c.AskedSince [] w w₃ := by
        have := (c.keeps_watched [] w).signatureText w₂ hquiet₂
        rwa [htext] at this
      have hright : c.AskedRightly w.state ⟨w₃.state, ⟨call, types, positions⟩⟩ := by
        refine ⟨hcoerces, w.state, w₁.state, w₂.state, omittable, .refl, hl, ?_, erases_types htypes, ?_⟩
        · exact erases ((c.mirrors_watched.familiesStrict positions omittable).tolerant _ _ rfl) htry
        · exact erases (c.mirrors_watched.signatureText _ _ rfl) htext
      have hcoerce : c.watched.coerce types positions w₂ =
          (c.engine.plan c.operator types positions).run c.watched
            (c.watched.note ⟨call, types, positions⟩ w₃) := by
        unfold CallView.coerce
        rw [bind_of_ok htext, bind_of_ok (update_apply _ _)]
        rfl
      have hasked : c.AskedSince [positions] w (c.watched.coerce types positions w₂).2 := by
        rw [hcoerce]
        exact hquiet₃.run hright
      rw [bind_of_ok htypes]
      exact hasked.bind fun converted => (asks_checkAll positions omittable).bind fun _ =>
        asks_pure converted

/-- A list of families asks for itself at most. -/
theorem asks_familiesCheck (positions : List Family) (omittable : Nat → Bool) :
    c.Asks [positions] (Signature.familiesCheck c.watched positions omittable) := by
  intro w
  have hnothing : ∀ {w'}, c.AskedSince [] w w' → c.AskedSince [positions] w w' :=
    fun h => h.mono (List.nil_sublist _)
  unfold Signature.familiesCheck
  rw [bind_of_ok (state_apply w)]
  by_cases hl : positions.length = c.watched.count w
  swap
  · rw [if_neg hl]
    exact hnothing (.refl c w)
  rw [if_pos hl]
  have hquiet := ((c.keeps_watched [] w).familiesStrict positions omittable).tolerant w (.refl c w)
  cases htry : (Signature.familiesStrict c.watched positions omittable).tolerant w with
  | mk r w₁ =>
    rw [htry] at hquiet
    cases r with
    | error e =>
      rw [bind_of_error htry]
      exact hnothing hquiet
    | ok fitted =>
      rw [bind_of_ok htry]
      cases fitted with
      | true => exact hnothing hquiet
      | false =>
        simp only [Bool.false_eq_true, if_false]
        by_cases hcoerces : c.watched.coerces = true
        · have hconverted := asks_converted (c := c) hcoerces hl htry
          rw [if_pos hcoerces]
          exact hconverted
        · rw [if_neg hcoerces]
          have hagain := (asks_checkAll (c := c) positions omittable).bind fun _ => asks_pure false
          exact hnothing (hquiet.trans (hagain w₁))

mutual

/-- A check asks for the family lists among the leaves, each at most once and from left to right. -/
theorem asks_check : ∀ signature : Signature,
    c.Asks signature.familyLists (signature.check c.watched)
  | .families positions omittable => asks_familiesCheck positions omittable
  | .openEnded _ answer => asks_pure answer
  | .oneOf alternatives => by
    unfold Signature.check
    refine Asks.bind (asks_anyStrict alternatives) fun fitted => ?_
    show c.Asks (Signature.familyListsOf alternatives) _
    rw [← List.append_nil (Signature.familyListsOf alternatives)]
    cases fitted with
    | true => exact fun w => (AskedSince.refl c w).mono (List.nil_sublist _)
    | false =>
      refine (asks_anyCheck alternatives).bind fun found => ?_
      cases found with
      | true => exact asks_pure true
      | false => exact asks_mismatch _

theorem asks_anyCheck : ∀ alternatives : List Signature,
    c.Asks (Signature.familyListsOf alternatives) (Signature.anyCheck c.watched alternatives)
  | [] => asks_pure false
  | signature :: rest => by
    unfold Signature.anyCheck
    rw [show Signature.familyListsOf (signature :: rest) =
      signature.familyLists ++ Signature.familyListsOf rest from List.filterMap_append]
    refine (asks_check signature).tolerant.bind fun found => ?_
    cases found with
    | true => exact fun w => (AskedSince.refl c w).mono (List.nil_sublist _)
    | false => exact asks_anyCheck rest

end

/-! ### The engine behind the requests -/

/-- The call with another engine. -/
def withEngine (c : CallView σ) (engine : CoercionEngine) : CallView σ :=
  c.withConversion engine c.castTo c.note

/-- For each request the engine has the same plan as that of the call. -/
def PlansAlike (c : CallView σ) (engine : CoercionEngine) (asked : List (Asked σ)) : Prop :=
  ∀ e ∈ asked, engine.plan c.operator e.request.types e.request.families =
    c.engine.plan c.operator e.request.types e.request.families

/-- A check keeps the requests, and another one does the same when its engine has the same plans for
    them. -/
structure Consults (c : CallView σ) (engine : CoercionEngine) (x y : Checking (Watched σ) α) : Prop where
  keeps : ∀ w, w.asked ⊆ (x w).2.asked
  same : ∀ w, c.PlansAlike engine (x w).2.asked → y w = x w

section

variable {engine : CoercionEngine}

theorem watched_withEngine :
    (c.withEngine engine).watched = c.watched.withConversion engine c.watched.castTo c.watched.note := rfl

theorem Asks.keeps {x : Checking (Watched σ) α} (h : c.Asks lists x) (w : Watched σ) :
    w.asked ⊆ (x w).2.asked := by
  obtain ⟨-, later, hlater, -⟩ := h w
  rw [hlater]
  exact List.subset_append_left _ _

/-- Where the engine is not asked it does not matter. -/
theorem Asks.consults {x : Checking (Watched σ) α} (h : c.Asks lists x) : c.Consults engine x x :=
  ⟨h.keeps, fun _ _ => rfl⟩

namespace Consults

theorem bind {x y : Checking (Watched σ) α} {f g : α → Checking (Watched σ) β}
    (hx : c.Consults engine x y) (hf : ∀ a, c.Consults engine (f a) (g a)) :
    c.Consults engine (x >>= f) (y >>= g) := by
  refine ⟨fun w => ?_, fun w halike => ?_⟩
  · have hkeeps := hx.keeps w
    cases hr : x w with
    | mk r w' =>
      rw [hr] at hkeeps
      cases r with
      | error e =>
        rw [bind_of_error hr]
        exact hkeeps
      | ok a =>
        rw [bind_of_ok hr]
        exact List.Subset.trans hkeeps ((hf a).keeps w')
  · have hsame := hx.same w
    cases hr : x w with
    | mk r w' =>
      rw [hr] at hsame
      cases r with
      | error e =>
        rw [bind_of_error hr] at halike ⊢
        exact bind_of_error (hsame halike) g
      | ok a =>
        rw [bind_of_ok hr] at halike ⊢
        -- What has been asked for first is still among the requests at the end.
        have hfirst : c.PlansAlike engine w'.asked := fun e he => halike e ((hf a).keeps w' he)
        rw [bind_of_ok (hsame hfirst)]
        exact (hf a).same w' halike

theorem ite {p : Prop} [Decidable p] {x x' y y' : Checking (Watched σ) α} (hx : c.Consults engine x y)
    (hx' : c.Consults engine x' y') :
    c.Consults engine (if p then x else x') (if p then y else y') := by
  split
  · exact hx
  · exact hx'

theorem tolerant {x y : Checking (Watched σ) Bool} (h : c.Consults engine x y) :
    c.Consults engine x.tolerant y.tolerant := by
  refine ⟨fun w => ?_, fun w halike => ?_⟩
  · rw [snd_tolerant]
    exact h.keeps w
  · rw [snd_tolerant] at halike
    unfold Checking.tolerant
    rw [h.same w halike]

end Consults

/-- A plan is carried out without the engine. -/
theorem run_withEngine (plan : CoercionPlan) : plan.run (c.withEngine engine) = plan.run c := by
  induction plan with
  | stop | fail => rfl
  | askDefault index next ih => exact funext fun s => congrFun (ih _) s
  | askNull index next ih => exact funext fun s => congrFun (ih _) s
  | askType index next ih => exact funext fun s => congrFun (ih _) _
  | cast index target next ih => exact funext fun s => congrFun (ih _) _

theorem consults_coerce (types : List DataType) (positions : List Family) :
    c.Consults engine (c.watched.coerce types positions)
      ((c.withEngine engine).watched.coerce types positions) := by
  have htext : c.Asks [] c.watched.signatureText := asks_of_keeps fun w =>
    (c.keeps_watched [] w).signatureText
  refine htext.consults.bind fun call => ?_
  have hkeeps : ∀ w, (c.watched.note ⟨call, types, positions⟩ w).asked =
      ((c.engine.plan c.operator types positions).run c.watched
        (c.watched.note ⟨call, types, positions⟩ w)).2.asked := fun w =>
    ((asks_run (c := c) (c.engine.plan c.operator types positions)) _).asked_eq.symm
  refine ⟨fun w => ?_, fun w halike => ?_⟩
  · show w.asked ⊆ ((c.engine.plan c.operator types positions).run c.watched
      (c.watched.note ⟨call, types, positions⟩ w)).2.asked
    rw [← hkeeps]
    exact List.subset_append_left _ _
  · show (engine.plan c.operator types positions).run (c.watched.withEngine engine)
        (c.watched.note ⟨call, types, positions⟩ w) =
      (c.engine.plan c.operator types positions).run c.watched
        (c.watched.note ⟨call, types, positions⟩ w)
    have hplan : engine.plan c.operator types positions = c.engine.plan c.operator types positions := by
      refine halike ⟨w.state, ⟨call, types, positions⟩⟩ ?_
      show _ ∈ ((c.engine.plan c.operator types positions).run c.watched
        (c.watched.note ⟨call, types, positions⟩ w)).2.asked
      rw [← hkeeps]
      exact List.mem_append_right _ (List.mem_singleton_self _)
    rw [hplan, run_withEngine]

theorem consults_familiesCheck (positions : List Family) (omittable : Nat → Bool) :
    c.Consults engine (Signature.familiesCheck c.watched positions omittable)
      (Signature.familiesCheck (c.withEngine engine).watched positions omittable) := by
  have hstrict : c.Asks [] (Signature.familiesStrict c.watched positions omittable).tolerant :=
    asks_of_keeps fun w => ((c.keeps_watched [] w).familiesStrict positions omittable).tolerant
  have htypes : c.Asks [] c.watched.types := asks_of_keeps fun w => (c.keeps_watched [] w).types
  have hagain : ∀ converted : Bool, c.Consults engine
      (Signature.checkAll c.watched positions omittable >>= fun _ => pure converted)
      (Signature.checkAll c.watched positions omittable >>= fun _ => pure converted) := fun converted =>
    ((asks_checkAll positions omittable).bind fun _ => asks_pure converted).consults
  have hall : Signature.checkAll (c.withEngine engine).watched positions omittable =
      Signature.checkAll c.watched positions omittable := by
    rw [watched_withEngine]
    exact checkFrom_withConversion _ _ _ _
  unfold Signature.familiesCheck
  rw [hall, watched_withEngine, familiesStrict_withConversion]
  have hstate : c.Asks [] (Checking.state : Checking (Watched σ) (Watched σ)) := fun w => .refl c w
  refine hstate.consults.bind fun w => .ite ?_ (asks_pure false).consults
  refine hstrict.consults.bind fun fitted => .ite (asks_pure true).consults ?_
  refine .ite ?_ ?_
  · exact htypes.consults.bind fun types => (consults_coerce types positions).bind hagain
  · exact (asks_pure false).consults.bind hagain

mutual

theorem consults_check : ∀ signature : Signature,
    c.Consults engine (signature.check c.watched) (signature.check (c.withEngine engine).watched)
  | .families positions omittable => consults_familiesCheck positions omittable
  | .openEnded _ answer => (asks_pure answer).consults
  | .oneOf alternatives => by
    have hstrict : Signature.anyStrict (c.withEngine engine).watched alternatives =
        Signature.anyStrict c.watched alternatives := by
      rw [watched_withEngine, anyStrict_withConversion]
    unfold Signature.check
    rw [hstrict]
    refine (asks_anyStrict alternatives).consults.bind fun fitted => .ite (asks_pure true).consults ?_
    refine (consults_anyCheck alternatives).bind fun found => .ite (asks_pure true).consults ?_
    exact (asks_mismatch _).consults

theorem consults_anyCheck : ∀ alternatives : List Signature,
    c.Consults engine (Signature.anyCheck c.watched alternatives)
      (Signature.anyCheck (c.withEngine engine).watched alternatives)
  | [] => (asks_pure false).consults
  | signature :: rest => by
    unfold Signature.anyCheck
    refine (consults_check signature).tolerant.bind fun found => ?_
    exact .ite (asks_pure true).consults (consults_anyCheck rest)

end

/-- An engine with the same plans for what is asked for makes no difference. -/
theorem check_withEngine {signature : Signature} {s : σ}
    (h : c.PlansAlike engine (signature.check c.watched ⟨s, []⟩).2.asked) :
    signature.check (c.withEngine engine) s = signature.check c s := by
  have hsame := (consults_check (c := c) signature).same ⟨s, []⟩ h
  obtain ⟨hanswer, hstate⟩ := c.erases_watched signature ⟨s, []⟩
  obtain ⟨hanswer', hstate'⟩ := (c.withEngine engine).erases_watched signature ⟨s, []⟩
  rw [hsame] at hanswer' hstate'
  exact Prod.ext (hanswer'.symm.trans hanswer) (hstate'.symm.trans hstate)

end

/-! ### Answers to a list of families -/

/-- The contract of an engine, on a call that is stable: it does not deny what it has converted. When it
    says that it has converted nothing, the call still shows the same. -/
structure Candid (P : σ → Prop) (c : CallView σ) : Prop extends c.Stable P where
  engine : ∀ types families s s', P s →
    (c.engine.plan c.operator types families).run c s = (.ok false, s') → c.SameAs P s s'

section

variable {s s' : σ} {P : σ → Prop} {positions : List Family} {omittable : Nat → Bool}

/-- Where the number of operands differs nothing is done: the answer comes without a look at any operand
    and without the engine. -/
theorem check_families_of_ne (hl : positions.length ≠ c.count s) :
    (Signature.families positions omittable).check c s = (.ok false, s) := by
  unfold Signature.check Signature.familiesCheck
  rw [bind_of_ok (state_apply s), if_neg hl]
  rfl

/-- Operands that pass their checks make the call fit as written. -/
theorem tolerant_familiesStrict_of_checkAll (hl : positions.length = c.count s)
    (hall : Signature.checkAll c positions omittable s = (.ok (), s')) :
    (Signature.familiesStrict c positions omittable).tolerant s = (.ok true, s') := by
  refine tolerant_eq_ok_iff.mpr (.inl ?_)
  unfold Signature.familiesStrict
  rw [bind_of_ok (state_apply s), if_pos hl, bind_of_ok hall]
  rfl

/-- Where a candid engine has been asked and says that it has converted nothing, the call shows the
    same. -/
theorem Candid.sameAs_of_coerce (h : c.Candid P) {types : List DataType} {t t' : σ}
    (hsame : c.SameAs P s t) (hcoerce : c.coerce types positions t = (.ok false, t')) :
    c.SameAs P s t' := by
  obtain ⟨t₁, ⟨hp₁, hsame₁⟩, heq⟩ := h.exists_coerce_eq hsame.1 types positions
  rw [heq] at hcoerce
  obtain ⟨hp', hsame'⟩ := h.engine types positions t₁ t' hp₁ hcoerce
  exact ⟨hp', (hsame.2.trans hsame₁).trans hsame'⟩

/-- A candid engine that converts nothing leaves a call that is refused. -/
theorem Candid.length_ne (h : c.Candid P) (hs : P s)
    (hanswer : ((Signature.families positions omittable).check c s).1 = .ok false) :
    positions.length ≠ c.count s := by
  intro hl
  have hlook := h.keeps_sameAs s
  -- The operands are checked again where the call shows the same, so they pass at once.
  have hagain : ∀ {t t'}, c.SameAs P s t → Signature.checkAll c positions omittable t = (.ok (), t') →
      ((Signature.familiesStrict c positions omittable).tolerant s).1 = .ok true := by
    intro t t' hsame hall
    have heq := (h.alike.checkFrom positions omittable 0 positions s t ⟨hs, hsame⟩).answer_eq
    have hpass : (Signature.checkAll c positions omittable s).1 = .ok () :=
      heq.symm.trans (congrArg Prod.fst hall)
    rw [tolerant_familiesStrict_of_checkAll hl (Prod.ext hpass rfl)]
  have hok : (Signature.families positions omittable).check c s =
      (.ok false, ((Signature.families positions omittable).check c s).2) := Prod.ext hanswer rfl
  unfold Signature.check Signature.familiesCheck at hok
  rw [bind_of_ok (state_apply s), if_pos hl] at hok
  obtain ⟨fitted, s₁, htry, hok⟩ := bind_eq_ok_iff.mp hok
  have hsame₁ := (hlook.familiesStrict positions omittable).tolerant s ⟨hs, .refl c s⟩
  rw [htry] at hsame₁ hagain
  cases fitted with
  | true => cases hok
  | false =>
    simp only [Bool.false_eq_true, if_false] at hok
    by_cases hcoerces : c.coerces = true
    · rw [if_pos hcoerces] at hok
      obtain ⟨types, s₂, htypes, hok⟩ := bind_eq_ok_iff.mp hok
      obtain ⟨converted, s₃, hcoerce, hok⟩ := bind_eq_ok_iff.mp hok
      obtain ⟨⟨⟩, s₄, hall, hret⟩ := bind_eq_ok_iff.mp hok
      cases hret
      have hsame₂ := hlook.types s₁ hsame₁
      rw [htypes] at hsame₂
      cases hagain (h.sameAs_of_coerce hsame₂ hcoerce) hall
    · rw [if_neg hcoerces] at hok
      obtain ⟨converted, s₃, hnone, hok⟩ := bind_eq_ok_iff.mp hok
      cases hnone
      obtain ⟨⟨⟩, s₄, hall, -⟩ := bind_eq_ok_iff.mp hok
      cases hagain hsame₁ hall

/-- When the standard engine has converted an operand, it says so at the end. -/
theorem reports_implicitCasts {pairs : List (DataType × Family)} {start : Nat} {converted b : Bool}
    (hok : (CoercionPlan.implicitCasts start (true || converted) pairs).run c s = (.ok b, s')) :
    b = true := by
  induction pairs generalizing start converted s with
  | nil =>
    cases hok
    rfl
  | cons pair rest ih =>
    obtain ⟨source, family⟩ := pair
    by_cases hpass : c.isDefault s start = true ∨ implicitCast? source family = none
    · rw [CoercionPlan.run_implicitCasts_pass hpass] at hok
      exact ih hok
    · obtain ⟨hd, hsome⟩ := not_or.mp hpass
      obtain ⟨target, hto⟩ := Option.ne_none_iff_exists'.mp hsome
      rw [CoercionPlan.run_implicitCasts_cast (by simpa using hd) hto] at hok
      obtain ⟨done, s₁, -, hok⟩ := bind_eq_ok_iff.mp hok
      rw [Bool.true_or, Bool.or_true, ← Bool.true_or converted] at hok
      exact ih hok

/-- The standard engine is candid when a cast that is answered by `false` changes nothing. -/
theorem Candid.of_implicitCasts (h : c.Stable P) (hengine : c.engine = .implicitCasts)
    (hcast : ∀ index target s s', P s → c.castTo index target s = (.ok false, s') → c.SameAs P s s') :
    c.Candid P := by
  have hrun : ∀ (pairs : List (DataType × Family)) start converted {s s'}, P s →
      (CoercionPlan.implicitCasts start converted pairs).run c s = (.ok false, s') →
        converted = false ∧ c.SameAs P s s' := by
    intro pairs
    induction pairs with
    | nil =>
      intro start converted s s' hs hok
      cases hok
      exact ⟨rfl, hs, .refl c s⟩
    | cons pair rest ih =>
      obtain ⟨source, family⟩ := pair
      intro start converted s s' hs hok
      by_cases hpass : c.isDefault s start = true ∨ implicitCast? source family = none
      · rw [CoercionPlan.run_implicitCasts_pass hpass] at hok
        exact ih (start + 1) converted hs hok
      · obtain ⟨hd, hsome⟩ := not_or.mp hpass
        obtain ⟨target, hto⟩ := Option.ne_none_iff_exists'.mp hsome
        rw [CoercionPlan.run_implicitCasts_cast (by simpa using hd) hto] at hok
        obtain ⟨done, s₁, hx, hok⟩ := bind_eq_ok_iff.mp hok
        cases done with
        -- Once an operand has been converted, the report is that one has been.
        | true => cases reports_implicitCasts hok
        | false =>
          obtain ⟨hp, hsame⟩ := hcast start target s s₁ hs hx
          obtain ⟨hconverted, hp', hsame'⟩ := ih (start + 1) converted hp hok
          exact ⟨hconverted, hp', hsame.trans hsame'⟩
  refine ⟨h, fun types families s s' hs hok => ?_⟩
  rw [hengine] at hok
  exact (hrun (types.zip families) 0 false hs hok).2

end

/-- The types told in a request are those that the call shows at that moment. -/
theorem AskedRightly.types_eq {s : σ} {e : Asked σ} {P : σ → Prop} (h : c.AskedRightly s e)
    (hstable : c.Stable P) (hP : ∀ s', c.Reaches s s' → P s') :
    (c.types e.state).1 = .ok e.request.types := by
  obtain ⟨-, start, refused, typed, omittable, hreaches, -, htry, htypes, htext⟩ := h
  have hs := hP start hreaches
  have hrefused := ((hstable.keeps_sameAs start).familiesStrict e.request.families omittable).tolerant
    start ⟨hs, .refl c start⟩
  rw [htry] at hrefused
  have hlook := hstable.keeps_sameAs refused
  have htyped := hlook.types refused ⟨hrefused.1, .refl c refused⟩
  rw [htypes] at htyped
  have hsame := hlook.signatureText typed htyped
  rw [htext] at hsame
  have hend : EndAlike _ (List.Forall₂ Eq) refused e.state c.types c.types :=
    hstable.alike.types ⟨hrefused.1, hsame⟩
  rw [List.forall₂_eq_eq_eq] at hend
  exact hend.answer_eq.trans (congrArg Prod.fst htypes)

/-- A call that fits as written is never handed to the engine. -/
theorem asked_eq_nil_of_takes {signature : Signature} {s : σ} (h : c.Takes s signature) :
    (signature.check c.watched ⟨s, []⟩).2.asked = [] := by
  have hanswer := (c.mirrors_watched.checkStrict signature s ⟨s, []⟩ rfl).answer_eq
  have hstrict : signature.checkStrict c.watched ⟨s, []⟩ =
      (.ok true, (signature.checkStrict c.watched ⟨s, []⟩).2) := Prod.ext (hanswer.trans h) rfl
  rw [Signature.check_of_checkStrict hstrict]
  exact ((c.keeps_watched [] ⟨s, []⟩).checkStrict signature ⟨s, []⟩ (.refl c _)).asked_eq

/-- **The engine is asked once for a signature, and never in advance.** In one check the lists of families
    it is asked for are a subsequence of those among the leaves that have the length of the call. It is not
    asked when operands may not be converted, nor when the call fits as written. Each request is made for
    a list of families that the call does not fit as written, and tells the operand types of that moment;
    the plan that the engine has for it is carried out there and then. Nothing else is asked: another engine
    with the same plans for these requests makes no difference.
    A single list of families refuses a call of its length only if the engine has converted operands and
    denied it; a call of another length it refuses in the same way whatever the types, the casts and the
    engine are. -/
theorem asked_once (c : CallView σ) (signature : Signature) (s : σ) :
    let w := (signature.check c.watched ⟨s, []⟩).2
    (signature.check c.watched ⟨s, []⟩).1 = (signature.check c s).1 ∧
    w.state = (signature.check c s).2 ∧
    (w.asked.map (·.request.families)).Sublist signature.familyLists ∧
    ((∀ s', c.Reaches s s' → c.count s' = c.count s) → (w.asked.map (·.request.families)).Sublist
      (signature.familyLists.filter fun positions => positions.length = c.count s)) ∧
    (c.coerces = false ∨ (signature.checkStrict c s).1 = .ok true → w.asked = []) ∧
    (∀ e ∈ w.asked, c.AskedRightly s e ∧ c.CarriedOut e w.state) ∧
    (∀ engine, c.PlansAlike engine w.asked →
      signature.check (c.withEngine engine) s = signature.check c s) ∧
    (∀ P, c.Stable P → (∀ s', c.Reaches s s' → P s') →
      ∀ e ∈ w.asked, (c.types e.state).1 = .ok e.request.types) ∧
    ∀ positions omittable,
      (∀ P, c.Candid P → P s →
        ((Signature.families positions omittable).check c s).1 = .ok false →
          positions.length ≠ c.count s) ∧
      (positions.length ≠ c.count s → ∀ typeOf castTo engine note,
        (Signature.families positions omittable).check
          { c with typeOf := typeOf, castTo := castTo, engine := engine, note := note } s =
            (.ok false, s)) := by
  intro w
  obtain ⟨hanswer, hstate⟩ := c.erases_watched signature ⟨s, []⟩
  obtain ⟨-, later, hlater, hsub, hright⟩ := asks_check (c := c) signature ⟨s, []⟩
  obtain rfl : w.asked = later := hlater
  refine ⟨hanswer, hstate, hsub, fun hcount => ?_, ?_, hright, fun engine => check_withEngine, ?_, ?_⟩
  · have hlengths : (w.asked.map (·.request.families)).filter
        (fun positions => positions.length = c.count s) = w.asked.map (·.request.families) := by
      refine List.filter_eq_self.mpr fun families hmem => ?_
      obtain ⟨e, he, rfl⟩ := List.mem_map.mp hmem
      obtain ⟨-, start, -, -, -, hreaches, hl, -⟩ := (hright e he).1
      simpa using hl.trans (hcount start hreaches)
    rw [← hlengths]
    exact hsub.filter _
  · rintro (hcoerces | htaken)
    · refine List.eq_nil_iff_forall_not_mem.mpr fun e he => ?_
      have hasked := (hright e he).1.1
      rw [hcoerces] at hasked
      cases hasked
    · exact asked_eq_nil_of_takes htaken
  · exact fun P hstable hP e he => (hright e he).1.types_eq hstable hP
  · exact fun positions omittable => ⟨fun P h hs hfalse => h.length_ne hs hfalse,
      fun hl typeOf castTo engine note => check_families_of_ne hl⟩

end CallView

namespace DetachedCall

/-- The standard engine does not deny what it has converted outside a statement. -/
theorem candid_view (operator : String) (coerces : Bool) :
    (view operator coerces .implicitCasts).Candid fun _ => True := by
  refine .of_implicitCasts (stable_view operator coerces .implicitCasts) rfl
    fun index target s s' _ hcast => ?_
  have hcast : castTo index target s = (.ok false, s') := hcast
  unfold castTo at hcast
  by_cases hi : index < s.operands.length
  · rw [if_pos hi] at hcast
    cases hcast
  · rw [if_neg hi] at hcast
    cases hcast
    exact ⟨trivial, .refl _ s⟩

/-- Whatever is done to a call outside a statement, it keeps its number of operands. -/
theorem length_of_reaches {operator : String} {coerces : Bool} {engine : CoercionEngine}
    {s s' : DetachedCall} (h : (view operator coerces engine).Reaches s s') :
    s'.operands.length = s.operands.length := by
  induction h with
  | refl => rfl
  | @tail mid _ _ hmove ih =>
    rw [← ih]
    cases hmove with
    | typeOf index => exact congrArg (fun t => t.operands.length) (typeOf_state index mid)
    | note request => rfl
    | castTo index target =>
      show (castTo index target mid).2.operands.length = _
      unfold castTo
      split
      · exact List.length_set
      · rfl

/-- The first list of families that has the length of the call is asked for and still refuses it; the
    second one accepts what the engine has then made of it. -/
theorem asked_once_dates :
    let c := view "SPAN" true .implicitCasts
    let signature : Signature := .oneOf [.required [.date], .oneOf [.required [.date, .date],
      .required [.numeric, .timestamp]], .required [.ignore, .binary]]
    let s : DetachedCall := ⟨[.typed (.notNull .integer), .typed (.notNull .varchar)], [], []⟩
    let asked := (signature.check c.watched ⟨s, []⟩).2.asked.map (·.request.families)
    (∀ s', c.Reaches s s' → c.count s' = c.count s) ∧
    asked = [[.date, .date], [.numeric, .timestamp]] ∧
    asked.Sublist (signature.familyLists.filter fun positions => positions.length = c.count s) ∧
    ((Signature.required [.numeric]).check c s).1 = .ok false ∧ [Family.numeric].length ≠ c.count s := by
  intro c signature s asked
  have hcount : ∀ s', c.Reaches s s' → c.count s' = c.count s := fun s' => length_of_reaches
  obtain ⟨-, -, -, hsub, -, -, -, -, hlist⟩ := c.asked_once signature s
  refine ⟨hcount, by decide +kernel, hsub hcount, rfl, ?_⟩
  exact (hlist [.numeric] fun _ => false).1 (fun _ => True) (candid_view "SPAN" true) trivial rfl

end DetachedCall

end SqlTyping
