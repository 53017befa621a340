import Mathlib.Data.List.Perm.Basic
import SqlTyping.Proofs.Signature.Alternatives
import SqlTyping.Proofs.Signature.Positions

namespace SqlTyping

/-!
# Choices within choices

A choice is as good as the choice of its leaves, and the order of its alternatives matters only for
what is written in messages:

* `Arity.cover` — the least interval that covers a list of intervals (`Arity.cover_within_iff`);
* `Signature.hasAlternatives` — no choice within the signature is empty;
* `Signature.join_leavesOf` — what is put together from alternatives piece by piece is put together from
  the leaves: the arity, the text, and what is said of each position;
* `CallView.Steady.anyStrict_leavesOf` — they give the same answer to a call as written;
* `Signature.oneOf_laws` — choices are associative, and commutative up to messages.
-/

/-! ### Intervals that cover others -/

namespace Arity

/-- Every count in the first interval lies in the second one. -/
def Within (a b : Arity) : Prop := ∀ count, a.admits count = true → b.admits count = true

/-- The interval does not end before it begins. -/
def Proper (a : Arity) : Prop := ∀ most, a.most = some most → a.least ≤ most

/-- The ends of an interval say what it lies in. -/
theorem Proper.within_iff {a b : Arity} (h : a.Proper) :
    a.Within b ↔ b.least ≤ a.least ∧ ∀ most, b.most = some most →
      ∃ k, a.most = some k ∧ k ≤ most := by
  constructor
  · intro hwithin
    have hleast := admits_iff.mp (hwithin a.least (admits_iff.mpr ⟨Nat.le_refl _, h⟩))
    refine ⟨hleast.1, fun most hmost => ?_⟩
    cases ha : a.most with
    | some k =>
      have hk := admits_iff.mp (hwithin k (admits_iff.mpr ⟨h k ha, fun m hm => by simp_all⟩))
      exact ⟨k, rfl, hk.2 most hmost⟩
    -- An interval without an end reaches beyond `most`.
    | none =>
      have hbeyond : a.admits (a.least + most + 1) = true :=
        admits_iff.mpr ⟨by omega, fun m hm => by simp [ha] at hm⟩
      have := (admits_iff.mp (hwithin _ hbeyond)).2 most hmost
      omega
  · rintro ⟨hleast, hmost⟩ count hcount
    obtain ⟨hge, hle⟩ := admits_iff.mp hcount
    refine admits_iff.mpr ⟨Nat.le_trans hleast hge, fun most hm => ?_⟩
    obtain ⟨k, hk, hkm⟩ := hmost most hm
    exact Nat.le_trans (hle k hk) hkm

theorem Proper.union {a : Arity} (ha : a.Proper) (b : Arity) : (a.union b).Proper := by
  intro most hmost
  obtain ⟨⟨k, hk, hkm⟩, -⟩ := most_of_union hmost
  exact Nat.le_trans (Nat.min_le_left _ _) (Nat.le_trans (ha k hk) hkm)

/-- The union lies in all intervals that both lie in. -/
theorem union_within_iff {a b c : Arity} (ha : a.Proper) (hb : b.Proper) :
    (a.union b).Within c ↔ a.Within c ∧ b.Within c := by
  constructor
  · exact fun h => ⟨fun count hc => h count (admits_union_left hc),
      fun count hc => h count (admits_union_right hc)⟩
  · rw [ha.within_iff, hb.within_iff, (ha.union b).within_iff]
    rintro ⟨⟨hal, ham⟩, hbl, hbm⟩
    refine ⟨Nat.le_min.mpr ⟨hal, hbl⟩, fun most hmost => ?_⟩
    obtain ⟨x, hx, hxm⟩ := ham most hmost
    obtain ⟨y, hy, hym⟩ := hbm most hmost
    refine ⟨max x y, ?_, Nat.max_le.mpr ⟨hxm, hym⟩⟩
    simp [union, hx, hy]

/-- The interval that covers a list of intervals; no interval is covered by that of no operands. -/
def cover : List Arity → Arity
  | [] => .exactly 0
  | a :: rest => rest.foldl union a

/-- Intervals are covered one after the other. -/
theorem cover_cons (a : Arity) {rest : List Arity} (h : rest ≠ []) :
    cover (a :: rest) = a.union (cover rest) := by
  have : Std.Associative union := ⟨union_assoc⟩
  cases rest with
  | nil => exact absurd rfl h
  | cons b rest => exact List.foldl_assoc

theorem cover_append {l l' : List Arity} (h : l ≠ []) (h' : l' ≠ []) :
    cover (l ++ l') = (cover l).union (cover l') := by
  induction l with
  | nil => exact absurd rfl h
  | cons a rest ih =>
    by_cases hrest : rest = []
    · subst hrest
      exact cover_cons a h'
    · rw [List.cons_append, cover_cons a (by simp [hrest]), ih hrest, cover_cons a hrest, union_assoc]

/-- The order of the intervals does not matter. -/
theorem cover_perm {l l' : List Arity} (h : l.Perm l') : cover l = cover l' := by
  induction h with
  | nil => rfl
  | @cons a l l' hperm ih =>
    by_cases hl : l = []
    · subst hl
      rw [hperm.nil_eq]
    · have hl' : l' ≠ [] := fun he => hl (he ▸ hperm).eq_nil
      rw [cover_cons a hl, cover_cons a hl', ih]
  | swap a b l =>
    show l.foldl union (b.union a) = l.foldl union (a.union b)
    rw [union_comm]
  | trans _ _ ih ih' => exact ih.trans ih'

/-- Whether the interval ends behind the position, if it ends. -/
def reaches (a : Arity) (index : Nat) : Bool :=
  match a.most with
  | some most => index < most
  | none => true

theorem reaches_union (a b : Arity) (index : Nat) :
    (a.union b).reaches index = (a.reaches index || b.reaches index) := by
  obtain ⟨al, am⟩ := a
  obtain ⟨bl, bm⟩ := b
  cases am with
  | none => simp [union, reaches]
  | some x =>
    cases bm with
    | none => simp [union, reaches]
    | some y =>
      simp only [union, reaches, ← Bool.decide_or, decide_eq_decide]
      omega

/-- The interval that covers a list of intervals ends with the last of them. -/
theorem reaches_cover {l : List Arity} (hl : l ≠ []) (index : Nat) :
    (cover l).reaches index = l.any (·.reaches index) := by
  induction l with
  | nil => exact absurd rfl hl
  | cons a rest ih =>
    by_cases hrest : rest = []
    · subst hrest
      simp [cover]
    · rw [cover_cons a hrest, reaches_union, ih hrest, List.any_cons]

/-- Of the intervals that cover a list of intervals it is the least one. -/
theorem cover_within_iff {l : List Arity} (hl : l ≠ []) (hproper : ∀ a ∈ l, a.Proper) (b : Arity) :
    (cover l).Proper ∧ ((cover l).Within b ↔ ∀ a ∈ l, a.Within b) := by
  induction l with
  | nil => exact absurd rfl hl
  | cons a rest ih =>
    obtain ⟨ha, hproper⟩ := List.forall_mem_cons.mp hproper
    by_cases hrest : rest = []
    · subst hrest
      exact ⟨ha, by simp [cover]⟩
    · obtain ⟨hcover, hwithin⟩ := ih hrest hproper
      rw [cover_cons a hrest, union_within_iff ha hcover, hwithin]
      exact ⟨ha.union _, by simp⟩

end Arity

namespace Signature

/-! ### What the alternatives say of a choice -/

theorem arities_eq_map (alternatives : List Signature) : arities alternatives = alternatives.map arity := by
  induction alternatives with
  | nil => rfl
  | cons signature rest ih => rw [arities, ih, List.map_cons]

theorem arity_oneOf (alternatives : List Signature) :
    (oneOf alternatives).arity = .cover (alternatives.map arity) := by
  rw [← arities_eq_map]
  unfold arity Arity.cover
  cases arities alternatives <;> rfl

theorem allowedForms_eq_map (operator : String) (alternatives : List Signature) :
    allowedForms operator alternatives = alternatives.map (allowed operator) := by
  induction alternatives with
  | nil => rfl
  | cons signature rest ih => rw [allowedForms, ih, List.map_cons]

theorem anyMayOmit_eq_any (index : Nat) (alternatives : List Signature) :
    anyMayOmit index alternatives = alternatives.any (mayOmit index) := by
  induction alternatives with
  | nil => rfl
  | cons signature rest ih => rw [anyMayOmit, ih, List.any_cons]

theorem familiesAt_eq_map (index : Nat) (alternatives : List Signature) :
    familiesAt index alternatives =
      (alternatives.filter (hasPosition index)).map (familyAt? index) := by
  induction alternatives with
  | nil => rfl
  | cons signature rest ih =>
    unfold familiesAt
    by_cases h : signature.hasPosition index = true
    · rw [if_pos h, List.filter_cons_of_pos h, List.map_cons, ih]
    · rw [if_neg h, List.filter_cons_of_neg h, ih]

/-- A family is common to all entries when there are entries and each of them is that family. -/
theorem common?_eq_some_iff {entries : List (Option Family)} {f : Family} :
    common? entries = some f ↔ entries ≠ [] ∧ ∀ entry ∈ entries, entry = some f := by
  constructor
  · intro h
    refine ⟨?_, common?_eq_some h⟩
    rintro rfl
    cases h
  · rintro ⟨hne, hall⟩
    cases entries with
    | nil => exact absurd rfl hne
    | cons entry rest =>
      obtain ⟨rfl, hrest⟩ := List.forall_mem_cons.mp hall
      simpa [common?] using hrest

/-- The order of the entries does not matter. -/
theorem common?_perm {entries others : List (Option Family)} (h : entries.Perm others) :
    common? entries = common? others := by
  ext f
  rw [common?_eq_some_iff, common?_eq_some_iff, ← List.length_pos_iff, ← List.length_pos_iff,
    h.length_eq]
  simp only [h.mem_iff]

/-- Entries of two kinds have in common what both kinds have in common. -/
theorem common?_append {entries later : List (Option Family)} (h : entries ≠ []) (h' : later ≠ []) :
    common? (entries ++ later) = if common? entries = common? later then common? entries else none := by
  have hboth : ∀ f, common? (entries ++ later) = some f ↔
      common? entries = some f ∧ common? later = some f := by
    intro f
    simp only [common?_eq_some_iff, List.forall_mem_append]
    simp [h, h']
  ext f
  rw [hboth]
  split
  · rename_i heq
    rw [← heq, and_self]
  · rename_i hne
    refine ⟨fun hsome => absurd (hsome.1.trans hsome.2.symm) hne, fun hnone => by cases hnone⟩

/-- The arity of a signature is an interval. -/
theorem proper_arity : ∀ signature : Signature, signature.arity.Proper
  | families positions omittable => by
    intro most hmost
    cases hmost
    exact requiredCount_le omittable positions.length
  | openEnded least answer => fun most hmost => by cases hmost
  | oneOf [] => fun most hmost => by
    cases hmost
    exact Nat.le_refl 0
  | oneOf (signature :: rest) => by
    rw [arity_oneOf]
    refine (Arity.cover_within_iff (by simp) (fun a ha => ?_) (.exactly 0)).1
    obtain ⟨s, hs, rfl⟩ := List.mem_map.mp ha
    exact proper_arity s

/-! ### The leaves of a choice -/

mutual

/-- Whether every choice in the signature has an alternative. -/
def hasAlternatives : Signature → Bool
  | oneOf [] => false
  | oneOf (signature :: rest) => signature.hasAlternatives && allHaveAlternatives rest
  | _ => true

/-- Whether every choice in each of the signatures has an alternative. -/
def allHaveAlternatives : List Signature → Bool
  | [] => true
  | signature :: rest => signature.hasAlternatives && allHaveAlternatives rest

end

theorem allHaveAlternatives_of_oneOf {alternatives : List Signature}
    (h : (oneOf alternatives).hasAlternatives = true) :
    alternatives ≠ [] ∧ allHaveAlternatives alternatives = true := by
  cases alternatives with
  | nil => simp [hasAlternatives] at h
  | cons signature rest => exact ⟨by simp, by simpa [hasAlternatives, allHaveAlternatives] using h⟩

theorem allHaveAlternatives_cons {signature : Signature} {rest : List Signature}
    (h : allHaveAlternatives (signature :: rest) = true) :
    signature.hasAlternatives = true ∧ allHaveAlternatives rest = true := by
  simpa [allHaveAlternatives] using h

mutual

theorem leaves_ne_nil : ∀ {signature : Signature}, signature.hasAlternatives = true →
    signature.leaves ≠ []
  | families _ _, _ => by simp [leaves]
  | openEnded _ _, _ => by simp [leaves]
  | oneOf _, h =>
    leavesOf_ne_nil (allHaveAlternatives_of_oneOf h).2 (allHaveAlternatives_of_oneOf h).1

theorem leavesOf_ne_nil : ∀ {alternatives : List Signature},
    allHaveAlternatives alternatives = true → alternatives ≠ [] → leavesOf alternatives ≠ []
  | [], _, hne => absurd rfl hne
  | signature :: rest, h, _ => by
    simp [leavesOf, leaves_ne_nil (allHaveAlternatives_cons h).1]

end

section

variable {α : Type} (value : Signature → α) (join : List Signature → α) (op : α → α → α)

mutual

theorem join_leaves (hone : ∀ signature, join [signature] = value signature)
    (hchoice : ∀ alternatives, value (oneOf alternatives) = join alternatives)
    (happend : ∀ l l', l ≠ [] → l' ≠ [] → join (l ++ l') = op (join l) (join l')) :
    ∀ {signature : Signature}, signature.hasAlternatives = true →
      join signature.leaves = value signature
  | families _ _, _ => hone _
  | openEnded _ _, _ => hone _
  | oneOf alternatives, h => by
    obtain ⟨hne, hall⟩ := allHaveAlternatives_of_oneOf h
    rw [hchoice]
    exact join_leavesOf hone hchoice happend hall hne

/-- What is put together from the alternatives of a choice piece by piece, and from those of a choice
    within the choice likewise, is the same when it is put together from the leaves. -/
theorem join_leavesOf (hone : ∀ signature, join [signature] = value signature)
    (hchoice : ∀ alternatives, value (oneOf alternatives) = join alternatives)
    (happend : ∀ l l', l ≠ [] → l' ≠ [] → join (l ++ l') = op (join l) (join l')) :
    ∀ {alternatives : List Signature}, allHaveAlternatives alternatives = true →
      alternatives ≠ [] → join (leavesOf alternatives) = join alternatives
  | [], _, hne => absurd rfl hne
  | signature :: rest, h, _ => by
    obtain ⟨hfirst, hrest⟩ := allHaveAlternatives_cons h
    have hleaves := join_leaves hone hchoice happend hfirst
    cases rest with
    | nil => rw [leavesOf, leavesOf, List.append_nil, hleaves, hone]
    | cons second later =>
      have hne : second :: later ≠ [] := by simp
      have hlater := join_leavesOf hone hchoice happend hrest hne
      rw [leavesOf, happend _ _ (leaves_ne_nil hfirst) (leavesOf_ne_nil hrest hne), hleaves, hlater,
        ← hone, ← happend _ _ (by simp) hne, List.singleton_append]

end

end

variable {alternatives : List Signature}

/-- The leaves admit the same numbers of operands. -/
theorem arity_leavesOf (h : allHaveAlternatives alternatives = true) (hne : alternatives ≠ []) :
    (oneOf (leavesOf alternatives)).arity = (oneOf alternatives).arity := by
  refine join_leavesOf arity (fun l => (oneOf l).arity) Arity.union (fun signature => ?_)
    (fun _ => rfl) (fun l l' hl hl' => ?_) h hne
  · simp [arity_oneOf, Arity.cover]
  · simp only [arity_oneOf, List.map_append]
    exact Arity.cover_append (by simpa using hl) (by simpa using hl')

/-- The leaves are listed with the same text. -/
theorem allowed_leavesOf (operator : String) (h : allHaveAlternatives alternatives = true)
    (hne : alternatives ≠ []) :
    (oneOf (leavesOf alternatives)).allowed operator = (oneOf alternatives).allowed operator := by
  refine join_leavesOf (allowed operator) (fun l => (oneOf l).allowed operator)
    (fun text text' => text ++ "\n" ++ text') (fun signature => ?_) (fun _ => rfl)
    (fun l l' hl hl' => ?_) h hne
  · simp [allowed, allowedForms]
  · simp only [allowed, allowedForms_eq_map, List.map_append]
    exact String.intercalate_append_of_ne_nil (by simpa using hl) (by simpa using hl')

/-- The leaves may be omitted at the same positions. -/
theorem mayOmit_leavesOf (index : Nat) (h : allHaveAlternatives alternatives = true)
    (hne : alternatives ≠ []) :
    (oneOf (leavesOf alternatives)).mayOmit index = (oneOf alternatives).mayOmit index := by
  refine join_leavesOf (mayOmit index) (fun l => (oneOf l).mayOmit index) or (fun signature => ?_)
    (fun _ => rfl) (fun l l' _ _ => ?_) h hne
  · simp [mayOmit, anyMayOmit]
  · simp [mayOmit, anyMayOmit_eq_any]

/-- A choice has the positions that its alternatives have. -/
theorem hasPosition_oneOf (index : Nat) (hne : alternatives ≠ []) :
    (oneOf alternatives).hasPosition index = alternatives.any (hasPosition index) := by
  have hreaches : ∀ signature : Signature,
      signature.hasPosition index = signature.arity.reaches index := fun _ => rfl
  simp only [hreaches, arity_oneOf]
  rw [Arity.reaches_cover (by simpa using hne), List.any_map]
  rfl

/-- A position that a signature does not have has no family. -/
theorem familyAt?_of_not_hasPosition {signature : Signature} {index : Nat}
    (h : signature.hasPosition index = false) : signature.familyAt? index = none := by
  cases signature with
  | families positions omittable =>
    simp only [hasPosition, arity, Arity.between, decide_eq_false_iff_not, Nat.not_lt] at h
    exact List.getElem?_eq_none h
  | openEnded least answer => rfl
  | oneOf alternatives =>
    by_cases hne : alternatives = []
    · subst hne
      rfl
    rw [hasPosition_oneOf index hne, List.any_eq_false] at h
    rw [familyAt?, familiesAt_eq_map, List.filter_eq_nil_iff.mpr h]
    rfl

/-- Some alternative has an entry for the position exactly when the choice has the position. -/
theorem familiesAt_eq_nil_iff (index : Nat) (hne : alternatives ≠ []) :
    familiesAt index alternatives = [] ↔ (oneOf alternatives).hasPosition index = false := by
  rw [familiesAt_eq_map, hasPosition_oneOf index hne]
  simp [List.filter_eq_nil_iff]

/-- A choice with one alternative asks for what the alternative asks for. -/
theorem familyAt?_singleton (index : Nat) (signature : Signature) :
    (oneOf [signature]).familyAt? index = signature.familyAt? index := by
  cases hp : signature.hasPosition index with
  | false => simp [familyAt?_of_not_hasPosition hp, familyAt?, familiesAt_eq_map, hp, common?]
  | true =>
    simp only [familyAt?, familiesAt_eq_map, hp, List.filter_cons_of_pos, List.filter_nil,
      List.map_cons, List.map_nil]
    cases signature.familyAt? index with
    | none => rfl
    | some f => simp [common?]

/-- Whether there is a position and what is asked for there, taken together: those that do not have
    the position have no say. -/
def agreement (x y : Bool × Option Family) : Bool × Option Family :=
  (x.1 || y.1, if x.1 then if y.1 then if x.2 = y.2 then x.2 else none else x.2 else y.2)

/-- Two lists of alternatives ask for what both agree on. -/
theorem familyAt?_append (index : Nat) {later : List Signature} (hne : alternatives ≠ [])
    (hne' : later ≠ []) :
    ((oneOf (alternatives ++ later)).hasPosition index,
      (oneOf (alternatives ++ later)).familyAt? index) =
    agreement ((oneOf alternatives).hasPosition index, (oneOf alternatives).familyAt? index)
      ((oneOf later).hasPosition index, (oneOf later).familyAt? index) := by
  have hsplit : familiesAt index (alternatives ++ later) =
      familiesAt index alternatives ++ familiesAt index later := by
    simp [familiesAt_eq_map]
  have hposition : (oneOf (alternatives ++ later)).hasPosition index =
      ((oneOf alternatives).hasPosition index || (oneOf later).hasPosition index) := by
    rw [hasPosition_oneOf index hne, hasPosition_oneOf index hne', ← List.any_append,
      hasPosition_oneOf index (List.append_ne_nil_of_left_ne_nil hne later)]
  refine Prod.ext hposition ?_
  simp only [agreement, familyAt?, hsplit]
  cases hp : (oneOf alternatives).hasPosition index with
  | false => simp [(familiesAt_eq_nil_iff index hne).mpr hp]
  | true =>
    have hentries := mt (familiesAt_eq_nil_iff index hne).mp (by simp [hp])
    cases hp' : (oneOf later).hasPosition index with
    | false => simp [(familiesAt_eq_nil_iff index hne').mpr hp']
    | true =>
      have hentries' := mt (familiesAt_eq_nil_iff index hne').mp (by simp [hp'])
      exact common?_append hentries hentries'

/-- At each position the leaves ask for the same family. -/
theorem familyAt?_leavesOf (index : Nat) (h : allHaveAlternatives alternatives = true)
    (hne : alternatives ≠ []) :
    (oneOf (leavesOf alternatives)).familyAt? index = (oneOf alternatives).familyAt? index := by
  suffices hboth : ((oneOf (leavesOf alternatives)).hasPosition index,
      (oneOf (leavesOf alternatives)).familyAt? index) =
        ((oneOf alternatives).hasPosition index, (oneOf alternatives).familyAt? index) from
    (Prod.ext_iff.mp hboth).2
  refine join_leavesOf (fun signature => (signature.hasPosition index, signature.familyAt? index))
    (fun l => ((oneOf l).hasPosition index, (oneOf l).familyAt? index)) agreement
    (fun signature => ?_) (fun _ => rfl) (fun _ _ hl hl' => familyAt?_append index hl hl') h hne
  exact Prod.ext (by simp [hasPosition_oneOf]) (familyAt?_singleton index signature)

mutual

theorem ne_oneOf_of_mem_leaves {leaf : Signature} (inner : List Signature) :
    ∀ {signature : Signature}, leaf ∈ signature.leaves → leaf ≠ oneOf inner
  | families _ _, h => by
    obtain rfl := List.mem_singleton.mp h
    exact Signature.noConfusion
  | openEnded _ _, h => by
    obtain rfl := List.mem_singleton.mp h
    exact Signature.noConfusion
  | oneOf _, h => ne_oneOf_of_mem_leavesOf inner h

/-- No leaf is a choice. -/
theorem ne_oneOf_of_mem_leavesOf {leaf : Signature} (inner : List Signature) :
    ∀ {alternatives : List Signature}, leaf ∈ leavesOf alternatives → leaf ≠ oneOf inner
  | [], h => by cases h
  | _ :: _, h => (List.mem_append.mp h).elim (ne_oneOf_of_mem_leaves inner)
      (ne_oneOf_of_mem_leavesOf inner)

end

end Signature

namespace CallView.Steady

open Checking

variable {σ : Type} {c : CallView σ} {s : σ}

/-- Tried as written, the leaves of a choice give the answer of its alternatives. -/
theorem anyStrict_leavesOf (h : c.Steady s) {alternatives : List Signature}
    (halternatives : Signature.allHaveAlternatives alternatives = true) (hne : alternatives ≠ []) :
    (Signature.anyStrict c (Signature.leavesOf alternatives) s).1 =
      (Signature.anyStrict c alternatives s).1 := by
  refine Signature.join_leavesOf (fun signature => ((signature.checkStrict c).tolerant s).1)
    (fun l => (Signature.anyStrict c l s).1) firstAnswer (fun signature => ?_) (fun l => ?_)
    (fun l l' _ _ => h.anyStrict_append l l') halternatives hne
  · rw [Signature.anyStrict_singleton]
  · exact Signature.tolerant_checkStrict_oneOf c l s

/-- Two choices with the same text answer the same when their alternatives do. -/
theorem checkStrict_oneOf_congr (h : c.Steady s) {alternatives others : List Signature}
    (htext : (Signature.oneOf others).allowed c.operator =
      (Signature.oneOf alternatives).allowed c.operator)
    (hanswer : (Signature.anyStrict c others s).1 = (Signature.anyStrict c alternatives s).1) :
    ((Signature.oneOf others).checkStrict c s).1 =
      ((Signature.oneOf alternatives).checkStrict c s).1 := by
  obtain ⟨r, hr⟩ := h.uniform_anyStrict alternatives
  obtain ⟨r', hr'⟩ := h.uniform_anyStrict others
  rw [(hr s .refl).1, (hr' s .refl).1] at hanswer
  subst hanswer
  unfold Signature.checkStrict
  rw [htext]
  obtain ⟨text, hmismatch⟩ : c.Uniform s
      (c.mismatch ((Signature.oneOf alternatives).allowed c.operator) : Checking σ Bool) :=
    h.uniform_mismatch _
  cases r' with
  | error e => rw [((hr.bind_error _) s .refl).1, ((hr'.bind_error _) s .refl).1]
  | ok found =>
    have hrest : c.Replies s (if found then pure true
        else c.mismatch ((Signature.oneOf alternatives).allowed c.operator) : Checking σ Bool)
        (if found then .ok true else text) := by
      cases found with
      | true => exact replies_pure true
      | false => exact hmismatch
    rw [((hr.bind hrest) s .refl).1, ((hr'.bind hrest) s .refl).1]

end CallView.Steady

namespace Signature

/-! ### The two laws -/

/-- Two signatures say the same of the number of operands and of each position. -/
structure SaysSame (s t : Signature) : Prop where
  arity : s.arity = t.arity
  mayOmit : ∀ index, s.mayOmit index = t.mayOmit index
  familyAt? : ∀ index, s.familyAt? index = t.familyAt? index

/-- A choice says the same as the choice of its leaves. -/
theorem saysSame_leavesOf {alternatives : List Signature}
    (h : allHaveAlternatives alternatives = true) :
    SaysSame (oneOf (leavesOf alternatives)) (oneOf alternatives) := by
  by_cases hne : alternatives = []
  · subst hne
    exact ⟨rfl, fun _ => rfl, fun _ => rfl⟩
  · exact ⟨arity_leavesOf h hne, fun index => mayOmit_leavesOf index h hne,
      fun index => familyAt?_leavesOf index h hne⟩

/-- The order of the alternatives does not matter for what a choice says. -/
theorem saysSame_of_perm {alternatives reordered : List Signature}
    (h : alternatives.Perm reordered) : SaysSame (oneOf reordered) (oneOf alternatives) where
  arity := by
    rw [arity_oneOf, arity_oneOf]
    exact (Arity.cover_perm (h.map arity)).symm
  mayOmit index := by
    simp only [mayOmit, anyMayOmit_eq_any]
    exact h.any_eq.symm
  familyAt? index := by
    simp only [familyAt?, familiesAt_eq_map]
    exact (common?_perm ((h.filter (hasPosition index)).map (familyAt? index))).symm

/-- The interval of a choice is the least one that covers those of its alternatives. -/
theorem arity_within_iff {alternatives : List Signature} (hne : alternatives ≠ []) (b : Arity) :
    (oneOf alternatives).arity.Within b ↔ ∀ signature ∈ alternatives, signature.arity.Within b := by
  rw [arity_oneOf, (Arity.cover_within_iff (by simpa using hne) (fun a ha => ?_) b).2]
  · simp
  · obtain ⟨signature, -, rfl⟩ := List.mem_map.mp ha
    exact proper_arity signature

/-- **Choices are associative, and commutative up to messages.** A choice in which no inner choice is
    empty is as good as one choice of its leaves from left to right: they admit the same numbers of
    operands, are listed with the same text, say the same of every position, and give the same answer,
    be it a result or a fault, to every call as written. In another order, the alternatives of a choice
    still admit the least interval that covers all of theirs and say the same of every position, and a
    call whose operands have types is accepted as written or not as before. -/
theorem oneOf_laws (alternatives : List Signature) :
    (allHaveAlternatives alternatives = true →
      (∀ inner, oneOf inner ∉ leavesOf alternatives) ∧
      SaysSame (oneOf (leavesOf alternatives)) (oneOf alternatives) ∧
      (∀ operator, (oneOf (leavesOf alternatives)).allowed operator =
        (oneOf alternatives).allowed operator) ∧
      ∀ {σ : Type} (c : CallView σ) (s : σ), c.Steady s →
        ((oneOf (leavesOf alternatives)).checkStrict c s).1 =
          ((oneOf alternatives).checkStrict c s).1) ∧
    ∀ reordered, alternatives.Perm reordered →
      SaysSame (oneOf reordered) (oneOf alternatives) ∧
      (alternatives ≠ [] → ∀ b, (oneOf reordered).arity.Within b ↔
        ∀ signature ∈ alternatives, signature.arity.Within b) ∧
      ∀ {σ : Type} (c : CallView σ) (s : σ), c.Steady s → c.TypesAll s →
        (c.Takes s (oneOf reordered) ↔ c.Takes s (oneOf alternatives)) := by
  have htext : allHaveAlternatives alternatives = true → ∀ operator,
      (oneOf (leavesOf alternatives)).allowed operator = (oneOf alternatives).allowed operator := by
    intro h operator
    by_cases hne : alternatives = []
    · subst hne
      rfl
    · exact allowed_leavesOf operator h hne
  refine ⟨fun h => ⟨fun inner hleaf => ne_oneOf_of_mem_leavesOf inner hleaf rfl,
    saysSame_leavesOf h, htext h, ?_⟩, ?_⟩
  · intro σ c s hsteady
    by_cases hne : alternatives = []
    · subst hne
      rfl
    · exact hsteady.checkStrict_oneOf_congr (htext h c.operator) (hsteady.anyStrict_leavesOf h hne)
  · intro reordered hperm
    have hsame := saysSame_of_perm hperm
    refine ⟨hsame, fun hne b => ?_, fun c s hsteady htypes => ?_⟩
    · rw [hsame.arity]
      exact arity_within_iff hne b
    · rw [hsteady.takes_oneOf_iff htypes, hsteady.takes_oneOf_iff htypes]
      exact ⟨fun ⟨signature, hmem, ht⟩ => ⟨signature, hperm.mem_iff.mpr hmem, ht⟩,
        fun ⟨signature, hmem, ht⟩ => ⟨signature, hperm.mem_iff.mp hmem, ht⟩⟩

/-- A choice of dates and strings within a choice with an open end, asked about one integer. -/
theorem oneOf_laws_nested :
    let alternatives : List Signature := [.oneOf [.required [.character], .required [.date, .ignore]],
      .openEnded 3 false, .required [.integer]]
    let c := DetachedCall.view "F" true .implicitCasts
    let s : DetachedCall := ⟨[.typed (.notNull .integer)], [], []⟩
    allHaveAlternatives alternatives = true ∧ c.Steady s ∧ c.TypesAll s ∧
      (oneOf (leavesOf alternatives)).arity = .atLeast 1 ∧
      ((oneOf (leavesOf alternatives)).checkStrict c s).1 = .ok true ∧
      c.Takes s (oneOf alternatives.reverse) := by
  intro alternatives c s
  have hsteady : c.Steady s := DetachedCall.steady_view _ _ _ s
  have htypes : c.TypesAll s := by
    intro index hi _
    obtain rfl : index = 0 := Nat.lt_one_iff.mp hi
    exact ⟨_, rfl⟩
  obtain ⟨hflat, hreordered⟩ := oneOf_laws alternatives
  obtain ⟨-, hsame, -, hanswer⟩ := hflat (by decide)
  obtain ⟨-, -, htakes⟩ := hreordered alternatives.reverse alternatives.reverse_perm.symm
  refine ⟨by decide, hsteady, htypes, hsame.arity.trans rfl, (hanswer c s hsteady).trans rfl, ?_⟩
  exact (htakes c s hsteady htypes).mpr rfl

-- A choice without alternatives counts as one that takes no operands; its leaves are nothing at all.
example : (oneOf [oneOf [], required [.date, .date]]).arity = .between 0 2 ∧
    (oneOf (leavesOf [oneOf [], required [.date, .date]])).arity = .exactly 2 := by decide

end Signature

end SqlTyping
