import SqlTyping.Signature

namespace SqlTyping

/-!
# Positions of a signature

How the leaves of a signature relate to what is said of the signature as a whole:

* `Signature.length_le_of_leaf` — no leaf is longer than the largest admitted number of operands;
* `Signature.ignore_of_isKeyword` — a position that holds a keyword is looked at by no leaf;
* `Signature.admits_oneOf` — a choice admits what its alternatives admit;
* `Signature.shownCount_of_admits` — a list of families is shown exactly as many operands as it has
  positions.
-/

/-- A union admits no more than a given number of operands only if both intervals do. -/
theorem Arity.most_of_union {a b : Arity} {most : Nat} (h : (a.union b).most = some most) :
    (∃ k, a.most = some k ∧ k ≤ most) ∧ ∃ k, b.most = some k ∧ k ≤ most := by
  obtain ⟨al, am⟩ := a
  obtain ⟨bl, bm⟩ := b
  cases am with
  | none => simp [union] at h
  | some x =>
    cases bm with
    | none => simp [union] at h
    | some y =>
      obtain rfl := Option.some.inj h
      exact ⟨⟨x, rfl, Nat.le_max_left x y⟩, ⟨y, rfl, Nat.le_max_right x y⟩⟩

/-- The same for the union of any number of intervals. -/
theorem Arity.most_of_foldl_union {a : Arity} {rest : List Arity} {most : Nat}
    (h : (rest.foldl union a).most = some most) :
    ∀ b ∈ a :: rest, ∃ k, b.most = some k ∧ k ≤ most := by
  induction rest generalizing a with
  | nil =>
    intro b hb
    obtain rfl := List.mem_singleton.mp hb
    exact ⟨most, h, Nat.le_refl most⟩
  | cons c rest ih =>
    intro b hb
    have hall := ih h
    -- The first two intervals are covered by their union.
    obtain ⟨k, hk, hle⟩ := hall (a.union c) (by simp)
    obtain ⟨⟨x, hx, hxk⟩, ⟨y, hy, hyk⟩⟩ := most_of_union hk
    simp only [List.mem_cons] at hb
    rcases hb with rfl | rfl | hb
    · exact ⟨x, hx, Nat.le_trans hxk hle⟩
    · exact ⟨y, hy, Nat.le_trans hyk hle⟩
    · exact hall b (by simp [hb])

/-- A union of intervals covers each of them. -/
theorem Arity.admits_foldl_union {a b : Arity} {rest : List Arity} {count : Nat}
    (hb : b ∈ a :: rest) (h : b.admits count = true) :
    (rest.foldl union a).admits count = true := by
  induction rest generalizing a b with
  | nil =>
    obtain rfl := List.mem_singleton.mp hb
    exact h
  | cons c rest ih =>
    simp only [List.mem_cons] at hb
    rcases hb with rfl | rfl | hb
    · exact ih (List.mem_cons_self ..) (admits_union_left h)
    · exact ih (List.mem_cons_self ..) (admits_union_right h)
    · exact ih (List.mem_cons_of_mem _ hb) h

namespace Signature

variable {positions : List Family} {omittable : Nat → Bool} {index : Nat}

/-- An interval of a choice covers the ones of its alternatives. -/
theorem most_of_oneOf {alternatives : List Signature} {most : Nat}
    (h : (oneOf alternatives).arity.most = some most) :
    ∀ a ∈ arities alternatives, ∃ k, a.most = some k ∧ k ≤ most := by
  unfold arity at h
  cases ha : arities alternatives with
  | nil => simp
  | cons a rest =>
    rw [ha] at h
    exact Arity.most_of_foldl_union h

/-- A choice admits the numbers of operands that its alternatives admit. -/
theorem admits_oneOf {alternatives : List Signature} {signature : Signature} {count : Nat}
    (hs : signature ∈ alternatives) (h : signature.arity.admits count = true) :
    (oneOf alternatives).arity.admits count = true := by
  have hmem : ∀ {rest : List Signature}, signature ∈ rest → signature.arity ∈ arities rest := by
    intro rest hr
    induction rest with
    | nil => cases hr
    | cons s rest ih =>
      rcases List.mem_cons.mp hr with rfl | hr
      · exact List.mem_cons_self ..
      · exact List.mem_cons_of_mem _ (ih hr)
  have hs := hmem hs
  unfold arity
  cases ha : arities alternatives with
  | nil => simp [ha] at hs
  | cons a rest =>
    rw [ha] at hs
    exact Arity.admits_foldl_union hs h

mutual

/-- No leaf is longer than the largest admitted number of operands. -/
theorem length_le_of_leaf : ∀ {signature : Signature} {most : Nat},
    signature.arity.most = some most → families positions omittable ∈ signature.leaves →
      positions.length ≤ most
  | families _ _, most, hmost, hleaf => by
    simp only [leaves, List.mem_singleton, families.injEq] at hleaf
    obtain ⟨rfl, -⟩ := hleaf
    simp only [arity, Arity.between, Option.some.injEq] at hmost
    omega
  | oneOf _, _, hmost, hleaf => length_le_of_leaf_of_mem (most_of_oneOf hmost) hleaf
  | openEnded _ _, _, _, hleaf => by simp [leaves] at hleaf

theorem length_le_of_leaf_of_mem : ∀ {alternatives : List Signature} {most : Nat},
    (∀ a ∈ arities alternatives, ∃ k, a.most = some k ∧ k ≤ most) →
      families positions omittable ∈ leavesOf alternatives → positions.length ≤ most
  | [], _, _, hleaf => by simp [leavesOf] at hleaf
  | signature :: rest, most, hmost, hleaf => by
    simp only [arities, List.mem_cons, forall_eq_or_imp] at hmost
    obtain ⟨⟨k, hk, hle⟩, hrest⟩ := hmost
    rcases List.mem_append.mp hleaf with hleaf | hleaf
    · exact Nat.le_trans (length_le_of_leaf hk hleaf) hle
    · exact length_le_of_leaf_of_mem hrest hleaf

end

/-- A leaf that has a position belongs to a signature that has it. -/
theorem hasPosition_of_leaf {signature : Signature} (hi : index < positions.length)
    (hleaf : families positions omittable ∈ signature.leaves) :
    signature.hasPosition index = true := by
  unfold hasPosition
  split
  · rename_i most hmost
    have := length_le_of_leaf hmost hleaf
    simp
    omega
  · rfl

theorem common?_eq_some {entries : List (Option Family)} {f : Family}
    (h : common? entries = some f) : ∀ entry ∈ entries, entry = some f := by
  unfold common? at h
  split at h
  · rename_i g rest
    simp only [Option.ite_none_right_eq_some, Option.some.injEq, List.all_eq_true, beq_iff_eq] at h
    obtain ⟨hrest, rfl⟩ := h
    simpa using hrest
  · cases h

mutual

/-- Where all alternatives ask for one family, every leaf with the position asks for it. -/
theorem getElem?_of_familyAt? {f : Family} : ∀ {signature : Signature},
    signature.familyAt? index = some f → families positions omittable ∈ signature.leaves →
      index < positions.length → positions[index]? = some f
  | families _ _, hat, hleaf, _ => by
    simp only [leaves, List.mem_singleton, families.injEq] at hleaf
    obtain ⟨rfl, -⟩ := hleaf
    exact hat
  | oneOf _, hat, hleaf, hi => getElem?_of_familiesAt (common?_eq_some hat) hleaf hi
  | openEnded _ _, hat, _, _ => by simp [familyAt?] at hat

theorem getElem?_of_familiesAt {f : Family} : ∀ {alternatives : List Signature},
    (∀ entry ∈ familiesAt index alternatives, entry = some f) →
      families positions omittable ∈ leavesOf alternatives → index < positions.length →
        positions[index]? = some f
  | [], _, hleaf, _ => by simp [leavesOf] at hleaf
  | signature :: rest, hat, hleaf, hi => by
    unfold familiesAt at hat
    rcases List.mem_append.mp hleaf with hleaf | hleaf
    · rw [if_pos (hasPosition_of_leaf hi hleaf)] at hat
      exact getElem?_of_familyAt? (hat _ (by simp)) hleaf hi
    · refine getElem?_of_familiesAt (fun entry he => hat entry ?_) hleaf hi
      split
      · exact List.mem_cons_of_mem _ he
      · exact he

end

/-- A position that holds a keyword is looked at by no leaf. -/
theorem ignore_of_isKeyword {signature : Signature} (h : signature.isKeyword index = true)
    (hleaf : families positions omittable ∈ signature.leaves) (hi : index < positions.length) :
    positions[index]? = some .ignore :=
  getElem?_of_familyAt? (by simpa [isKeyword] using h) hleaf hi

/-- A call shows all its operands. -/
theorem le_shownCount (signature : Signature) (count : Nat) :
    count ≤ signature.shownCount count := by
  unfold shownCount
  simp only
  split
  · exact Nat.le_max_left _ _
  · exact Nat.le_refl _

/-- A list of families that admits a call is shown as many operands as it has positions. -/
theorem shownCount_of_admits {count : Nat}
    (h : (families positions omittable).arity.admits count = true) :
    (families positions omittable).shownCount count = positions.length := by
  rw [Arity.admits_iff] at h
  simp only [arity, Arity.between, Option.some.injEq, forall_eq'] at h
  -- The operands that are missing belong to the trailing run of omittable positions.
  have hall : ((List.range' count (positions.length - count)).all fun index =>
      (families positions omittable).mayOmit index) = true := by
    rw [List.all_eq_true]
    intro index hindex
    obtain ⟨hle, hlt⟩ := List.mem_range'_1.mp hindex
    exact omittable_of_requiredCount_le (Nat.le_trans h.1 hle) (by omega)
  have hshown : (families positions omittable).shownCount count = max count positions.length :=
    if_pos hall
  rw [hshown]
  omega

end Signature

end SqlTyping
