import Mathlib.Data.List.Forall2
import Mathlib.Data.List.Perm.Basic
import SqlTyping.Operator.Standard

namespace SqlTyping

/-!
# Registering operators

A table of operators is a map on names in any case, in which the last registration counts:

* `Text.SameName` — names that differ at most in the case of ASCII letters, letter by letter; they
  are the names with one folding (`Text.fold_eq_iff`);
* `OperatorTable.Built` — the tables that can be made;
* `OperatorTable.lookup?_registerAll`, `lookup?_registerAll_of_forall`, `names_registerAll` — what a
  sequence of registrations does to the lookups and to the list of names;
* `OperatorTable.registered_last` — all of it, and that the order of registrations under different
  names does not count.
-/

/-! ### Names in any case -/

namespace Text

/-- The same character, or a letter from A to Z and the one from a to z that stands 32 places behind
    it. -/
def SameLetter (c d : Char) : Prop :=
  c = d ∨ (c.isUpper = true ∧ d.toNat = c.toNat + 32) ∨ (d.isUpper = true ∧ c.toNat = d.toNat + 32)

/-- Names that are as long and have the same letters, place by place. -/
def SameName (a b : String) : Prop := List.Forall₂ SameLetter a.toList b.toList

theorem isUpper_iff (c : Char) : c.isUpper = true ↔ 65 ≤ c.toNat ∧ c.toNat ≤ 90 := by
  show (decide (c.val ≥ 'A'.val ∧ c.val ≤ 'Z'.val)) = true ↔ _
  rw [decide_eq_true_eq]
  simp only [ge_iff_le, UInt32.le_iff_toNat_le]
  rfl

/-- The upper case of a character is another one for the letters from a to z only. -/
theorem toNat_toUpper (c : Char) :
    c.toUpper.toNat = if 97 ≤ c.toNat ∧ c.toNat ≤ 122 then c.toNat - 32 else c.toNat := by
  have hlower : 'a'.val ≤ c.val ∧ c.val ≤ 'z'.val ↔ 97 ≤ c.toNat ∧ c.toNat ≤ 122 := by
    simp only [UInt32.le_iff_toNat_le]
    rfl
  unfold Char.toUpper
  split
  · rename_i h
    rw [if_pos (hlower.mp h)]
    have hsum : (c.val + ('A'.val - 'a'.val)).toNat = (c.toNat + (2 ^ 32 - 32)) % 2 ^ 32 :=
      UInt32.toNat_add c.val ('A'.val - 'a'.val)
    have hbounds := hlower.mp h
    show (c.val + ('A'.val - 'a'.val)).toNat = c.toNat - 32
    rw [hsum]
    omega
  · rename_i h
    rw [if_neg fun hbounds => h (hlower.mpr hbounds)]

theorem toUpper_eq_iff {c d : Char} : c.toUpper = d.toUpper ↔ SameLetter c d := by
  rw [← Char.toNat_inj, toNat_toUpper, toNat_toUpper, SameLetter, ← Char.toNat_inj, isUpper_iff,
    isUpper_iff]
  split <;> split <;> omega

/-- Names have one folding exactly when they differ at most in the case of ASCII letters. -/
theorem fold_eq_iff {a b : String} : fold a = fold b ↔ SameName a b := by
  have hlists : fold a = fold b ↔
      List.Forall₂ (· = ·) (a.toList.map Char.toUpper) (b.toList.map Char.toUpper) := by
    rw [List.forall₂_eq_eq_eq, fold, fold, String.ofList_inj]
  rw [hlists, List.forall₂_map_left_iff, List.forall₂_map_right_iff]
  simp only [toUpper_eq_iff]
  rfl

namespace SameName

variable {a b c : String}

theorem symm (h : SameName a b) : SameName b a := fold_eq_iff.mp (fold_eq_iff.mpr h).symm

theorem trans (h : SameName a b) (h' : SameName b c) : SameName a c :=
  fold_eq_iff.mp ((fold_eq_iff.mpr h).trans (fold_eq_iff.mpr h'))

end SameName

end Text

namespace OperatorTable

open Text

/-- The tables that can be made: operators are registered one after the other. -/
inductive Built : OperatorTable → Prop
  | empty : Built .empty
  | register {t} (h : Built t) (op : Operator) : Built (t.register op)

variable {t : OperatorTable} {op : Operator} {ops ops' : List Operator} {name : String}

theorem Built.registerAll (h : t.Built) (ops : List Operator) : (t.registerAll ops).Built := by
  induction ops generalizing t with
  | nil => exact h
  | cons op ops ih => exact ih (h.register op)

theorem built_standard : standard.Built := Built.empty.registerAll _

/-- No table lists a name twice. -/
theorem Built.nodup_names (h : t.Built) : t.names.Nodup := by
  induction h with
  | empty => exact List.nodup_nil
  | register _ op ih => exact OrderedMap.nodup_keys_put ih _ op

theorem registerAll_append (t : OperatorTable) (ops ops' : List Operator) :
    t.registerAll (ops ++ ops') = (t.registerAll ops).registerAll ops' := List.foldl_append

/-! ### Lookups -/

/-- Operators of other names do not count. -/
theorem lookup?_registerAll_of_forall (t : OperatorTable)
    (h : ∀ op ∈ ops, ¬ SameName op.name name) : (t.registerAll ops).lookup? name = t.lookup? name := by
  induction ops generalizing t with
  | nil => rfl
  | cons op ops ih =>
    obtain ⟨hop, hops⟩ := List.forall_mem_cons.mp h
    have hname : fold name ≠ fold op.name := fun heq => hop (fold_eq_iff.mp heq.symm)
    calc (t.registerAll (op :: ops)).lookup? name = (t.register op).lookup? name := ih _ hops
      _ = t.lookup? name := by rw [lookup?_register, if_neg hname]

/-- The operator that was registered last under a name is found, as it was registered. -/
theorem lookup?_registerAll (t : OperatorTable) (earlier : List Operator) {later : List Operator}
    (hname : SameName op.name name) (hlater : ∀ op' ∈ later, ¬ SameName op'.name name) :
    (t.registerAll (earlier ++ op :: later)).lookup? name = some op := by
  have hself : ((t.registerAll earlier).register op).lookup? name = some op := by
    rw [lookup?_register, if_pos (fold_eq_iff.mpr hname).symm]
  rw [registerAll_append]
  exact (lookup?_registerAll_of_forall _ hlater).trans hself

/-- Among operators of different names every one is found. -/
theorem lookup?_registerAll_of_mem (t : OperatorTable)
    (hdiff : ops.Pairwise fun op op' => ¬ SameName op.name op'.name) (h : op ∈ ops)
    (hname : SameName op.name name) : (t.registerAll ops).lookup? name = some op := by
  obtain ⟨earlier, later, rfl⟩ := List.append_of_mem h
  refine lookup?_registerAll t earlier hname fun op' hop' hsame => ?_
  have hlater := (List.pairwise_cons.mp (List.pairwise_append.mp hdiff).2.1).1
  exact hlater op' hop' (hname.trans hsame.symm)

/-- So the order in which they are registered does not count. -/
theorem lookup?_registerAll_perm (t : OperatorTable) (hperm : ops.Perm ops')
    (hdiff : ops.Pairwise fun op op' => ¬ SameName op.name op'.name) (name : String) :
    (t.registerAll ops).lookup? name = (t.registerAll ops').lookup? name := by
  have hdiff' : ops'.Pairwise fun op op' => ¬ SameName op.name op'.name :=
    hperm.pairwise hdiff fun hdiff hsame => hdiff hsame.symm
  by_cases h : ∃ op ∈ ops, SameName op.name name
  · obtain ⟨op, hop, hname⟩ := h
    rw [lookup?_registerAll_of_mem t hdiff hop hname,
      lookup?_registerAll_of_mem t hdiff' (hperm.mem_iff.mp hop) hname]
  · have hnone : ∀ op ∈ ops, ¬ SameName op.name name := fun op hop hname => h ⟨op, hop, hname⟩
    rw [lookup?_registerAll_of_forall t hnone,
      lookup?_registerAll_of_forall t fun op hop => hnone op (hperm.mem_iff.mpr hop)]

/-! ### The list of names -/

/-- A list without repetitions is kept when repetitions are left out. -/
theorem eraseDups_of_nodup {names : List String} (h : names.Nodup) : names.eraseDups = names := by
  induction names with
  | nil => rfl
  | cons name names ih =>
    obtain ⟨hname, hnames⟩ := List.nodup_cons.mp h
    have hfilter : names.filter (fun other => !other == name) = names :=
      List.filter_eq_self.mpr fun other hother => by
        have : other ≠ name := fun heq => hname (heq ▸ hother)
        simpa using this
    rw [List.eraseDups_cons, hfilter, ih hnames]

theorem names_register (t : OperatorTable) (op : Operator) : (t.register op).names =
    if fold op.name ∈ t.names then t.names else t.names ++ [fold op.name] :=
  OrderedMap.keys_put t.byName (fold op.name) op

/-- The names of a table, then those of the operators, each where it stands first. -/
theorem names_registerAll (h : t.names.Nodup) (ops : List Operator) : (t.registerAll ops).names =
    (t.names ++ ops.map fun op => fold op.name).eraseDups := by
  induction ops generalizing t with
  | nil => rw [List.map_nil, List.append_nil, eraseDups_of_nodup h]; rfl
  | cons op ops ih =>
    have hnodup : (t.register op).names.Nodup := OrderedMap.nodup_keys_put h _ op
    have hstep : (t.registerAll (op :: ops)).names = _ := ih hnodup
    rw [hstep, names_register, List.map_cons]
    by_cases hknown : fold op.name ∈ t.names
    · rw [if_pos hknown, List.eraseDups_append, List.eraseDups_append, List.cons_removeAll]
      simp [hknown]
    · rw [if_neg hknown, List.append_assoc, List.singleton_append]

/-! ### Sequences of registrations -/

/-- Whatever has been registered in whatever table, a name stands for the operator that was registered
    last under it in any case, as it was registered, or for what the table had for it. The list of
    names has the folded names of the table and of the operators, each one once and in order of first
    registration, and there are as many operators. Operators of different names come to the same in
    every order. -/
theorem registered_last (h : t.Built) (ops : List Operator) :
    (∀ name earlier op later, ops = earlier ++ op :: later → SameName op.name name →
      (∀ op' ∈ later, ¬ SameName op'.name name) → (t.registerAll ops).lookup? name = some op) ∧
    (∀ name, (∀ op ∈ ops, ¬ SameName op.name name) →
      (t.registerAll ops).lookup? name = t.lookup? name) ∧
    (t.registerAll ops).names = (t.names ++ ops.map fun op => fold op.name).eraseDups ∧
    (t.registerAll ops).names.Nodup ∧
    (t.registerAll ops).size = (t.registerAll ops).names.length ∧
    ∀ ops', ops.Perm ops' → ops.Pairwise (fun op op' => ¬ SameName op.name op'.name) →
      ∀ name, (t.registerAll ops).lookup? name = (t.registerAll ops').lookup? name := by
  refine ⟨?_, fun name hops => lookup?_registerAll_of_forall t hops,
    names_registerAll h.nodup_names ops, (h.registerAll ops).nodup_names, ?_,
    fun ops' hperm hdiff => lookup?_registerAll_perm t hperm hdiff⟩
  · rintro name earlier op later rfl hname hlater
    exact lookup?_registerAll t earlier hname hlater
  · exact (List.length_map _).symm

/-- An operator that takes the place of a standard one, and two whose names differ in the case of a
    letter beyond ASCII. -/
theorem registered_last_replaced :
    let ops : List Operator := [⟨"é", .boolean, .operand 0⟩, ⟨"Upper", .numeric, .operand 0⟩,
      ⟨"É", .integer, .operand 0⟩]
    (standard.registerAll ops).lookup? "uPPER" = some ⟨"Upper", .numeric, .operand 0⟩ ∧
      (standard.registerAll ops).lookup? "é" = some ⟨"é", .boolean, .operand 0⟩ ∧
      (standard.registerAll ops).lookup? "lower" = some ⟨"LOWER", .character, .operand 0⟩ ∧
      (standard.registerAll ops).names = standard.names ++ ["é", "É"] := by
  intro ops
  obtain ⟨hlast, hother, hnames, -⟩ := registered_last built_standard ops
  have hnone {name : String} {later : List Operator}
      (h : later.all (fun op => fold op.name != fold name) = true) :
      ∀ op ∈ later, ¬ SameName op.name name := fun op hop hsame => by
    have := List.all_eq_true.mp h op hop
    simp [fold_eq_iff.mpr hsame] at this
  refine ⟨hlast "uPPER" [⟨"é", .boolean, .operand 0⟩] _ [⟨"É", .integer, .operand 0⟩] rfl
      (fold_eq_iff.mp (by decide)) (hnone (by decide)),
    hlast "é" [] _ _ rfl (fold_eq_iff.mp rfl) (hnone (by decide)),
    (hother "lower" (hnone (by decide))).trans rfl, ?_⟩
  rw [hnames]
  decide +kernel

end OperatorTable

end SqlTyping
