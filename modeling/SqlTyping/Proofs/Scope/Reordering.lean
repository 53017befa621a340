import Mathlib.Data.List.Find
import SqlTyping.Proofs.Scope.Agreement
import SqlTyping.Proofs.Session.Comparing

namespace SqlTyping

/-!
# Bindings in another order

In which order a query block binds its names matters only where one name is led by two of them. The
same scopes with the bindings of one block in another order answer every lookup alike:

* `Binding.Distinct` — no name is led by two bindings of a list;
* `ScopeTree.withBindings` — the scopes with other bindings for one of them;
* `ScopeTree.Reorders` — they have the bindings of one block in another order;
* `ScopeTree.Reorders.requireTable`, `ScopeTree.Reorders.lookupColumn` — what names stand for;
* `ScopeTree.Reorders.newScope`, `ScopeTree.Reorders.addBinding` — this stays when other scopes change.
-/

/-! ### Names of bindings -/

/-- No name is led by two of the bindings. -/
def Binding.Distinct (m : NameMatching) (bindings : List Binding) : Prop :=
  ∀ names, ∀ b ∈ bindings, ∀ c ∈ bindings, m.leads b.names names = true →
    m.leads c.names names = true → b = c

/-- Of two parts that match a third one each matches the other. -/
theorem NameMatching.same_of_same (caseSensitive : Bool) {x y part : String}
    (hx : (NameMatching.ofCaseSensitive caseSensitive).same x part = true)
    (hy : (NameMatching.ofCaseSensitive caseSensitive).same y part = true) :
    (NameMatching.ofCaseSensitive caseSensitive).same x y = true := by
  cases caseSensitive with
  | true => exact beq_iff_eq.mpr ((eq_of_beq hx).trans (eq_of_beq hy).symm)
  | false =>
    have hx := Text.sameIgnoringCase_iff.mp hx
    exact Text.sameIgnoringCase_iff.mpr (hx.trans (Text.sameIgnoringCase_iff.mp hy).symm)

/-- One-part names that lead the same name match. -/
theorem NameMatching.same_of_leads (caseSensitive : Bool) {x y : String} {names : List String}
    (hx : (NameMatching.ofCaseSensitive caseSensitive).leads [x] names = true)
    (hy : (NameMatching.ofCaseSensitive caseSensitive).leads [y] names = true) :
    (NameMatching.ofCaseSensitive caseSensitive).same x y = true := by
  cases names with
  | nil => cases hx
  | cons part rest =>
    simp only [leads, Bool.and_true] at hx hy
    exact same_of_same caseSensitive hx hy

namespace ScopeTree

/-! ### Scopes -/

/-- The scopes with the given bindings for one of them. -/
def withBindings (t : ScopeTree) (id : ScopeId) (bindings : List Binding) : ScopeTree :=
  ⟨t.scopes.modify id.index fun s => { s with bindings }⟩

@[simp] theorem size_withBindings (t : ScopeTree) (id : ScopeId) (bindings : List Binding) :
    (t.withBindings id bindings).size = t.size := by
  simp [withBindings, size]

/-- Other scopes stay as they are. -/
theorem get?_withBindings (t : ScopeTree) (id : ScopeId) (bindings : List Binding) (other : ScopeId) :
    (t.withBindings id bindings).get? other =
      if other = id then (t.get? id).map fun s => { s with bindings } else t.get? other := by
  obtain ⟨i⟩ := id
  obtain ⟨j⟩ := other
  simp only [withBindings, get?, Array.getElem?_modify, ScopeId.mk.injEq]
  by_cases hij : i = j
  · subst hij
    simp
  · simp [hij, Ne.symm hij]

/-- The scopes `u` are those of `t`, but for the order in which the query block `block` binds its names;
    no name is led by two of them. -/
structure Reorders (m : NameMatching) (block : ScopeId) (t u : ScopeTree) : Prop where
  size : u.size = t.size
  other : ∀ id, id ≠ block → u.get? id = t.get? id
  block : ∃ scope bindings, t.get? block = some scope ∧ u.get? block = some { scope with bindings } ∧
    scope.role = .block ∧ scope.bindings.Perm bindings ∧ Binding.Distinct m scope.bindings

namespace Reorders

variable {m : NameMatching} {block id : ScopeId} {t u : ScopeTree} (h : t.Reorders m block u)

include h

/-- A scope differs in its bindings at most. -/
theorem exists_get? {scope : Scope} (hs : t.get? id = some scope) :
    ∃ bindings, u.get? id = some { scope with bindings } := by
  by_cases hid : id = block
  · obtain ⟨found, bindings, hfound, hu, -⟩ := h.block
    obtain rfl := hid
    obtain rfl := Option.some.inj (hs.symm.trans hfound)
    exact ⟨bindings, hu⟩
  · exact ⟨scope.bindings, (h.other id hid).trans hs⟩

theorem get?_of_none (hs : t.get? id = none) : u.get? id = none := by
  have hne : id ≠ block := by
    rintro rfl
    obtain ⟨scope, -, hfound, -⟩ := h.block
    rw [hs] at hfound
    cases hfound
  exact (h.other id hne).trans hs

/-- The block is there. -/
theorem ne_nextId : t.nextId ≠ block := by
  obtain ⟨scope, -, hfound, -⟩ := h.block
  exact (ScopeTree.ne_nextId hfound).symm

/-- The scopes around a scope are the same. -/
theorem parent_eq (id : ScopeId) : (u.get? id).bind (·.parent) = (t.get? id).bind (·.parent) := by
  cases hs : t.get? id with
  | none => rw [h.get?_of_none hs]
  | some scope =>
    obtain ⟨bindings, hu⟩ := h.exists_get? hs
    rw [hu]
    rfl

theorem depth_eq (id : ScopeId) : (u.get? id).map (·.depth) = (t.get? id).map (·.depth) := by
  cases hs : t.get? id with
  | none => rw [h.get?_of_none hs]
  | some scope =>
    obtain ⟨bindings, hu⟩ := h.exists_get? hs
    rw [hu]
    rfl

theorem chainFrom_eq (steps : Nat) (id : ScopeId) : u.chainFrom steps id = t.chainFrom steps id := by
  induction steps generalizing id with
  | zero => rfl
  | succ steps ih =>
    unfold chainFrom
    rw [h.parent_eq id]
    cases (t.get? id).bind (·.parent) with
    | none => rfl
    | some parent => exact congrArg _ (ih parent)

theorem chain_eq (id : ScopeId) : u.chain id = t.chain id := by
  unfold chain
  rw [h.depth_eq id, h.chainFrom_eq]

theorem nested (hn : t.Nested) : u.Nested := by
  intro id scope parent hs hparent
  cases hold : t.get? id with
  | none =>
    rw [h.get?_of_none hold] at hs
    cases hs
  | some found =>
    obtain ⟨bindings, hu⟩ := h.exists_get? hold
    obtain rfl := Option.some.inj (hs.symm.trans hu)
    obtain ⟨around, haround, hdepth⟩ := hn id found parent hold hparent
    obtain ⟨bindings', haround'⟩ := h.exists_get? haround
    exact ⟨_, haround', hdepth⟩

/-! ### Lookups -/

/-- When the block answers alike, so do chains of scopes. -/
theorem firstAlong {α : Type} {Q : α → α → Prop} (hrefl : ∀ a, Q a a)
    {ask : ScopeId → Scope → Except Fault (Option α)}
    (hblock : ∀ scope bindings, scope.role = .block → scope.bindings.Perm bindings →
      Binding.Distinct m scope.bindings →
        AnswersAlike (Option.Rel Q) (ask block scope) (ask block { scope with bindings }))
    (ids : List ScopeId) :
    AnswersAlike (Option.Rel Q) (t.firstAlong ask ids) (u.firstAlong ask ids) := by
  have hsame : ∀ r : Except Fault (Option α), AnswersAlike (Option.Rel Q) r r := by
    rintro (e | - | a)
    · exact .error e
    · exact .ok .none
    · exact .ok (.some (hrefl a))
  induction ids with
  | nil => exact hsame _
  | cons id rest ih =>
    unfold ScopeTree.firstAlong
    cases hs : t.get? id with
    | none =>
      rw [h.get?_of_none hs]
      exact .error _
    | some scope =>
      obtain ⟨bindings, hu, hone⟩ : ∃ bindings, u.get? id = some { scope with bindings } ∧
          AnswersAlike (Option.Rel Q) (ask id scope) (ask id { scope with bindings }) := by
        by_cases hid : id = block
        · obtain ⟨found, bindings, hfound, hu, hrole, hperm, hdistinct⟩ := h.block
          obtain rfl := hid
          obtain rfl := Option.some.inj (hs.symm.trans hfound)
          exact ⟨bindings, hu, hblock scope bindings hrole hperm hdistinct⟩
        · exact ⟨scope.bindings, (h.other id hid).trans hs, hsame _⟩
      rw [hu]
      simp only
      generalize ask id scope = r, ask id { scope with bindings } = r' at hone
      cases hone with
      | ok hab =>
        cases hab with
        | none => exact ih
        | some hab => exact .ok (.some hab)
      | error e => exact .error e

/-- A name stands for the same table, in the same words. -/
theorem lookupTable (scope : ScopeId) (names : List String) (sources : RowSources) :
    AnswersAlike (Option.Rel TableMatch.SameTable) (t.lookupTable scope names m .empty sources)
      (u.lookupTable scope names m .empty sources) := by
  unfold ScopeTree.lookupTable
  rw [h.chain_eq]
  refine h.firstAlong (fun _ => ⟨rfl, rfl, rfl, rfl, rfl⟩) (fun scope bindings hrole hperm hdistinct => ?_) _
  have hfirst : (leadingBinding? m names 0 bindings).map (·.2) =
      (leadingBinding? m names 0 scope.bindings).map (·.2) := by
    rw [leadingBinding?_eq_find?, leadingBinding?_eq_find?]
    exact (List.find?_eq_find?_of_perm hperm fun b hb c hc =>
      hdistinct names b hb.1 c hc.1 hb.2 hc.2).symm
  have hitem : itemMatch { scope with bindings } names sources = .ok none := itemMatch_of_block hrole
  rw [tableIn_of_not_shown (itemMatch_of_block hrole), tableIn_of_not_shown hitem]
  -- Only the place of the binding in the list may be another one.
  cases hl : leadingBinding? m names 0 scope.bindings with
  | none =>
    rw [hl, Option.map_none, Option.map_eq_none_iff] at hfirst
    simp only [hfirst]
    exact .ok .none
  | some found =>
    rw [hl, Option.map_some, Option.map_eq_some_iff] at hfirst
    obtain ⟨found', hl', hsame⟩ := hfirst
    simp only [hl', Option.map_some, boundTable, hsame]
    exact .ok (.some ⟨rfl, rfl, rfl, by simp, rfl⟩)

theorem requireTable (scope : ScopeId) (names : List String) (sources : RowSources) :
    AnswersAlike TableMatch.SameTable (t.requireTable scope names m sources)
      (u.requireTable scope names m sources) :=
  requireTable_alike (h.lookupTable scope names sources)

/-- A name stands for the same column. -/
theorem lookupColumn (scope : ScopeId) (name : String) (sources : RowSources) :
    u.lookupColumn scope name m sources = t.lookupColumn scope name m sources := by
  have halike : AnswersAlike (Option.Rel Eq) (t.lookupColumn scope name m sources)
      (u.lookupColumn scope name m sources) := by
    unfold ScopeTree.lookupColumn
    rw [h.chain_eq]
    refine h.firstAlong (fun _ => rfl) (fun scope bindings hrole hperm _ => ?_) _
    have hne : ¬ scope.role = .catalog := by simp [hrole]
    have hcolumns := hperm.filterMap (columnOf name m sources block)
    unfold columnIn
    rw [if_neg hne, if_neg hne]
    -- It is enough how many columns there are, and which one it is if there is only one.
    generalize scope.bindings.filterMap (columnOf name m sources block) = cs,
      bindings.filterMap (columnOf name m sources block) = ds at hcolumns
    cases cs with
    | nil =>
      rw [List.nil_perm.mp hcolumns]
      exact .ok .none
    | cons column rest =>
      cases rest with
      | nil =>
        rw [← List.singleton_perm.mp hcolumns]
        exact AnswersAlike.ok (Option.Rel.some rfl)
      | cons second rest =>
        obtain ⟨a, b, rest', rfl⟩ : ∃ a b rest', ds = a :: b :: rest' := by
          have hlength := hcolumns.length_eq
          rcases ds with - | ⟨a, - | ⟨b, rest'⟩⟩
          · cases hlength
          · cases hlength
          · exact ⟨a, b, rest', rfl⟩
        exact AnswersAlike.error (.ambiguousColumn name)
  generalize t.lookupColumn scope name m sources = r, u.lookupColumn scope name m sources = r' at halike
  cases halike with
  | error e => rfl
  | ok hab =>
    cases hab with
    | none => rfl
    | some hab => rw [hab]

/-! ### Changes of other scopes -/

/-- The same scope is added to both. -/
theorem newScope (parent : ScopeId) (role : ScopeRole) (node : Option NodeId) :
    AnswersAlike (fun x y => y.1 = x.1 ∧ x.1 ≠ block ∧ x.2.Reorders m block y.2)
      (t.newScope parent role node) (u.newScope parent role node) := by
  cases hparent : t.get? parent with
  | none =>
    have hx : t.newScope parent role node = .error (unknown parent) := by
      unfold ScopeTree.newScope
      rw [hparent]
    have hy : u.newScope parent role node = .error (unknown parent) := by
      unfold ScopeTree.newScope
      rw [h.get?_of_none hparent]
    rw [hx, hy]
    exact .error _
  | some around =>
    obtain ⟨bindings, hparent'⟩ := h.exists_get? hparent
    have hnext : u.nextId = t.nextId := congrArg ScopeId.mk h.size
    obtain ⟨t', hx⟩ := exists_newScope (lt_size_of_get? hparent) role node
    obtain ⟨u', hy⟩ := exists_newScope (lt_size_of_get? hparent') role node
    rw [hnext] at hy
    rw [hx, hy]
    obtain ⟨-, s, hs, hget⟩ := get?_newScope hx
    obtain ⟨-, s', hs', hget'⟩ := get?_newScope hy
    obtain rfl := Option.some.inj (hs.symm.trans hparent)
    obtain rfl := Option.some.inj (hs'.symm.trans hparent')
    refine .ok ⟨rfl, h.ne_nextId, ?_, fun id hid => ?_, ?_⟩
    · rw [size_newScope hx, size_newScope hy, h.size]
    · rw [hget, hget', h.other id hid]
    · obtain ⟨scope, bindings, hblock, hblock', hrest⟩ := h.block
      refine ⟨scope, bindings, ?_, ?_, hrest⟩
      · rw [hget, if_neg h.ne_nextId.symm, hblock]
      · rw [hget', if_neg h.ne_nextId.symm, hblock']

/-- The same name is bound in both, in another scope. -/
theorem addBinding (hid : id ≠ block) (binding : Binding) :
    AnswersAlike (Reorders m block) (t.addBinding id binding) (u.addBinding id binding) := by
  by_cases hlt : id.index < t.size
  · have hx : t.addBinding id binding = .ok _ := if_pos hlt
    have hy : u.addBinding id binding = .ok _ := if_pos (h.size ▸ hlt)
    rw [hx, hy]
    refine .ok ⟨?_, fun other hother => ?_, ?_⟩
    · rw [size_addBinding hx, size_addBinding hy, h.size]
    · rw [get?_addBinding hx, get?_addBinding hy, h.other id hid, h.other other hother]
    · obtain ⟨scope, bindings, hblock, hblock', hrest⟩ := h.block
      refine ⟨scope, bindings, ?_, ?_, hrest⟩
      · rw [get?_addBinding hx, if_neg hid.symm, hblock]
      · rw [get?_addBinding hy, if_neg hid.symm, hblock']
  · have hx : t.addBinding id binding = .error (unknown id) := if_neg hlt
    have hy : u.addBinding id binding = .error (unknown id) := if_neg (h.size ▸ hlt)
    rw [hx, hy]
    exact .error _

end Reorders

/-- The bindings of a block may be put in another order. -/
theorem reorders_withBindings {m : NameMatching} {t : ScopeTree} {block : ScopeId} {scope : Scope}
    {bindings : List Binding} (hs : t.get? block = some scope) (hrole : scope.role = .block)
    (hperm : scope.bindings.Perm bindings) (hdistinct : Binding.Distinct m scope.bindings) :
    t.Reorders m block (t.withBindings block bindings) where
  size := size_withBindings t block bindings
  other id hid := by rw [get?_withBindings, if_neg hid]
  block := by
    refine ⟨scope, bindings, hs, ?_, hrole, hperm, hdistinct⟩
    rw [get?_withBindings, if_pos rfl, hs]
    rfl

end ScopeTree

end SqlTyping
