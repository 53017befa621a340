import Mathlib.Logic.Relation
import SqlTyping.Proofs.Scope.Ambiguity
import SqlTyping.Proofs.Scope.Offering

namespace SqlTyping

/-!
# Shadowing

A lookup is decided by the nearest scope that has something under the name. What lies beyond that
scope, around it or off its chain, does not count.

* `Scope.HasLeading`, `Scope.Has`, `Scope.HasColumn` — what the three lookups look for in a scope;
* `ScopeTree.ChangesBeyond` — a binding is added beyond a scope, or the row type of a source changes
  that only scopes beyond it bind;
* `RowSources.SameFor` — what such changes keep for a scope; its answers depend on nothing else
  (`ScopeTree.tableIn_congr`, `namedIn_congr`, `columnIn_congr`);
* `ScopeTree.DecidedAt` — a lookup from one scope is decided at another one;
* `ScopeTree.lookups_local` — so is every lookup that finds something or is ambiguous.
-/

namespace Scope

/-- A scope has something under leading parts of a name: the WITH item that it shows, if that is the
    whole name, or a binding. -/
def HasLeading (m : NameMatching) (names : List String) (s : Scope) : Prop :=
  (∃ shown, s.role.itemName? = some shown ∧ names = [shown]) ∨
    ∃ b ∈ s.bindings, m.leads b.names names = true

/-- A binding of the scope has a column of that name. The catalog shows no columns. -/
def HasColumn (m : NameMatching) (name : String) (sources : RowSources) (s : Scope) : Prop :=
  s.role ≠ .catalog ∧
    ∃ b ∈ s.bindings, ∃ f ∈ (sources.rowOrEmpty b.source).fields, m.finds f.name name = true

/-- A scope binds a row source under some name, or shows it as its WITH item. -/
inductive HasSource (sources : RowSources) (s : Scope) (id : SourceId) : Prop
  | binding {b} (h : b ∈ s.bindings) (hsource : b.source = id)
  | item {item shown} (hrole : s.role = .withItem item shown ∨ s.role = .recursiveItem item shown)
    (h : sources.ofNode? item = some id)
  | selfView {item shown} (hrole : s.role = .recursiveItem item shown)
    (h : sources.selfViewOf? item = some id)

end Scope

/-- Two registries that a scope cannot tell apart: items have the same row sources, and the sources
    of the scope the same row types. -/
structure RowSources.SameFor (s s' : RowSources) (scope : Scope) : Prop where
  ofNode : ∀ item, s'.ofNode? item = s.ofNode? item
  selfViewOf : ∀ item, s'.selfViewOf? item = s.selfViewOf? item
  row : ∀ id, scope.HasSource s id → s'.row? id = s.row? id

/-- A table found in a scope: its name is what the scope has followed by the parts left over, and the
    path has one more step. -/
structure TableMatch.Splits (found : TableMatch) (m : NameMatching) (names : List String)
    (path : Path) (sources : RowSources) (scope : Scope) : Prop where
  name : ∃ matched, names = matched ++ found.remaining ∧
    ((∃ shown, scope.role.itemName? = some shown ∧ matched = [shown] ∧ found.remaining = []) ∨
      ∃ b ∈ scope.bindings, b.source = found.source ∧ b.nullable = found.nullable ∧
        m.sameAll b.names matched = true)
  path : ∃ ordinal name, found.path = path.plus (sources.rowOrEmpty found.source) ordinal name

/-- Such registries give a scope the same sources. -/
theorem Scope.HasSource.of_sameFor {s s' : RowSources} {scope : Scope} {id : SourceId}
    (h : scope.HasSource s id) (hsame : s.SameFor s' scope) : scope.HasSource s' id := by
  cases h with
  | binding hmem hsource => exact .binding hmem hsource
  | item hrole h => exact .item hrole ((hsame.ofNode _).trans h)
  | selfView hrole h => exact .selfView hrole ((hsame.selfViewOf _).trans h)

namespace ScopeTree

variable {t t' : ScopeTree} {m : NameMatching} {names : List String} {name : String}
  {sources sources' : RowSources} {path : Path} {id start a : ScopeId} {scope : Scope}

/-! ### What one scope answers -/

/-- Asked for a table by leading parts, a scope passes the name on when it has nothing under it. -/
theorem tableIn_eq_none_iff :
    tableIn names m path sources id scope = .ok none ↔ ¬ scope.HasLeading m names := by
  constructor
  · rintro hnone (⟨shown, hshown, rfl⟩ | ⟨b, hb, hleads⟩)
    · have hrole : ∃ item, scope.role = .withItem item shown ∨
          scope.role = .recursiveItem item shown := by
        cases hrole : scope.role <;> simp_all [ScopeRole.itemName?]
      obtain ⟨item, hrole⟩ := hrole
      exact tableIn_ne_none_of_item hrole path sources hnone
    · exact tableIn_ne_none_of_binding hb hleads path sources hnone
  · intro hnot
    have hitem : ∀ shown, scope.role.itemName? = some shown → names ≠ [shown] :=
      fun shown hshown hnames => hnot (.inl ⟨shown, hshown, hnames⟩)
    have hbindings : scope.bindings.find? (fun b => m.leads b.names names) = none :=
      List.find?_eq_none.mpr fun b hb hleads => hnot (.inr ⟨b, hb, hleads⟩)
    have hnone : itemMatch scope names sources = .ok none := (answers_of_not_item hitem (m := m)).2
    rcases tableIn_eq_of_find? hnone with ⟨-, hnone⟩ | ⟨b, found, hsome, -⟩
    · exact hnone
    · rw [hbindings] at hsome
      cases hsome

/-- Asked for a table by its whole name, so it does. -/
theorem namedIn_eq_none_iff :
    namedIn names m sources scope = .ok none ↔ ¬ scope.Has m names := by
  by_cases hitem : ∃ shown, scope.role.itemName? = some shown ∧ names = [shown]
  · refine ⟨fun hnone => ?_, fun hnot => absurd (.inl hitem) hnot⟩
    obtain ⟨shown, hshown, rfl⟩ := hitem
    unfold namedIn at hnone
    cases hrole : scope.role <;> simp_all [ScopeRole.itemName?] <;> split at hnone <;> cases hnone
  · have hother : ∀ shown, scope.role.itemName? = some shown → names ≠ [shown] :=
      fun shown hshown hnames => hitem ⟨shown, hshown, hnames⟩
    have hanswer : namedIn names m sources scope = _ := (answers_of_not_item hother).1
    rw [hanswer]
    simp [Scope.Has, hitem]

/-- Asked for a column, so it does. -/
theorem columnIn_eq_none_iff :
    columnIn name m sources id scope = .ok none ↔ ¬ scope.HasColumn m name sources := by
  have hfound : scope.bindings.filterMap (columnOf name m sources id) = [] ↔
      ¬ ∃ b ∈ scope.bindings, ∃ f ∈ (sources.rowOrEmpty b.source).fields,
        m.finds f.name name = true := by
    simp only [List.filterMap_eq_nil_iff, columnOf_eq_head?, columnsOf, List.head?_eq_none_iff,
      List.map_eq_nil_iff, List.filter_eq_nil_iff]
    push Not
    rfl
  unfold columnIn Scope.HasColumn
  by_cases hrole : scope.role = .catalog
  · simp [hrole]
  · rw [if_neg hrole, and_iff_right hrole, ← hfound]
    rcases scope.bindings.filterMap (columnOf name m sources id) with _ | ⟨c, _ | ⟨d, more⟩⟩ <;> simp

/-! ### What an answer depends on -/

theorem itemMatch_congr (h : sources.SameFor sources' scope) (names : List String) :
    itemMatch scope names sources' = itemMatch scope names sources := by
  simp only [itemMatch, h.ofNode, h.selfViewOf]

/-- The WITH item of a scope is one of its sources. -/
theorem hasSource_of_itemMatch {source : SourceId}
    (h : itemMatch scope names sources = .ok (some source)) : scope.HasSource sources source := by
  obtain ⟨item, shown, -, ⟨hrole, hown⟩ | ⟨hrole, hview⟩⟩ := itemMatch_eq_some h
  · exact .item (.inl hrole) hown
  · exact .selfView hrole hview

theorem tableIn_congr (h : sources.SameFor sources' scope) (names : List String) (m : NameMatching)
    (path : Path) (id : ScopeId) :
    tableIn names m path sources' id scope = tableIn names m path sources id scope := by
  unfold tableIn
  rw [itemMatch_congr h]
  cases hitem : itemMatch scope names sources with
  | error e => rfl
  | ok item =>
    cases item with
    | some source =>
      simp only [RowSources.rowOrEmpty, h.row source (hasSource_of_itemMatch hitem)]
    | none =>
      cases hleading : leadingBinding? m names 0 scope.bindings with
      | none => rfl
      | some leading =>
        have hrow : sources'.row? leading.2.source = sources.row? leading.2.source :=
          h.row _ (.binding (Naming.mem_of_leadingBinding? hleading) rfl)
        simp only [Option.map_some, RowSources.rowOrEmpty, hrow]

theorem namedIn_congr (h : sources.SameFor sources' scope) (names : List String)
    (m : NameMatching) : namedIn names m sources' scope = namedIn names m sources scope := by
  simp only [namedIn, h.ofNode]

theorem columnIn_congr (h : sources.SameFor sources' scope) (name : String) (m : NameMatching)
    (id : ScopeId) : columnIn name m sources' id scope = columnIn name m sources id scope := by
  have hcolumns : scope.bindings.filterMap (columnOf name m sources' id) =
      scope.bindings.filterMap (columnOf name m sources id) :=
    List.filterMap_congr fun b hb => by
      unfold columnOf
      rw [h.row b.source (.binding hb rfl)]
  unfold columnIn
  rw [hcolumns]

/-! ### The chain of a scope -/

/-- No scope around another one lies deeper. -/
theorem Nested.depth_le_of_mem_chain (hn : t.Nested) (h : t.get? id = some scope)
    {other : ScopeId} {around : Scope} (hmem : other ∈ t.chain id)
    (hother : t.get? other = some around) : around.depth ≤ scope.depth := by
  -- The induction is on the number of scopes around the first one.
  induction hdepth : scope.depth using Nat.strongRecOn generalizing id scope with
  | _ depth ih =>
    have hself : other = id → around.depth ≤ depth := by
      rintro rfl
      obtain rfl := Option.some.inj (h.symm.trans hother)
      omega
    cases hparent : scope.parent with
    | none =>
      rw [chain_of_root h hparent] at hmem
      exact hself (List.mem_singleton.mp hmem)
    | some parent =>
      obtain ⟨enclosing, henclosing, hbelow⟩ := hn id scope parent h hparent
      rw [hn.chain h hparent] at hmem
      rcases List.mem_cons.mp hmem with heq | hmem
      · exact hself heq
      · have hle := ih enclosing.depth (by omega) henclosing hmem rfl
        omega

/-- A scope does not lie around itself. -/
theorem Nested.nodup_chain (hn : t.Nested) (h : t.get? id = some scope) : (t.chain id).Nodup := by
  induction hdepth : scope.depth using Nat.strongRecOn generalizing id scope with
  | _ depth ih =>
    cases hparent : scope.parent with
    | none =>
      rw [chain_of_root h hparent]
      exact List.nodup_singleton id
    | some parent =>
      obtain ⟨enclosing, henclosing, hbelow⟩ := hn id scope parent h hparent
      rw [hn.chain h hparent, List.nodup_cons]
      refine ⟨fun hmem => ?_, ih enclosing.depth (by omega) henclosing rfl⟩
      have hle := hn.depth_le_of_mem_chain henclosing hmem h
      omega

/-- A chain goes on from each of its scopes with the chain of that scope. -/
theorem Nested.chain_of_append (hn : t.Nested) {inner outer : List ScopeId}
    (hstart : t.get? start = some scope) (h : t.chain start = inner ++ a :: outer) :
    t.chain a = a :: outer := by
  induction inner generalizing start scope with
  | nil =>
    have hhead := t.head?_chain start
    rw [h] at hhead
    obtain rfl : a = start := Option.some.inj hhead
    exact h
  | cons first inner ih =>
    cases hparent : scope.parent with
    | none =>
      rw [chain_of_root hstart hparent] at h
      simp at h
    | some parent =>
      obtain ⟨enclosing, henclosing, -⟩ := hn start scope parent hstart hparent
      rw [hn.chain hstart hparent] at h
      exact ih henclosing (List.cons.inj h).2

/-- A binding leaves every chain as it is. -/
theorem chain_addBinding {binding : Binding} (hadd : t.addBinding id binding = .ok t')
    (other : ScopeId) : t'.chain other = t.chain other := by
  refine chain_congr (fun other => ?_) other
  rw [get?_addBinding hadd]
  split
  · rename_i heq
    rw [heq]
    cases t.get? id <;> rfl
  · rfl

/-! ### Changes beyond a scope -/

/-- A scope lies around `a`, or off the chain of `start`. -/
def Beyond (t : ScopeTree) (start a id : ScopeId) : Prop :=
  id ∉ t.chain start ∨ id ∈ (t.chain a).tail

/-- A binding is added beyond `a`, or the row type of a source changes that only scopes beyond `a`
    bind. -/
inductive ChangesBeyond (start a : ScopeId) :
    ScopeTree × RowSources → ScopeTree × RowSources → Prop
  | addBinding {t t' sources id binding} (hbeyond : t.Beyond start a id)
    (hadd : t.addBinding id binding = .ok t') : ChangesBeyond start a (t, sources) (t', sources)
  | setRow {t sources sources' source row}
    (hbeyond : ∀ id scope, t.get? id = some scope → scope.HasSource sources source →
      t.Beyond start a id)
    (hset : sources.setRow source row = .ok sources') :
    ChangesBeyond start a (t, sources) (t, sources')

/-- A lookup from `start` is decided at `a`: `a` is `start` or around it, no scope nearer to `start`
    has a match, `a` has one, and no changes beyond `a` count. -/
structure DecidedAt {α : Type} (t : ScopeTree) (sources : RowSources) (start a : ScopeId)
    (has : Scope → Prop) (lookup : ScopeTree → RowSources → Except Fault α) : Prop where
  nearest : ∃ inner, t.chain start = inner ++ t.chain a ∧
    ∀ id ∈ inner, ∀ scope, t.get? id = some scope → ¬ has scope
  hit : ∃ scope, t.get? a = some scope ∧ has scope
  unchanged : ∀ t' sources', Relation.ReflTransGen (ChangesBeyond start a) (t, sources) (t', sources') →
    lookup t' sources' = lookup t sources

/-- The scopes `near` cannot tell the second state from the first one, and all chains stay. -/
structure SameNear (near : List ScopeId) (p q : ScopeTree × RowSources) : Prop where
  chain : ∀ id, q.1.chain id = p.1.chain id
  scope : ∀ id ∈ near, q.1.get? id = p.1.get? id
  sources : ∀ id ∈ near, ∀ scope, p.1.get? id = some scope → p.2.SameFor q.2 scope

/-- Changes beyond a scope do not reach what is not beyond it. -/
theorem SameNear.step {near : List ScopeId} {p q r : ScopeTree × RowSources}
    (h : SameNear near p q) (hchange : ChangesBeyond start a q r)
    (hnear : ∀ id ∈ near, ¬ p.1.Beyond start a id) : SameNear near p r := by
  have hnear' : ∀ id ∈ near, ¬ q.1.Beyond start a id := by
    unfold Beyond
    simp only [h.chain]
    exact hnear
  cases hchange with
  | addBinding hbeyond hadd =>
    refine ⟨fun id => (chain_addBinding hadd id).trans (h.chain id), fun id hmem => ?_, h.sources⟩
    rw [get?_addBinding hadd, if_neg, h.scope id hmem]
    rintro rfl
    exact hnear' id hmem hbeyond
  | @setRow t sources _ source row hbeyond hset =>
    refine ⟨h.chain, h.scope, fun id hmem scope hscope => ?_⟩
    have hsame := h.sources id hmem scope hscope
    have hthere : t.get? id = some scope := (h.scope id hmem).trans hscope
    refine ⟨fun item => ?_, fun item => ?_, fun other hother => ?_⟩
    · rw [← hsame.ofNode, RowSources.ofNode?_of_setRow hset]
    · rw [← hsame.selfViewOf, RowSources.selfViewOf?_of_setRow hset]
    · rw [← hsame.row other hother, RowSources.row?, RowSources.get?_setRow hset, if_neg]
      · rfl
      · rintro rfl
        exact hnear' id hmem (hbeyond id scope hthere (hother.of_sameFor hsame))

/-- So it is for several changes. -/
theorem SameNear.of_changes {near : List ScopeId} {p q : ScopeTree × RowSources}
    (h : Relation.ReflTransGen (ChangesBeyond start a) p q)
    (hnear : ∀ id ∈ near, ¬ p.1.Beyond start a id) : SameNear near p q := by
  induction h with
  | refl => exact ⟨fun _ => rfl, fun _ _ => rfl, fun _ _ _ _ => ⟨fun _ => rfl, fun _ => rfl, fun _ _ => rfl⟩⟩
  | tail _ hchange ih => exact ih.step hchange hnear

/-! ### Where a lookup is decided -/

variable {α : Type} {ask : RowSources → ScopeId → Scope → Except Fault (Option α)}
  {answer : Except Fault (Option α)} {ids : List ScopeId}

/-- A lookup that comes to an answer has it from one scope; the ones before it have none. -/
theorem exists_first_of_firstAlong {ask : ScopeId → Scope → Except Fault (Option α)}
    (h : t.firstAlong ask ids = answer) (hsome : answer ≠ .ok none)
    (hknown : ∀ id, answer ≠ .error (unknown id)) :
    ∃ inner a outer scope, ids = inner ++ a :: outer ∧
      (∀ id ∈ inner, ∃ s, t.get? id = some s ∧ ask id s = .ok none) ∧
        t.get? a = some scope ∧ ask a scope = answer := by
  induction ids with
  | nil => exact absurd h.symm hsome
  | cons id rest ih =>
    cases hscope : t.get? id with
    | none =>
      rw [firstAlong, hscope] at h
      exact absurd h.symm (hknown id)
    | some scope =>
      rw [firstAlong_cons hscope] at h
      by_cases hnone : ask id scope = .ok none
      · rw [hnone] at h
        obtain ⟨inner, a, outer, found, rfl, hinner, ha, hanswer⟩ := ih h
        refine ⟨id :: inner, a, outer, found, rfl, fun other hmem => ?_, ha, hanswer⟩
        rcases List.mem_cons.mp hmem with rfl | hmem
        · exact ⟨scope, hscope, hnone⟩
        · exact hinner other hmem
      · refine ⟨[], id, rest, scope, rfl, by simp, hscope, ?_⟩
        split at h
        · contradiction
        · exact h

/-- It comes to that answer wherever these scopes answer so. -/
theorem firstAlong_eq {ask : ScopeId → Scope → Except Fault (Option α)} {inner outer : List ScopeId}
    (hinner : ∀ id ∈ inner, ∃ s, t.get? id = some s ∧ ask id s = .ok none)
    (ha : t.get? a = some scope) (hanswer : ask a scope = answer) (hsome : answer ≠ .ok none) :
    t.firstAlong ask (inner ++ a :: outer) = answer := by
  rw [firstAlong_append _ hinner, firstAlong_cons ha, hanswer]
  split
  · contradiction
  · rfl

variable (ask) in
/-- A lookup whose scopes ask only for their own sources is decided at the scope that answers. -/
theorem exists_decidedAt {has : Scope → Prop} (hbuilt : t.Built)
    (hnone : ∀ id scope, ask sources id scope = .ok none ↔ ¬ has scope)
    (hcongr : ∀ id scope sources', sources.SameFor sources' scope →
      ask sources' id scope = ask sources id scope)
    (h : t.firstAlong (ask sources) (t.chain start) = answer) (hsome : answer ≠ .ok none)
    (hknown : ∀ id, answer ≠ .error (unknown id)) :
    ∃ a scope, t.get? a = some scope ∧ ask sources a scope = answer ∧
      t.DecidedAt sources start a has fun t sources => t.firstAlong (ask sources) (t.chain start) := by
  obtain ⟨inner, a, outer, scope, hchain, hinner, ha, hanswer⟩ :=
    exists_first_of_firstAlong h hsome hknown
  -- The scope that the lookup starts from is the first of these.
  obtain ⟨first, hfirst⟩ : ∃ first, t.get? start = some first := by
    have hhead := t.head?_chain start
    rw [hchain] at hhead
    cases inner with
    | nil =>
      obtain rfl : a = start := Option.some.inj hhead
      exact ⟨scope, ha⟩
    | cons id inner =>
      obtain rfl : id = start := Option.some.inj hhead
      obtain ⟨s, hs, -⟩ := hinner id (List.mem_cons_self ..)
      exact ⟨s, hs⟩
  have hrest : t.chain a = a :: outer := hbuilt.nested.chain_of_append hfirst hchain
  have hnodup : (inner ++ a :: outer).Nodup := hchain ▸ hbuilt.nested.nodup_chain hfirst
  refine ⟨a, scope, ha, hanswer, ⟨inner, hchain.trans (by rw [hrest]), fun id hmem s hs => ?_⟩,
    ⟨scope, ha, ?_⟩, fun t' sources' hchanges => ?_⟩
  · obtain ⟨s', hs', hpassed⟩ := hinner id hmem
    obtain rfl := Option.some.inj (hs.symm.trans hs')
    exact (hnone id s).mp hpassed
  · by_contra hnot
    exact hsome (hanswer.symm.trans ((hnone a scope).mpr hnot))
  · have hnear : ∀ id ∈ inner ++ [a], ¬ t.Beyond start a id := by
      rintro id hmem (hoff | hround)
      · apply hoff
        rw [hchain]
        simp only [List.mem_append, List.mem_cons] at hmem ⊢
        tauto
      · rw [hrest, List.tail_cons] at hround
        rw [← List.singleton_append, ← List.append_assoc] at hnodup
        exact List.disjoint_of_nodup_append hnodup hmem hround
    have hsame := SameNear.of_changes hchanges hnear
    have hkept (id : ScopeId) (hmem : id ∈ inner ++ [a]) (s : Scope) (hs : t.get? id = some s) :
        t'.get? id = some s ∧ ask sources' id s = ask sources id s :=
      ⟨(hsame.scope id hmem).trans hs, hcongr id s sources' (hsame.sources id hmem s hs)⟩
    have ha' := hkept a (by simp) scope ha
    rw [h, hsame.chain, hchain]
    refine firstAlong_eq (fun id hmem => ?_) ha'.1 (ha'.2.trans hanswer) hsome
    obtain ⟨s, hs, hpassed⟩ := hinner id hmem
    obtain ⟨hs', hask⟩ := hkept id (List.mem_append_left _ hmem) s hs
    exact ⟨s, hs', hask.trans hpassed⟩

/-- A lookup without an answer has asked every scope. -/
theorem none_of_firstAlong {ask : ScopeId → Scope → Except Fault (Option α)}
    (h : t.firstAlong ask ids = .ok none) :
    ∀ id ∈ ids, ∀ scope, t.get? id = some scope → ask id scope = .ok none := by
  induction ids with
  | nil => simp
  | cons first rest ih =>
    cases hfirst : t.get? first with
    | none => simp [firstAlong, hfirst] at h
    | some found =>
      rw [firstAlong_cons hfirst] at h
      split at h
      · rename_i hnone
        intro id hmem scope hscope
        rcases List.mem_cons.mp hmem with rfl | hmem
        · obtain rfl := Option.some.inj (hfirst.symm.trans hscope)
          exact hnone
        · exact ih h id hmem scope hscope
      · contradiction

/-- What follows from a lookup is decided where the lookup is. -/
theorem DecidedAt.imp {β γ : Type} {has : Scope → Prop}
    {lookup : ScopeTree → RowSources → Except Fault β}
    {further : ScopeTree → RowSources → Except Fault γ}
    (h : t.DecidedAt sources start a has lookup)
    (hfurther : ∀ t' sources', lookup t' sources' = lookup t sources →
      further t' sources' = further t sources) : t.DecidedAt sources start a has further :=
  ⟨h.nearest, h.hit, fun t' sources' hchanges =>
    hfurther t' sources' (h.unchanged t' sources' hchanges)⟩

/-- A table that a scope has is found there, by a name that it splits. -/
theorem splits_of_tableIn {found : TableMatch}
    (h : tableIn names m path sources id scope = .ok (some found)) :
    found.scope = id ∧ found.Splits m names path sources scope := by
  rcases tableIn_eq_some h with ⟨source, hitem, rfl⟩ | ⟨-, ⟨ordinal, b⟩, hleading, rfl⟩
  · obtain ⟨item, shown, rfl, hrole⟩ := itemMatch_eq_some hitem
    have hshown : scope.role.itemName? = some shown := by
      rcases hrole with ⟨hrole, -⟩ | ⟨hrole, -⟩
      · rw [hrole]
        rfl
      · rw [hrole]
        rfl
    exact ⟨rfl, ⟨[shown], rfl, .inl ⟨shown, hshown, rfl, rfl⟩⟩, ⟨0, _, rfl⟩⟩
  · have hmatched := NameMatching.leads_iff.mp (leads_of_leadingBinding? hleading)
    have hb : b ∈ scope.bindings := Naming.mem_of_leadingBinding? hleading
    exact ⟨rfl, ⟨names.take b.names.length, (List.take_append_drop _ _).symm,
      .inr ⟨b, hb, rfl, rfl, hmatched.2⟩⟩, ⟨ordinal, _, rfl⟩⟩

/-- A column that a scope has is found there. -/
theorem scope_of_columnIn {column : ColumnMatch}
    (h : columnIn name m sources id scope = .ok (some column)) : column.scope = id := by
  unfold columnIn at h
  split at h
  · cases h
  · split at h
    · cases h
    · rename_i hfound
      have hmem : column ∈ scope.bindings.filterMap (columnOf name m sources id) := by
        rw [hfound]
        simpa using (Option.some.inj (Except.ok.inj h)).symm
      obtain ⟨b, -, hb⟩ := List.mem_filterMap.mp hmem
      obtain ⟨field, -, rfl⟩ := Option.map_eq_some_iff.mp hb
      rfl
    · cases h

/-- Every lookup that finds something is decided at the nearest scope that has something under the
    name, which answers so by itself, and so is a column name that is ambiguous. A table is reported
    once or not at all; its name splits into what a scope has and the parts left over, and the path
    is one step longer. -/
theorem lookups_local (hbuilt : t.Built) (start : ScopeId) (m : NameMatching) (names : List String)
    (name : String) (path : Path) (sources : RowSources) (sink : Matches) :
    (∀ sink', t.reportTable start names m path sources sink = .ok sink' →
      (sink' = sink ∧ ∀ id ∈ t.chain start, ∀ scope, t.get? id = some scope →
        ¬ scope.HasLeading m names) ∨
      ∃ found scope, sink' = sink.report found ∧ t.get? found.scope = some scope ∧
        found.Splits m names path sources scope ∧
        t.DecidedAt sources start found.scope (Scope.HasLeading m names)
          fun t sources => t.reportTable start names m path sources sink) ∧
    (∀ source, t.tableNamed start names m sources = .ok (some source) →
      ∃ a scope, t.get? a = some scope ∧ namedIn names m sources scope = .ok (some source) ∧
        t.DecidedAt sources start a (Scope.Has m names)
          fun t sources => t.tableNamed start names m sources) ∧
    (∀ column, t.lookupColumn start name m sources = .ok (some column) →
      ∃ scope, t.get? column.scope = some scope ∧
        columnIn name m sources column.scope scope = .ok (some column) ∧
        t.DecidedAt sources start column.scope (Scope.HasColumn m name sources)
          fun t sources => t.lookupColumn start name m sources) ∧
    (∀ shown, t.lookupColumn start name m sources = .error (.ambiguousColumn shown) →
      ∃ a scope, t.get? a = some scope ∧
        columnIn name m sources a scope = .error (.ambiguousColumn shown) ∧
        t.DecidedAt sources start a (Scope.HasColumn m name sources)
          fun t sources => t.lookupColumn start name m sources) := by
  refine ⟨fun sink' hreport => ?_, fun source hsource => ?_, fun column hcolumn => ?_,
    fun shown hambiguous => ?_⟩
  · cases hlookup : t.lookupTable start names m path sources with
    | error e => simp [reportTable, hlookup] at hreport
    | ok answer =>
      cases answer with
      | none =>
        simp only [reportTable, hlookup, Except.ok.injEq] at hreport
        exact .inl ⟨hreport.symm, fun id hmem scope hscope =>
          tableIn_eq_none_iff.mp (none_of_firstAlong hlookup id hmem scope hscope)⟩
      | some found =>
        simp only [reportTable, hlookup, Except.ok.injEq] at hreport
        obtain ⟨a, scope, ha, hanswer, hdecided⟩ :=
          exists_decidedAt (fun sources => tableIn names m path sources) hbuilt
            (fun _ _ => tableIn_eq_none_iff) (fun id _ _ hsame => tableIn_congr hsame names m path id)
            hlookup (by simp) (by simp)
        obtain ⟨rfl, hsplits⟩ := splits_of_tableIn hanswer
        refine .inr ⟨found, scope, hreport.symm, ha, hsplits, hdecided.imp fun t' sources' hsame => ?_⟩
        unfold reportTable lookupTable
        rw [hsame]
  · exact exists_decidedAt (fun sources _ => namedIn names m sources) hbuilt
      (fun _ _ => namedIn_eq_none_iff) (fun _ _ _ hsame => namedIn_congr hsame names m) hsource
      (by simp) (by simp)
  · obtain ⟨a, scope, ha, hanswer, hdecided⟩ :=
      exists_decidedAt (fun sources => columnIn name m sources) hbuilt
        (fun _ _ => columnIn_eq_none_iff) (fun id _ _ hsame => columnIn_congr hsame name m id)
        hcolumn (by simp) (by simp)
    obtain rfl := scope_of_columnIn hanswer
    exact ⟨scope, ha, hanswer, hdecided⟩
  · exact exists_decidedAt (fun sources => columnIn name m sources) hbuilt
      (fun _ _ => columnIn_eq_none_iff) (fun id _ _ hsame => columnIn_congr hsame name m id)
      hambiguous (by simp) (by simp [unknown])

/-- A table of a query block stays the one that is found when the catalog gets more tables, also one
    with the whole name. -/
theorem lookups_local_block :
    let t := ofBlock [⟨["E"], ⟨0⟩, true⟩]
    t.Built ∧ ∃ found, t.reportTable ⟨1⟩ ["e", "x"] .ignoringCase .empty {} {} =
      .ok (Matches.report {} found) ∧ found.remaining = ["x"] ∧
        ∀ names source t', t.addBinding rootId ⟨names, source, false⟩ = .ok t' →
          t'.reportTable ⟨1⟩ ["e", "x"] .ignoringCase .empty {} {} =
            .ok (Matches.report {} found) := by
  intro t
  have hbuilt : t.Built := built_ofBlock [⟨["E"], ⟨0⟩, true⟩]
  have hreport : t.reportTable ⟨1⟩ ["e", "x"] .ignoringCase .empty {} {} =
      .ok (Matches.report {} ⟨⟨0⟩, true, ⟨1⟩, Path.empty.plus .emptyRow 0 "E", ["x"]⟩) := by
    decide +kernel
  rcases (lookups_local hbuilt ⟨1⟩ .ignoringCase ["e", "x"] "" .empty {} {}).1 _ hreport with
    ⟨hnone, -⟩ | ⟨found, scope, hfound, -, -, hdecided⟩
  · simp [Matches.report] at hnone
  · obtain rfl : _ = found := by simpa [Matches.report] using hfound
    refine ⟨hbuilt, _, hreport, rfl, fun names source t' hadd => ?_⟩
    rw [← hreport]
    exact hdecided.unchanged t' {} (.single (.addBinding (.inr (by decide)) hadd))

end ScopeTree

end SqlTyping
