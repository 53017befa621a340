import Mathlib.Data.List.Induction
import SqlTyping.Proofs.Scope.Frames
import SqlTyping.Session.Typing

namespace SqlTyping

/-!
# The two lookups of tables

A table is looked up by its whole name (`ScopeTree.tableNamed`) or by the leading parts of a name
(`ScopeTree.lookupTable`). The second lookup stops at the first binding that leads the name, also at
one that leaves parts over:

* `ScopeTree.Built` — the scopes that can be made;
* `RowSources.Covers` — every WITH item that a scope shows has its row sources;
* `ScopeTree.PrefixFirst` — a proper prefix of the name is bound, and met before the whole name;
* `ScopeTree.lookups_agree` — the lookups agree but for that case, and exactly but for it; otherwise
  what has a whole name can be named in a FROM list;
* `ScopeTree.lookups_differ` — two tables, of which one hides the other.
-/

/-- A scope has something under the whole name: the WITH item that it shows, or a binding. -/
def Scope.Has (m : NameMatching) (names : List String) (s : Scope) : Prop :=
  (∃ shown, s.role.itemName? = some shown ∧ names = [shown]) ∨
    ∃ b ∈ s.bindings, m.sameAll b.names names = true

/-- The registry has the row sources of the WITH items that scopes show, and of recursive ones the
    view from inside. -/
structure RowSources.Covers (s : RowSources) (t : ScopeTree) : Prop where
  item : ∀ id scope item shown, t.get? id = some scope →
    scope.role = .withItem item shown ∨ scope.role = .recursiveItem item shown →
      ∃ own, s.ofNode? item = some own
  selfView : ∀ id scope item shown, t.get? id = some scope →
    scope.role = .recursiveItem item shown → ∃ view, s.selfViewOf? item = some view

namespace ScopeTree

/-- Scopes are made from the catalog scope by adding scopes and bindings. -/
inductive Built : ScopeTree → Prop
  | root : Built {}
  | newScope {t t' parent role node id} (h : Built t)
    (hnew : t.newScope parent role node = .ok (id, t')) : Built t'
  | addBinding {t t' id binding} (h : Built t) (hadd : t.addBinding id binding = .ok t') : Built t'

/-- Along the scopes a binding under a proper prefix of the name is met before anything under the
    whole name. -/
inductive PrefixFirst (t : ScopeTree) (m : NameMatching) (names : List String) :
    List ScopeId → Prop
  | here {id rest s earlier b later} (h : t.get? id = some s)
    (hitem : ∀ shown, s.role.itemName? = some shown → names ≠ [shown])
    (hbindings : s.bindings = earlier ++ b :: later)
    (hearlier : ∀ b' ∈ earlier, m.sameAll b'.names names = false)
    (hleads : m.leads b.names names = true) (hproper : b.names.length < names.length) :
    PrefixFirst t m names (id :: rest)
  | outer {id rest s} (h : t.get? id = some s) (hnone : ¬ s.Has m names)
    (hrest : PrefixFirst t m names rest) : PrefixFirst t m names (id :: rest)

/-- What the lookup by leading parts has found is the source with the whole name, or, where a
    recursive WITH item is seen from inside its body, the view of the same item. -/
def Agrees (t : ScopeTree) (sources : RowSources) (ns : SourceId) (found : TableMatch) : Prop :=
  found.source = ns ∨ ∃ scope item shown, t.get? found.scope = some scope ∧
    scope.role = .recursiveItem item shown ∧ sources.ofNode? item = some ns ∧
      sources.selfViewOf? item = some found.source

variable {t t' : ScopeTree} {m : NameMatching} {names : List String} {sources : RowSources}
  {path : Path} {id : ScopeId} {scope : Scope}

/-! ### Chains of scopes -/

theorem Built.nested (h : t.Built) : t.Nested := by
  induction h with
  | root =>
    intro id scope parent hget hparent
    -- The only scope is the catalog's.
    have hroot : scope = .root := by
      obtain ⟨hlt, rfl⟩ := Array.getElem?_eq_some_iff.mp hget
      simp
    rw [hroot] at hparent
    cases hparent
  | newScope _ hnew ih => exact ih.newScope hnew
  | addBinding _ hadd ih => exact ih.addBinding hadd

/-- All scopes around a scope are there. -/
theorem Nested.exists_of_mem_chain (hn : t.Nested) (h : t.get? id = some scope) {other : ScopeId}
    (hmem : other ∈ t.chain id) : ∃ around, t.get? other = some around := by
  induction hd : scope.depth generalizing id scope with
  | zero =>
    cases hparent : scope.parent with
    | none =>
      rw [chain_of_root h hparent] at hmem
      obtain rfl := List.mem_singleton.mp hmem
      exact ⟨scope, h⟩
    | some parent =>
      obtain ⟨around, -, hdepth⟩ := hn id scope parent h hparent
      omega
  | succ depth ih =>
    cases hparent : scope.parent with
    | none =>
      rw [chain_of_root h hparent] at hmem
      obtain rfl := List.mem_singleton.mp hmem
      exact ⟨scope, h⟩
    | some parent =>
      obtain ⟨around, haround, hdepth⟩ := hn id scope parent h hparent
      rw [hn.chain h hparent] at hmem
      rcases List.mem_cons.mp hmem with rfl | hmem
      · exact ⟨scope, h⟩
      · exact ih haround hmem (by omega)

/-! ### One scope -/

/-- The first binding that leads a name is the first one in the list that does. -/
theorem leadingBinding?_eq_find? (start : Nat) (bindings : List Binding) :
    (leadingBinding? m names start bindings).map (·.2) =
      bindings.find? fun b => m.leads b.names names := by
  induction bindings generalizing start with
  | nil => rfl
  | cons b rest ih =>
    unfold leadingBinding?
    rw [List.find?_cons]
    cases m.leads b.names names with
    | true => rfl
    | false => exact ih (start + 1)

/-- A binding under the whole name leads it. -/
theorem leads_of_sameAll {a : List String} (h : m.sameAll a names = true) :
    m.leads a names = true := by
  have hlength := NameMatching.length_eq_of_sameAll h
  rw [NameMatching.leads_iff]
  refine ⟨Nat.le_of_eq hlength, ?_⟩
  rw [hlength, List.take_length]
  exact h

theorem sameAll_eq_false {a : List String} (h : m.leads a names = false) :
    m.sameAll a names = false := by
  cases hsame : m.sameAll a names with
  | true => rw [leads_of_sameAll hsame] at h; cases h
  | false => rfl

/-- What leads a name and has as many parts is the whole name. -/
theorem sameAll_of_leads {a : List String} (h : m.leads a names = true)
    (hlength : names.length ≤ a.length) : m.sameAll a names = true := by
  obtain ⟨-, hall⟩ := NameMatching.leads_iff.mp h
  rwa [List.take_of_length_le hlength] at hall

/-- A scope that shows an item under the name. -/
theorem agree_of_item {m : NameMatching} {path : Path} (hcovers : sources.Covers t)
    (h : t.get? id = some scope) {shown : String} (hshown : scope.role.itemName? = some shown) :
    ∃ ns found, namedIn [shown] m sources scope = .ok (some ns) ∧
      tableIn [shown] m path sources id scope = .ok (some found) ∧ found.remaining = [] ∧
        t.Agrees sources ns found := by
  cases hrole : scope.role with
  | catalog => simp [hrole, ScopeRole.itemName?] at hshown
  | block => simp [hrole, ScopeRole.itemName?] at hshown
  | withItem item name =>
    obtain rfl : name = shown := by simpa [hrole, ScopeRole.itemName?] using hshown
    obtain ⟨own, hown⟩ := hcovers.item id scope item name h (.inl hrole)
    refine ⟨own, ⟨own, false, id, path.plus (sources.rowOrEmpty own) 0 name, []⟩, ?_, ?_, rfl,
      .inl rfl⟩
    · simp [namedIn, hrole, hown]
    · refine tableIn_of_shown ?_
      rw [itemMatch_of_withItem hrole, hown, itemNamed_self]
  | recursiveItem item name =>
    obtain rfl : name = shown := by simpa [hrole, ScopeRole.itemName?] using hshown
    obtain ⟨own, hown⟩ := hcovers.item id scope item name h (.inr hrole)
    obtain ⟨view, hview⟩ := hcovers.selfView id scope item name h hrole
    refine ⟨own, ⟨view, false, id, path.plus (sources.rowOrEmpty view) 0 name, []⟩, ?_, ?_, rfl,
      .inr ⟨scope, item, name, h, hrole, hown, hview⟩⟩
    · simp [namedIn, hrole, hown]
    · refine tableIn_of_shown ?_
      rw [itemMatch_of_recursiveItem hrole, hview, itemNamed_self]

/-- A scope that shows no item under the name has only its bindings to offer. -/
theorem answers_of_not_item (hitem : ∀ shown, scope.role.itemName? = some shown → names ≠ [shown]) :
    namedIn names m sources scope =
        .ok ((scope.bindings.find? fun b => m.sameAll b.names names).map (·.source)) ∧
      itemMatch scope names sources = .ok none := by
  unfold namedIn
  cases hrole : scope.role with
  | catalog => exact ⟨rfl, itemMatch_of_catalog hrole⟩
  | block => exact ⟨rfl, itemMatch_of_block hrole⟩
  | withItem item name =>
    have hne : names ≠ [name] := hitem name (by rw [hrole]; rfl)
    exact ⟨if_neg hne, (itemMatch_of_withItem hrole).trans (itemNamed_of_ne hne)⟩
  | recursiveItem item name =>
    have hne : names ≠ [name] := hitem name (by rw [hrole]; rfl)
    exact ⟨if_neg hne, (itemMatch_of_recursiveItem hrole).trans (itemNamed_of_ne hne)⟩

/-- The lookup by leading parts takes the first binding that leads the name. -/
theorem tableIn_eq_of_find? (hitem : itemMatch scope names sources = .ok none) :
    (scope.bindings.find? (fun b => m.leads b.names names) = none ∧
      tableIn names m path sources id scope = .ok none) ∨
    ∃ b found, scope.bindings.find? (fun b => m.leads b.names names) = some b ∧
      tableIn names m path sources id scope = .ok (some found) ∧ found.source = b.source ∧
        found.remaining = names.drop b.names.length := by
  have hfind : (leadingBinding? m names 0 scope.bindings).map (·.2) = _ :=
    leadingBinding?_eq_find? 0 scope.bindings
  rw [tableIn_of_not_shown hitem, ← hfind]
  cases leadingBinding? m names 0 scope.bindings with
  | none => exact .inl ⟨rfl, rfl⟩
  | some leading => exact .inr ⟨leading.2, _, rfl, rfl, rfl, rfl⟩

/-! ### Chains of scopes -/

/-- What the two lookups come to along the scopes `ids`. The lookup by leading parts stops at a
    proper prefix, or both find the same, or both find nothing. -/
inductive Outcome (t : ScopeTree) (m : NameMatching) (names : List String) (sources : RowSources)
    (ids : List ScopeId) (named : Except Fault (Option SourceId)) :
    Except Fault (Option TableMatch) → Prop
  | hidden {found} (hremaining : found.remaining ≠ []) (hfirst : t.PrefixFirst m names ids) :
    Outcome t m names sources ids named (.ok (some found))
  | same {found ns} (hnamed : named = .ok (some ns)) (hremaining : found.remaining = [])
    (hagrees : t.Agrees sources ns found) (hfirst : ¬ t.PrefixFirst m names ids) :
    Outcome t m names sources ids named (.ok (some found))
  | nothing (hnamed : named = .ok none) : Outcome t m names sources ids named (.ok none)

/-- Where the item of a scope has the name, no binding comes before it. -/
theorem not_prefixFirst_of_item (h : t.get? id = some scope) {shown : String}
    (hshown : scope.role.itemName? = some shown) (rest : List ScopeId) :
    ¬ t.PrefixFirst m [shown] (id :: rest) := by
  intro hfirst
  cases hfirst with
  | here h' hitem =>
    obtain rfl := Option.some.inj (h.symm.trans h')
    exact hitem shown hshown rfl
  | outer h' hnone =>
    obtain rfl := Option.some.inj (h.symm.trans h')
    exact hnone (.inl ⟨shown, hshown, rfl⟩)

/-- A scope whose item has another name, and in which no binding leads the name, has nothing under it. -/
theorem not_has_of_leads (hitem : ∀ shown, scope.role.itemName? = some shown → names ≠ [shown])
    (hleads : ∀ b ∈ scope.bindings, m.leads b.names names = false) : ¬ scope.Has m names := by
  rintro (⟨shown, hshown, hname⟩ | ⟨b, hb, hsame⟩)
  · exact hitem shown hshown hname
  · rw [sameAll_eq_false (hleads b hb)] at hsame
    cases hsame

/-- A proper prefix that is met first is met further out when no binding of the scope leads the name. -/
theorem PrefixFirst.of_cons {rest : List ScopeId} (hfirst : t.PrefixFirst m names (id :: rest))
    (h : t.get? id = some scope) (hleads : ∀ b ∈ scope.bindings, m.leads b.names names = false) :
    t.PrefixFirst m names rest := by
  cases hfirst with
  | here h' _ hbindings _ hlead _ =>
    obtain rfl := Option.some.inj (h.symm.trans h')
    rw [hleads _ (by rw [hbindings]; simp)] at hlead
    cases hlead
  | outer _ _ hrest => exact hrest

/-- When the first binding that leads the name has the whole name, no proper prefix comes before it. -/
theorem not_prefixFirst_of_whole (h : t.get? id = some scope) {b : Binding}
    (hfind : scope.bindings.find? (fun b => m.leads b.names names) = some b)
    (hsame : m.sameAll b.names names = true) (rest : List ScopeId) :
    ¬ t.PrefixFirst m names (id :: rest) := by
  intro hfirst
  cases hfirst with
  | @here _ _ _ earlier proper _ h' _ hbindings hearlier hlead hproper =>
    obtain rfl := Option.some.inj (h.symm.trans h')
    -- The first binding that leads the name is the proper prefix, or stands before it.
    rw [hbindings, List.find?_append, List.find?_cons, hlead] at hfind
    cases hbefore : earlier.find? fun b => m.leads b.names names with
    | none =>
      rw [hbefore] at hfind
      obtain rfl := Option.some.inj hfind
      exact absurd (NameMatching.length_eq_of_sameAll hsame) (Nat.ne_of_lt hproper)
    | some before =>
      rw [hbefore] at hfind
      obtain rfl := Option.some.inj hfind
      rw [hearlier _ (List.mem_of_find?_eq_some hbefore)] at hsame
      cases hsame
  | outer h' hnone =>
    obtain rfl := Option.some.inj (h.symm.trans h')
    exact hnone (.inr ⟨b, List.mem_of_find?_eq_some hfind, hsame⟩)

/-- The first binding that leads the name is the first one under the whole name when it has it. -/
theorem find?_sameAll_of_leads {bindings : List Binding} {b : Binding}
    (hfind : bindings.find? (fun b => m.leads b.names names) = some b)
    (hsame : m.sameAll b.names names = true) :
    bindings.find? (fun b => m.sameAll b.names names) = some b := by
  obtain ⟨-, earlier, later, hbindings, hearlier⟩ := List.find?_eq_some_iff_append.mp hfind
  have hearlier : ∀ b' ∈ earlier, m.leads b'.names names = false := by simpa using hearlier
  rw [List.find?_eq_some_iff_append]
  refine ⟨hsame, earlier, later, hbindings, ?_⟩
  simpa using fun b' hb' => sameAll_eq_false (hearlier b' hb')

/-- The lookups go on from a scope in which no binding leads the name. -/
theorem Outcome.outer {rest : List ScopeId} {named : Except Fault (Option SourceId)}
    {looked : Except Fault (Option TableMatch)} (ho : t.Outcome m names sources rest named looked)
    (h : t.get? id = some scope)
    (hitem : ∀ shown, scope.role.itemName? = some shown → names ≠ [shown])
    (hleads : ∀ b ∈ scope.bindings, m.leads b.names names = false) :
    t.Outcome m names sources (id :: rest) named looked := by
  cases ho with
  | hidden hremaining hfirst =>
    exact .hidden hremaining (.outer h (not_has_of_leads hitem hleads) hfirst)
  | same hnamed hremaining hagrees hfirst =>
    exact .same hnamed hremaining hagrees fun hfirst' => hfirst (hfirst'.of_cons h hleads)
  | nothing hnamed => exact .nothing hnamed

/-- The two lookups side by side, one scope after the other. -/
theorem outcome_firstAlong (hcovers : sources.Covers t) (m : NameMatching) (names : List String)
    (path : Path) {ids : List ScopeId} (hids : ∀ id ∈ ids, ∃ scope, t.get? id = some scope) :
    t.Outcome m names sources ids (t.firstAlong (fun _ => namedIn names m sources) ids)
      (t.firstAlong (tableIn names m path sources) ids) := by
  induction ids with
  | nil => exact .nothing rfl
  | cons id rest ih =>
    obtain ⟨scope, h⟩ := hids id (List.mem_cons_self ..)
    have ih := ih fun other ho => hids other (List.mem_cons_of_mem _ ho)
    unfold firstAlong
    simp only [h]
    by_cases hitem : ∃ shown, scope.role.itemName? = some shown ∧ names = [shown]
    -- The item of the scope comes first in both lookups.
    · obtain ⟨shown, hshown, rfl⟩ := hitem
      obtain ⟨ns, found, hnamed, hfound, hremaining, hagrees⟩ := agree_of_item hcovers h hshown
      rw [hnamed, hfound]
      exact .same rfl hremaining hagrees (not_prefixFirst_of_item h hshown rest)
    have hother : ∀ shown, scope.role.itemName? = some shown → names ≠ [shown] :=
      fun shown hshown hname => hitem ⟨shown, hshown, hname⟩
    obtain ⟨hnamed, hmatch⟩ : namedIn names m sources scope = _ ∧ _ := answers_of_not_item hother
    rw [hnamed]
    rcases tableIn_eq_of_find? hmatch with ⟨hnone, hfound⟩ | ⟨b, found, hsome, hfound, hsource, hrest⟩
    -- Nothing leads the name here, so both lookups go on.
    · have hleads : ∀ b ∈ scope.bindings, m.leads b.names names = false := by
        simpa using hnone
      have hnamedNone : scope.bindings.find? (fun b => m.sameAll b.names names) = none := by
        simpa using fun b hb => sameAll_eq_false (hleads b hb)
      rw [hnamedNone, hfound]
      exact ih.outer h hother hleads
    rw [hfound]
    have hlead : m.leads b.names names = true := by simpa using List.find?_some hsome
    by_cases hproper : b.names.length < names.length
    -- A proper prefix stops the lookup.
    · obtain ⟨-, earlier, later, hbindings, hearlier⟩ := List.find?_eq_some_iff_append.mp hsome
      have hearlier : ∀ b' ∈ earlier, m.leads b'.names names = false := by simpa using hearlier
      refine .hidden ?_ (.here h hother hbindings (fun b' hb' => sameAll_eq_false (hearlier b' hb'))
        hlead hproper)
      rw [hrest]
      simpa using hproper
    -- The whole name stops both.
    · have hsame := sameAll_of_leads hlead (Nat.le_of_not_lt hproper)
      rw [find?_sameAll_of_leads hsome hsame]
      refine .same rfl ?_ (.inl hsource) (not_prefixFirst_of_whole h hsome hsame rest)
      rw [hrest]
      simpa using hproper

/-- From a scope that is there, the two lookups come to one of these outcomes. -/
theorem Built.outcome (hbuilt : t.Built) (hcovers : sources.Covers t) (h : t.get? id = some scope)
    (m : NameMatching) (names : List String) (path : Path) :
    t.Outcome m names sources (t.chain id) (t.tableNamed id names m sources)
      (t.lookupTable id names m path sources) :=
  outcome_firstAlong hcovers m names path fun _ hmem => hbuilt.nested.exists_of_mem_chain h hmem

/-- A table that is found with no part of its name left over can be named in a FROM list. -/
theorem bindTable_of_found {s : Session} {block : ScopeId} {entry : NodeId} {label : Option String}
    {found : TableMatch} (hnames : names ≠ []) (hblock : (s.scopes.get? block).isSome = true)
    (hfound : s.scopes.lookupTable id names s.settings.matching .empty s.sources = .ok (some found))
    (hremaining : found.remaining = []) :
    ∃ s', bindTable id block entry names label s = (.ok (), s') := by
  have hrequire : s.scopes.requireTable id names s.settings.matching s.sources = .ok found :=
    requireTable_eq_ok_iff.mpr hfound
  obtain ⟨exposed, hexposed⟩ : ∃ exposed, exposedName? names label = some exposed := by
    cases label with
    | some l => exact ⟨l, rfl⟩
    | none => exact ⟨names.getLast hnames, List.getLast?_eq_some_getLast hnames⟩
  have hindex : block.index < s.scopes.size := by
    obtain ⟨scope, hscope⟩ := Option.isSome_iff_exists.mp hblock
    exact (Array.getElem?_eq_some_iff.mp hscope).1
  -- Neither listing the entry nor recording its type touches the scopes.
  have hbind : ∀ s' : Session, s'.scopes = s.scopes →
      ∃ s'', Validation.bindName block exposed found.source s' = (.ok (), s'') := by
    intro s' hs'
    unfold Validation.bindName Validation.onScopes addBinding
    rw [← hs'] at hindex
    simp only [if_pos hindex]
    exact ⟨_, rfl⟩
  unfold bindTable
  rw [Checking.bind_of_ok (Checking.state_apply s), hrequire,
    Checking.bind_of_ok (Checking.ofExcept_apply (.ok found) s), hremaining, hexposed]
  cases s.sources.row? found.source with
  | none =>
    cases (s.sources.get? found.source).any RowSource.isSelfReference with
    | true => exact hbind _ rfl
    | false => exact hbind _ rfl
  | some row =>
    cases (s.sources.get? found.source).any RowSource.isSelfReference with
    | true => exact hbind _ rfl
    | false => exact hbind _ rfl

/-- The two lookups agree on every name, unless a proper prefix of the name is met before the whole
    name. When `tableNamed` has a source, `lookupTable` reports exactly one match; it has no parts of
    the name left over and is for the same source, or for the view of the same recursive item from
    inside, if and only if no proper prefix comes first. When `tableNamed` has none, nothing is
    reported without parts left over. What has a whole name that no proper prefix comes before can
    be named in a FROM list. -/
theorem lookups_agree (hbuilt : t.Built) (hcovers : sources.Covers t) (h : t.get? id = some scope)
    (m : NameMatching) (names : List String) (path : Path) :
    (∀ ns, t.tableNamed id names m sources = .ok (some ns) →
      ∃ found, t.reportTable id names m path sources {} = .ok ⟨[found]⟩ ∧
        (found.remaining = [] ∧ t.Agrees sources ns found ↔ ¬ t.PrefixFirst m names (t.chain id))) ∧
    (t.tableNamed id names m sources = .ok none →
      ∃ matches', t.reportTable id names m path sources {} = .ok matches' ∧
        ∀ found ∈ matches'.found, found.remaining ≠ []) ∧
    (∀ (s : Session) (block : ScopeId) (entry : NodeId) (label : Option String) (ns : SourceId),
      s.scopes = t → s.sources = sources → s.settings.matching = m → names ≠ [] →
        (t.get? block).isSome = true → t.tableNamed id names m sources = .ok (some ns) →
          ¬ t.PrefixFirst m names (t.chain id) →
            ∃ s', bindTable id block entry names label s = (.ok (), s')) := by
  have houtcome := hbuilt.outcome hcovers h m names path
  refine ⟨fun ns hns => ?_, fun hnone => ?_, ?_⟩
  · unfold reportTable
    generalize t.lookupTable id names m path sources = looked at houtcome
    rw [hns] at houtcome
    cases houtcome with
    | hidden hremaining hfirst =>
      exact ⟨_, rfl, fun hagrees => absurd hagrees.1 hremaining, fun hnot => absurd hfirst hnot⟩
    | same hnamed hremaining hagrees hfirst =>
      cases hnamed
      exact ⟨_, rfl, fun _ => hfirst, fun _ => ⟨hremaining, hagrees⟩⟩
    | nothing hnamed => cases hnamed
  · unfold reportTable
    generalize t.lookupTable id names m path sources = looked at houtcome
    rw [hnone] at houtcome
    cases houtcome with
    | hidden hremaining => exact ⟨_, rfl, by simpa [Matches.report] using hremaining⟩
    | same hnamed => cases hnamed
    | nothing => exact ⟨_, rfl, by simp⟩
  · rintro s block entry label ns rfl rfl rfl hnames hblock hns hfirst
    have houtcome := hbuilt.outcome hcovers h s.settings.matching names .empty
    rw [hns] at houtcome
    cases hlooked : s.scopes.lookupTable id names s.settings.matching .empty s.sources with
    | error e =>
      rw [hlooked] at houtcome
      cases houtcome
    | ok answer =>
      rw [hlooked] at houtcome
      cases houtcome with
      | hidden _ hfirst' => exact absurd hfirst' hfirst
      | same _ hremaining => exact bindTable_of_found hnames hblock hlooked hremaining
      | nothing hnamed => cases hnamed

/-! ### Catalogs alone -/

/-- A catalog with the given bindings and no other scope. -/
def ofCatalog (bindings : List Binding) : ScopeTree := ⟨#[{ Scope.root with bindings }]⟩

/-- The only scope is the catalog's. -/
theorem get?_ofCatalog {bindings : List Binding} (h : (ofCatalog bindings).get? id = some scope) :
    scope = { Scope.root with bindings } := by
  obtain ⟨hlt, rfl⟩ := Array.getElem?_eq_some_iff.mp h
  simp [ofCatalog]

theorem built_ofCatalog (bindings : List Binding) : (ofCatalog bindings).Built := by
  induction bindings using List.reverseRecOn with
  | nil => exact .root
  | append_singleton earlier b ih =>
    exact ih.addBinding (show (ofCatalog earlier).addBinding rootId b = .ok _ from rfl)

/-- A catalog shows no WITH items. -/
theorem covers_ofCatalog (sources : RowSources) (bindings : List Binding) :
    sources.Covers (ofCatalog bindings) where
  item id scope item shown h hrole := by
    rw [get?_ofCatalog h] at hrole
    simp [Scope.root] at hrole
  selfView id scope item shown h hrole := by
    rw [get?_ofCatalog h] at hrole
    simp [Scope.root] at hrole

/-- A table `S.T` in the catalog before a table `S`: no proper prefix of its name comes first. -/
theorem lookups_agree_of_longer_first :
    let bindings : List Binding := [⟨["S", "T"], ⟨1⟩, false⟩, ⟨["S"], ⟨0⟩, false⟩]
    (ofCatalog bindings).Built ∧ RowSources.Covers {} (ofCatalog bindings) ∧
      ¬ (ofCatalog bindings).PrefixFirst .exact ["S", "T"] ((ofCatalog bindings).chain rootId) := by
  intro bindings
  have hbuilt := built_ofCatalog bindings
  have hcovers := covers_ofCatalog {} bindings
  have hroot : (ofCatalog bindings).get? rootId = some { Scope.root with bindings } := rfl
  obtain ⟨found, hfound, hiff⟩ :=
    (lookups_agree hbuilt hcovers hroot .exact ["S", "T"] .empty).1 ⟨1⟩ (by decide +kernel)
  have hreport : ((ofCatalog bindings).reportTable rootId ["S", "T"] .exact .empty {} {}).map
      (·.found.map fun found => (found.remaining, found.source)) = .ok [([], ⟨1⟩)] := by
    decide +kernel
  rw [hfound] at hreport
  simp only [Except.map, List.map_cons, List.map_nil, Except.ok.injEq, List.cons.injEq,
    Prod.mk.injEq, and_true] at hreport
  exact ⟨hbuilt, hcovers, hiff.mp ⟨hreport.1, .inl hreport.2⟩⟩

/-- With a table `S` in the catalog before a table `S.T`, the second one is found under its whole
    name, but the lookup by leading parts stops at the first one: it is not so that the two lookups
    agree on every name. -/
theorem lookups_differ :
    ¬ ∀ (t : ScopeTree) (sources : RowSources) (id : ScopeId) (scope : Scope) (m : NameMatching)
      (names : List String) (ns : SourceId), t.Built → sources.Covers t → t.get? id = some scope →
        names ≠ [] → t.tableNamed id names m sources = .ok (some ns) →
          ∃ found, t.reportTable id names m .empty sources {} = .ok ⟨[found]⟩ ∧
            found.remaining = [] ∧ t.Agrees sources ns found := by
  intro h
  let bindings : List Binding := [⟨["S"], ⟨0⟩, false⟩, ⟨["S", "T"], ⟨1⟩, false⟩]
  obtain ⟨found, hfound, hremaining, -⟩ := h (ofCatalog bindings) {} rootId _ .exact ["S", "T"] ⟨1⟩
    (built_ofCatalog bindings) (covers_ofCatalog {} bindings) rfl (by simp) (by decide +kernel)
  have hstops : ((ofCatalog bindings).reportTable rootId ["S", "T"] .exact .empty {} {}).map
      (·.found.map (·.remaining)) = .ok [["T"]] := by decide +kernel
  rw [hfound] at hstops
  simp [Except.map, hremaining] at hstops

end ScopeTree

end SqlTyping
