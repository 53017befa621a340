import SqlTyping.Proofs.Scope.Frames
import SqlTyping.Session

namespace SqlTyping

/-!
# Names bound during a validation

At every moment of a validation the names bound in scopes stand for what the statement says:

* `Session.Named` — the scopes of SELECTs bind their FROM entries to what these stand for, and
  exactly the entries that stand for a recursive item itself are listed;
* `Naming.selfBound` — the entries that scopes bind to a recursive item itself, each as often as
  scopes do, which is how often it is listed;
* `Naming.Opened` — the scope of a SELECT that has bound some entries of its FROM list;
* `Session.Named.bind` — binding the next entry keeps this, which is the one change to a scope that
  is there.
-/

/-- An entry of a FROM list is listed for the source that it is bound to. -/
def Naming.Lists (n : Naming) (t : ScopeTree) (x : NodeId × SourceId) : Prop :=
  ∃ (id : ScopeId) (scope : Scope) (select : NodeId) (index : Nat) (b : Binding),
    t.get? id = some scope ∧ scope.frame? = some (.block select) ∧
      (n.sourcesOf select)[index]? = some x.1 ∧ scope.bindings[index]? = some b ∧ b.source = x.2

/-- What the entries of the FROM list of a SELECT are bound to in its scope, in order. -/
def Naming.boundIn (n : Naming) (scope : Scope) : List (NodeId × SourceId) :=
  match scope.frame? with
  | some (.block select) => (n.sourcesOf select).zip (scope.bindings.map (·.source))
  | _ => []

/-- The entries that a scope binds to a recursive item itself. -/
def Naming.selfBoundIn (n : Naming) (sources : RowSources) (scope : Scope) :
    List (NodeId × SourceId) :=
  (n.boundIn scope).filter fun x => (sources.get? x.2).any RowSource.isSelfReference

/-- The entries that scopes bind to a recursive item itself, scope by scope. -/
def Naming.selfBound (n : Naming) (t : ScopeTree) (sources : RowSources) :
    List (NodeId × SourceId) :=
  t.scopes.toList.flatMap (n.selfBoundIn sources)

/-- The FROM entries that stand for a recursive item itself, once an entry has been found to stand
    for a source. -/
def Session.listing (s : Session) (entry : NodeId) (source : SourceId) :
    List (NodeId × SourceId) :=
  if (s.sources.get? source).any RowSource.isSelfReference then
    s.selfReferences ++ [(entry, source)]
  else s.selfReferences

/-- The names bound so far stand for what the statement says. -/
structure Session.Named (n : Naming) (s : Session) : Prop where
  matching : s.settings.matching = n.matching
  nested : s.scopes.Nested
  catalog : n.Shows s.scopes ScopeTree.rootId []
  sources : s.sources.Registered n
  opens : n.OpensAll s.scopes s.sources s.selfReferences
  lists : ∀ x ∈ s.selfReferences, n.Lists s.scopes x ∧
    ∃ item, (Referent.self item).IsSource s.sources x.2
  tally : s.selfReferences.Perm (n.selfBound s.scopes s.sources)

/-- The scopes that are there stay as they are. -/
def ScopeTree.Extends (t t' : ScopeTree) : Prop :=
  ∀ id scope, t.get? id = some scope → t'.get? id = some scope

/-- The scope of a SELECT has bound the entries `bound` of its FROM list. -/
structure Naming.Opened (n : Naming) (t : ScopeTree) (id : ScopeId) (select : NodeId) (env : Env)
    (bound : List NodeId) : Prop where
  scope : ∃ scope parent, t.get? id = some scope ∧ scope.frame? = some (.block select) ∧
    scope.parent = some parent ∧ n.Shows t parent env ∧ scope.bindings.length = bound.length
  written : bound <+: n.sourcesOf select

variable {n : Naming} {s : Session} {t t' : ScopeTree}

/-! ### Scopes that are added -/

theorem ScopeTree.Extends.refl (t : ScopeTree) : t.Extends t := fun _ _ h => h

theorem ScopeTree.Extends.trans {t'' : ScopeTree} (h : t.Extends t') (h' : t'.Extends t'') :
    t.Extends t'' :=
  fun id scope hs => h' id scope (h id scope hs)

/-- Scopes that stay as they are do not get fewer. -/
theorem ScopeTree.Extends.size_le (h : t.Extends t') : t.size ≤ t'.size := by
  cases hsize : t.size with
  | zero => exact Nat.zero_le _
  | succ n =>
    have hlast : t.get? ⟨n⟩ = some _ := Array.getElem?_eq_getElem (by
      show n < t.scopes.size
      have : t.scopes.size = n + 1 := hsize
      omega)
    exact (Array.getElem?_eq_some_iff.mp (h _ _ hlast)).1

theorem ScopeTree.Extends.newScope {parent id : ScopeId} {role : ScopeRole} {node : Option NodeId}
    (h : t.newScope parent role node = .ok (id, t')) : t.Extends t' :=
  fun _ _ hs => ScopeTree.get?_newScope_of_some h hs

theorem Naming.Lists.mono {x : NodeId × SourceId} (h : n.Lists t x) (hext : t.Extends t') :
    n.Lists t' x := by
  obtain ⟨id, scope, select, index, b, hs, hrest⟩ := h
  exact ⟨id, scope, select, index, b, hext id scope hs, hrest⟩

theorem Naming.Opened.mono {id : ScopeId} {select : NodeId} {env : Env} {bound : List NodeId}
    (h : n.Opened t id select env bound) (hext : t.Extends t') : n.Opened t' id select env bound := by
  obtain ⟨⟨scope, parent, hs, hframe, hparent, hshows, hlength⟩, hwritten⟩ := h
  exact ⟨⟨scope, parent, hext id scope hs, hframe, hparent, hshows.mono hext, hlength⟩, hwritten⟩

/-- A SELECT that has bound all its entries shows them. -/
theorem Naming.Opened.shows {id : ScopeId} {select : NodeId} {env : Env}
    (h : n.Opened t id select env (n.sourcesOf select)) : n.Shows t id (.block select :: env) := by
  obtain ⟨⟨scope, parent, hs, hframe, hparent, hshows, hlength⟩, -⟩ := h
  exact .cons hs hframe hparent hlength hshows

/-! ### Bound entries -/

theorem Naming.mem_boundIn {scope : Scope} {x : NodeId × SourceId} :
    x ∈ n.boundIn scope ↔ ∃ (select : NodeId) (index : Nat) (b : Binding),
      scope.frame? = some (.block select) ∧ (n.sourcesOf select)[index]? = some x.1 ∧
        scope.bindings[index]? = some b ∧ b.source = x.2 := by
  unfold Naming.boundIn
  constructor
  · intro h
    split at h
    · rename_i select hframe
      obtain ⟨index, hindex⟩ := List.mem_iff_getElem?.mp h
      obtain ⟨hentry, hsource⟩ := List.getElem?_zip_eq_some.mp hindex
      rw [List.getElem?_map] at hsource
      obtain ⟨b, hb, hsource⟩ := Option.map_eq_some_iff.mp hsource
      exact ⟨select, index, b, hframe, hentry, hb, hsource⟩
    · cases h
  · rintro ⟨select, index, b, hframe, hentry, hb, hsource⟩
    rw [hframe]
    refine List.mem_iff_getElem?.mpr ⟨index, List.getElem?_zip_eq_some.mpr ⟨hentry, ?_⟩⟩
    rw [List.getElem?_map, hb]
    exact congrArg some hsource

/-- Scopes that are there are listed. -/
theorem ScopeTree.mem_toList {scope : Scope} :
    scope ∈ t.scopes.toList ↔ ∃ id, t.get? id = some scope := by
  rw [List.mem_iff_getElem?]
  simp only [Array.getElem?_toList]
  exact ⟨fun ⟨i, h⟩ => ⟨⟨i⟩, h⟩, fun ⟨id, h⟩ => ⟨id.index, h⟩⟩

/-- A scope that has bound nothing is added. -/
theorem Naming.selfBound_newScope {parent id : ScopeId} {role : ScopeRole} {node : Option NodeId}
    (h : t.newScope parent role node = .ok (id, t')) (sources : RowSources) :
    n.selfBound t' sources = n.selfBound t sources := by
  have hnone : ∀ depth, n.selfBoundIn sources
      { parent := some parent, role, node, bindings := [], depth } = [] := by
    intro depth
    unfold Naming.selfBoundIn Naming.boundIn
    split
    · simp
    · rfl
  unfold ScopeTree.newScope at h
  split at h
  · cases h
  · cases h
    unfold Naming.selfBound
    simp only [Array.toList_push, List.flatMap_append, List.flatMap_cons, List.flatMap_nil, hnone,
      List.append_nil]

/-- One list of several gets longer, and so does what they make up. -/
theorem perm_flatMap_set {α β : Type} {f : α → List β} {more : List β} {a a' : α}
    {l : List α} {i : Nat} (hi : l[i]? = some a) (hmore : f a' = f a ++ more) :
    ((l.set i a').flatMap f).Perm (l.flatMap f ++ more) := by
  induction l generalizing i with
  | nil => cases hi
  | cons b rest ih =>
    cases i with
    | zero =>
      obtain rfl : b = a := Option.some.inj hi
      rw [List.set_cons_zero, List.flatMap_cons, List.flatMap_cons, hmore, List.append_assoc,
        List.append_assoc]
      exact (List.perm_append_comm).append_left _
    | succ i =>
      rw [List.set_cons_succ, List.flatMap_cons, List.flatMap_cons, List.append_assoc]
      exact (ih hi).append_left _

/-- The scope of a SELECT binds one more entry. -/
theorem Naming.selfBound_addBinding {id : ScopeId} {scope : Scope} {select entry : NodeId}
    {bound rest : List NodeId} {binding : Binding} (hs : t.get? id = some scope)
    (hframe : scope.frame? = some (.block select)) (hlength : scope.bindings.length = bound.length)
    (hrest : bound ++ entry :: rest = n.sourcesOf select)
    (hadd : t.addBinding id binding = .ok t') (sources : RowSources) :
    (n.selfBound t' sources).Perm (n.selfBound t sources ++
      if (sources.get? binding.source).any RowSource.isSelfReference then [(entry, binding.source)]
      else []) := by
  have hmore : n.selfBoundIn sources { scope with bindings := scope.bindings ++ [binding] } =
      n.selfBoundIn sources scope ++
        if (sources.get? binding.source).any RowSource.isSelfReference then
          [(entry, binding.source)]
        else [] := by
    have hzip : ∀ l : List SourceId, l.length = bound.length →
        (n.sourcesOf select).zip (l ++ [binding.source]) =
          (n.sourcesOf select).zip l ++ [(entry, binding.source)] := by
      intro l hl
      rw [← hrest, List.zip_append hl.symm]
      conv => rhs; rw [← List.append_nil l, List.zip_append hl.symm]
      simp
    have hframe' : ({ scope with bindings := scope.bindings ++ [binding] } : Scope).frame? =
        some (.block select) := hframe
    unfold Naming.selfBoundIn Naming.boundIn
    rw [hframe, hframe']
    simp only [List.map_append, List.map_cons, List.map_nil]
    rw [hzip _ (by rw [List.length_map]; exact hlength), List.filter_append]
    simp only [List.filter_cons, List.filter_nil]
  unfold ScopeTree.addBinding at hadd
  split at hadd
  · cases hadd
    unfold Naming.selfBound
    rw [Array.toList_modify]
    have hget : t.scopes.toList[id.index]? = some scope := by
      rw [Array.getElem?_toList]
      exact hs
    rw [List.modify_eq_set_getElem?, hget]
    exact perm_flatMap_set hget hmore
  · cases hadd

namespace Session.Named

/-- What scopes bind entries to is there, and what it stands for does not change. -/
theorem selfBound_of_grows {sources : RowSources} (h : s.Named n) (hg : s.sources.Grows sources) :
    n.selfBound s.scopes sources = n.selfBound s.scopes s.sources := by
  refine List.flatMap_congr fun scope hscope => List.filter_congr fun x hx => ?_
  obtain ⟨id, hs⟩ := ScopeTree.mem_toList.mp hscope
  obtain ⟨select, index, b, hframe, -, hb, hsource⟩ := Naming.mem_boundIn.mp hx
  obtain ⟨env, bound, hopen⟩ := h.opens id scope select hs hframe
  obtain ⟨hi, rfl⟩ := List.getElem?_eq_some_iff.mp hb
  have hi' : index < bound.length := by
    rw [hopen.bindings.length_eq]
    exact hi
  obtain ⟨r, -, hr⟩ := (hopen.bindings.get hi' hi).referent
  have hr : r.IsSource s.sources x.2 := hsource ▸ hr
  rw [Bool.eq_iff_iff, hr.isSelfReference, (hr.mono hg).isSelfReference]

/-- Names do not depend on the statement, on types or on requests. -/
theorem of_eq {s' : Session} (h : s.Named n) (hsettings : s'.settings = s.settings)
    (hscopes : s'.scopes = s.scopes) (hsources : s'.sources = s.sources)
    (hlisted : s'.selfReferences = s.selfReferences) : s'.Named n where
  matching := by rw [hsettings]; exact h.matching
  nested := by rw [hscopes]; exact h.nested
  catalog := by rw [hscopes]; exact h.catalog
  sources := by rw [hsources]; exact h.sources
  opens := by rw [hscopes, hsources, hlisted]; exact h.opens
  lists := by rw [hscopes, hsources, hlisted]; exact h.lists
  tally := by rw [hscopes, hsources, hlisted]; exact h.tally

/-- More row sources are registered, or get their row types. -/
theorem of_sources {sources : RowSources} (h : s.Named n) (hg : s.sources.Grows sources)
    (hr : sources.Registered n) : Session.Named n { s with sources } where
  matching := h.matching
  nested := h.nested
  catalog := h.catalog
  sources := hr
  opens id scope select hs hframe := by
    obtain ⟨env, bound, hopen⟩ := h.opens id scope select hs hframe
    exact ⟨env, bound, hopen.mono (fun _ _ h => h) hg fun _ h => h⟩
  lists x hx := by
    obtain ⟨hlists, item, hsource⟩ := h.lists x hx
    exact ⟨hlists, item, hsource.mono hg⟩
  tally := (h.selfBound_of_grows hg).symm ▸ h.tally

/-- A scope is added that has bound nothing yet. -/
theorem newScope {parent id : ScopeId} {role : ScopeRole} {node : Option NodeId}
    {scopes : ScopeTree} (h : s.Named n)
    (hnew : s.scopes.newScope parent role node = .ok (id, scopes))
    (hselect : ∀ select, role = .block → node = some select →
      ∃ env, n.Shows s.scopes parent env ∧ n.tree.Encloses env select) :
    Session.Named n { s with scopes } := by
  have hext : s.scopes.Extends scopes := .newScope hnew
  refine ⟨h.matching, h.nested.newScope hnew, h.catalog.mono hext, h.sources, ?_,
    fun x hx => ⟨(h.lists x hx).1.mono hext, (h.lists x hx).2⟩,
    (Naming.selfBound_newScope hnew s.sources).symm ▸ h.tally⟩
  intro other scope select hs hframe
  obtain ⟨rfl, around, haround, hget⟩ := ScopeTree.get?_newScope hnew
  have hs : scopes.get? other = some scope := hs
  rw [hget] at hs
  split at hs
  · obtain rfl := Option.some.inj hs
    cases role with
    | block =>
      obtain ⟨select', hnode, heq⟩ := Option.map_eq_some_iff.mp hframe
      cases heq
      have hnode : node = some select := hnode
      obtain ⟨env, hshows, hencloses⟩ := hselect select rfl hnode
      refine ⟨env, [], hnode, ⟨parent, rfl, hshows.mono hext⟩, hencloses, List.nil_prefix, ?_⟩
      exact List.Forall₂.nil
    | catalog => cases hframe
    | withItem => cases hframe
    | recursiveItem => cases hframe
  · obtain ⟨env, bound, hopen⟩ := h.opens other scope select hs hframe
    exact ⟨env, bound, hopen.mono (fun _ _ h => h.mono hext) (.refl _) fun _ h => h⟩

/-! ### Binding an entry -/

/-- Only what stands for a recursive item itself is listed. -/
theorem mem_listing (entry : NodeId) {source : SourceId} {r : Referent}
    (hr : r.IsSource s.sources source) :
    (∀ x ∈ s.selfReferences, x ∈ s.listing entry source) ∧
      (∀ x ∈ s.listing entry source, x ∈ s.selfReferences ∨
        x = (entry, source) ∧ ∃ item, r = .self item) ∧
        ∀ item, r = .self item → (entry, source) ∈ s.listing entry source := by
  unfold Session.listing
  have hiff := hr.isSelfReference
  by_cases hself : (s.sources.get? source).any RowSource.isSelfReference = true
  · rw [if_pos hself]
    refine ⟨fun x hx => List.mem_append_left _ hx, fun x hx => ?_, fun _ _ => by simp⟩
    rcases List.mem_append.mp hx with hx | hx
    · exact .inl hx
    · exact .inr ⟨List.mem_singleton.mp hx, hiff.mp hself⟩
  · rw [if_neg hself]
    exact ⟨fun _ hx => hx, fun _ hx => .inl hx, fun item hi => absurd (hiff.mpr ⟨item, hi⟩) hself⟩

section

variable {id : ScopeId} {select entry : NodeId} {env : Env} {bound rest : List NodeId}
  {binding : Binding} {scopes : ScopeTree}

/-- What scopes show is not affected by binding the next entry of a SELECT. -/
theorem shows_addBinding (hopened : n.Opened t id select env bound)
    (hrest : bound ++ entry :: rest = n.sourcesOf select)
    (hadd : t.addBinding id binding = .ok t') {other : ScopeId} {env' : Env}
    (hshows : n.Shows t other env') : n.Shows t' other env' := by
  obtain ⟨⟨scope, parent, hs, hframe, hparent, hshown, hlength⟩, -⟩ := hopened
  refine hshows.of_incomplete hs hframe ?_ fun other hne => ?_
  · rw [hlength, ← hrest, List.length_append, List.length_cons]
    omega
  · rw [ScopeTree.get?_addBinding hadd, if_neg hne]

/-- The scope of the SELECT has one more entry bound. -/
theorem opened_addBinding (hopened : n.Opened t id select env bound)
    (hrest : bound ++ entry :: rest = n.sourcesOf select)
    (hadd : t.addBinding id binding = .ok t') : n.Opened t' id select env (bound ++ [entry]) := by
  have hshows : ∀ other env', n.Shows t other env' → n.Shows t' other env' :=
    fun _ _ => shows_addBinding hopened hrest hadd
  obtain ⟨⟨scope, parent, hs, hframe, hparent, hshown, hlength⟩, -⟩ := hopened
  refine ⟨⟨{ scope with bindings := scope.bindings ++ [binding] }, parent, ?_, hframe, hparent,
    hshows _ _ hshown, by simp [hlength]⟩, ⟨rest, by simpa using hrest⟩⟩
  rw [ScopeTree.get?_addBinding hadd, if_pos rfl, hs]
  rfl

/-- What is listed stays listed when a scope binds more. -/
theorem lists_addBinding {x : NodeId × SourceId} (h : n.Lists t x)
    (hadd : t.addBinding id binding = .ok t') : n.Lists t' x := by
  obtain ⟨other, scope, select, index, b, hs, hframe, hentry, hb, hsource⟩ := h
  by_cases heq : other = id
  · subst heq
    have hget := (ScopeTree.get?_addBinding hadd other).trans (if_pos rfl)
    rw [hs] at hget
    refine ⟨other, _, select, index, b, hget, hframe, hentry, ?_, hsource⟩
    obtain ⟨hi, -⟩ := List.getElem?_eq_some_iff.mp hb
    exact (List.getElem?_append_left hi).trans hb
  · have hget := (ScopeTree.get?_addBinding hadd other).trans (if_neg heq)
    exact ⟨other, scope, select, index, b, hget.trans hs, hframe, hentry, hb, hsource⟩

/-- The next entry of a SELECT is listed for what it is bound to. -/
theorem lists_of_addBinding (hopened : n.Opened t id select env bound)
    (hrest : bound ++ entry :: rest = n.sourcesOf select)
    (hadd : t.addBinding id binding = .ok t') : n.Lists t' (entry, binding.source) := by
  obtain ⟨⟨scope, parent, hs, hframe, -, -, hlength⟩, -⟩ := hopened
  have hget := (ScopeTree.get?_addBinding hadd id).trans (if_pos rfl)
  rw [hs] at hget
  refine ⟨id, _, select, bound.length, binding, hget, hframe, ?_, ?_, rfl⟩
  · show (n.sourcesOf select)[bound.length]? = some entry
    rw [← hrest]
    simp
  · show (scope.bindings ++ [binding])[bound.length]? = some binding
    rw [← hlength]
    simp

/-- The entries that are known to be bound in the scope of a SELECT are those that it has bound. -/
theorem opens_of_opened (h : s.Named n) (hopened : n.Opened s.scopes id select env bound) {scope : Scope}
    (hs : s.scopes.get? id = some scope) :
    n.Opens s.scopes s.sources s.selfReferences scope select env bound := by
  obtain ⟨⟨scope', parent, hs', hframe, hparent, hshown, hlength⟩, hwritten⟩ := hopened
  obtain rfl := Option.some.inj (hs.symm.trans hs')
  obtain ⟨env', bound', hopen⟩ := h.opens id scope select hs hframe
  obtain ⟨parent', hparent', hshown'⟩ := hopen.parent
  obtain rfl := Option.some.inj (hparent.symm.trans hparent')
  obtain rfl := hshown.frames.unique hshown'.frames
  have hlength' : bound'.length = bound.length := hopen.bindings.length_eq.trans hlength
  have hsame : bound' = bound := (List.prefix_of_prefix_length_le hopen.written hwritten
    (Nat.le_of_eq hlength')).eq_of_length hlength'
  exact hsame ▸ hopen

/-- Scopes of SELECTs bind entries to what these stand for, also once one more is bound. -/
theorem opensAll_addBinding (h : s.Named n) (hopened : n.Opened s.scopes id select env bound)
    (hrest : bound ++ entry :: rest = n.sourcesOf select)
    (hadd : s.scopes.addBinding id binding = .ok scopes) {listed : List (NodeId × SourceId)}
    (hkeep : ∀ x ∈ s.selfReferences, x ∈ listed) (hbinds : n.Binds s.sources listed env entry binding) :
    n.OpensAll scopes s.sources listed := by
  have hshows : ∀ other env', n.Shows s.scopes other env' → n.Shows scopes other env' :=
    fun _ _ => shows_addBinding hopened hrest hadd
  intro other scope' select' hs' hframe'
  rw [ScopeTree.get?_addBinding hadd] at hs'
  split at hs'
  · obtain ⟨scope, -, hs, hframe, -⟩ := hopened.scope
    have hopen := opens_of_opened h hopened hs
    rw [hs] at hs'
    obtain rfl := Option.some.inj hs'
    obtain rfl : select = select' := by
      have hframe' : scope.frame? = some (.block select') := hframe'
      rw [hframe] at hframe'
      cases hframe'
      rfl
    have hmono := hopen.mono hshows (.refl _) hkeep
    refine ⟨env, bound ++ [entry], hmono.node, hmono.parent, hmono.encloses, ⟨rest, ?_⟩, ?_⟩
    · simpa using hrest
    · exact List.rel_append hmono.bindings (.cons hbinds .nil)
  · obtain ⟨env', bound', hopen'⟩ := h.opens other scope' select' hs' hframe'
    exact ⟨env', bound', hopen'.mono hshows (.refl _) hkeep⟩

/-- What is listed is what scopes bind to a recursive item itself, also once one more entry is bound. -/
theorem tally_addBinding (h : s.Named n) (hopened : n.Opened s.scopes id select env bound)
    (hrest : bound ++ entry :: rest = n.sourcesOf select)
    (hadd : s.scopes.addBinding id binding = .ok scopes) :
    (s.listing entry binding.source).Perm (n.selfBound scopes s.sources) := by
  obtain ⟨scope, -, hs, hframe, -, -, hlength⟩ := hopened.scope
  refine .trans ?_ (Naming.selfBound_addBinding hs hframe hlength hrest hadd s.sources).symm
  unfold Session.listing
  split
  · exact h.tally.append_right _
  · rw [List.append_nil]
    exact h.tally

/-- The next entry of a SELECT is bound to what it stands for, and listed when it stands for a
    recursive item itself. -/
theorem bind {exposed : String} {r : Referent} (h : s.Named n)
    (hopened : n.Opened s.scopes id select env bound)
    (hrest : bound ++ entry :: rest = n.sourcesOf select)
    (hadd : s.scopes.addBinding id binding = .ok scopes) (hnames : binding.names = [exposed])
    (hexposed : n.exposed? entry = some exposed) (href : n.entryReferent? env entry = some r)
    (hsource : r.IsSource s.sources binding.source) :
    Session.Named n { s with scopes, selfReferences := s.listing entry binding.source } := by
  obtain ⟨hkeep, hnew, hself⟩ := mem_listing entry hsource
  have hbinds : n.Binds s.sources (s.listing entry binding.source) env entry binding := by
    refine ⟨⟨exposed, hexposed, hnames⟩, ⟨r, href, hsource⟩, fun item hi => hself item ?_⟩
    exact Option.some.inj (href.symm.trans hi)
  refine ⟨h.matching, h.nested.addBinding hadd, shows_addBinding hopened hrest hadd h.catalog, h.sources,
    opensAll_addBinding h hopened hrest hadd hkeep hbinds, fun x hx => ?_,
    tally_addBinding h hopened hrest hadd⟩
  rcases hnew x hx with hx | ⟨rfl, item, rfl⟩
  · obtain ⟨hlists, hself'⟩ := h.lists x hx
    exact ⟨lists_addBinding hlists hadd, hself'⟩
  · exact ⟨lists_of_addBinding hopened hrest hadd, item, hsource⟩

end

end Session.Named

end SqlTyping
