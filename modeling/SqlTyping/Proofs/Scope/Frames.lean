import Mathlib.Data.List.Forall2
import SqlTyping.Proofs.Scope.Referents

namespace SqlTyping

/-!
# Scopes and what they show

The scopes of a validation follow the statement: each shows what a frame of an environment shows.

* `ScopeTree.Frames` — the environment of a scope, read along its parents;
* `ScopeTree.Nested` — the chain of a scope is the scope followed by the chain of its parent;
* `Naming.Binds` — a name in the scope of a SELECT is bound to what its FROM entry stands for;
* `Naming.Shows` — a scope is in its environment, and every SELECT on the way has bound all entries;
* `Naming.Shows.referent_of_lookup` — what is found from such a scope is what the name stands for.
-/

/-- The frame that a scope shows; the catalog is no frame. -/
def Scope.frame? (s : Scope) : Option Frame :=
  match s.role with
  | .catalog => none
  | .block => s.node.map .block
  | .withItem item shown => some (.item item shown)
  | .recursiveItem item shown => some (.recursive item shown)

namespace ScopeTree

/-- The environment of a scope, read along its parents. -/
inductive Frames (t : ScopeTree) : ScopeId → Env → Prop
  | catalog {id scope} (h : t.get? id = some scope) (hrole : scope.role = .catalog) : Frames t id []
  | cons {id parent scope frame env} (h : t.get? id = some scope)
    (hframe : scope.frame? = some frame) (hparent : scope.parent = some parent)
    (hrest : Frames t parent env) : Frames t id (frame :: env)

/-- Every scope but the root lies one below its parent. -/
def Nested (t : ScopeTree) : Prop :=
  ∀ id scope parent, t.get? id = some scope → scope.parent = some parent →
    ∃ around, t.get? parent = some around ∧ scope.depth = around.depth + 1

variable {t t' : ScopeTree} {id : ScopeId} {scope : Scope}

/-- The catalog is no frame. -/
theorem frame?_of_catalog (h : scope.role = .catalog) : scope.frame? = none := by
  unfold Scope.frame?
  rw [h]

/-- A scope has one environment. -/
theorem Frames.unique {env env' : Env} (h : t.Frames id env) (h' : t.Frames id env') :
    env = env' := by
  induction h generalizing env' with
  | catalog h hrole =>
    cases h' with
    | catalog => rfl
    | cons h' hframe =>
      obtain rfl := Option.some.inj (h.symm.trans h')
      rw [frame?_of_catalog hrole] at hframe
      cases hframe
  | cons h hframe hparent _ ih =>
    cases h' with
    | catalog h' hrole =>
      obtain rfl := Option.some.inj (h.symm.trans h')
      rw [frame?_of_catalog hrole] at hframe
      cases hframe
    | cons h' hframe' hparent' hrest' =>
      obtain rfl := Option.some.inj (h.symm.trans h')
      obtain rfl := Option.some.inj (hframe.symm.trans hframe')
      obtain rfl := Option.some.inj (hparent.symm.trans hparent')
      rw [ih hrest']

/-- Around a scope whose environment ends in `outer` lies one whose environment is `outer`. -/
theorem Frames.suffix {inner outer : Env} (h : t.Frames id (inner ++ outer)) :
    ∃ around, t.Frames around outer := by
  induction inner generalizing id with
  | nil => exact ⟨id, h⟩
  | cons frame rest ih =>
    cases h with
    | cons _ _ _ hrest => exact ih hrest

/-! ### Chains -/

theorem chain_of_root (h : t.get? id = some scope) (hparent : scope.parent = none) :
    t.chain id = [id] := by
  have hnone : (t.get? id).bind (·.parent) = none := by
    rw [h]
    exact hparent
  unfold chain
  cases ((t.get? id).map (·.depth)).getD 0 with
  | zero => rfl
  | succ steps =>
    unfold chainFrom
    rw [hnone]

theorem chainFrom_succ {parent : ScopeId} (h : (t.get? id).bind (·.parent) = some parent)
    (steps : Nat) : t.chainFrom (steps + 1) id = id :: t.chainFrom steps parent := by
  rw [ScopeTree.chainFrom, h]

/-- The chain of a scope one below its parent goes on with the chain of the parent. -/
theorem chain_of_parent {parent : ScopeId} {around : Scope} (h : t.get? id = some scope)
    (hparent : scope.parent = some parent) (haround : t.get? parent = some around)
    (hdepth : scope.depth = around.depth + 1) : t.chain id = id :: t.chain parent := by
  have hsome : (t.get? id).bind (·.parent) = some parent := by
    rw [h]
    exact hparent
  have hsteps : ((t.get? id).map (·.depth)).getD 0 = around.depth + 1 := by
    rw [h]
    exact hdepth
  have hrest : t.chain parent = t.chainFrom around.depth parent := by
    unfold ScopeTree.chain
    rw [haround]
    rfl
  rw [hrest]
  unfold ScopeTree.chain
  rw [hsteps, chainFrom_succ hsome]

theorem Nested.chain {parent : ScopeId} (hn : t.Nested) (h : t.get? id = some scope)
    (hparent : scope.parent = some parent) : t.chain id = id :: t.chain parent := by
  obtain ⟨around, haround, hdepth⟩ := hn id scope parent h hparent
  exact chain_of_parent h hparent haround hdepth

/-- Chains are made of parents and depths alone. -/
theorem chain_congr (h : ∀ id, (t'.get? id).map (fun s => (s.parent, s.depth)) =
    (t.get? id).map fun s => (s.parent, s.depth)) (id : ScopeId) : t'.chain id = t.chain id := by
  have hparent (id : ScopeId) : (t'.get? id).bind (·.parent) = (t.get? id).bind (·.parent) := by
    have h := h id
    cases hold : t.get? id <;> cases hnew : t'.get? id <;> simp_all
  have hdepth (id : ScopeId) : (t'.get? id).map (·.depth) = (t.get? id).map (·.depth) := by
    have h := h id
    cases hold : t.get? id <;> cases hnew : t'.get? id <;> simp_all
  have hfrom (steps : Nat) (id : ScopeId) : t'.chainFrom steps id = t.chainFrom steps id := by
    induction steps generalizing id with
    | zero => rfl
    | succ steps ih => simp only [chainFrom, hparent, ih]
  rw [chain, chain, hdepth, hfrom]

/-! ### Scopes that are added -/

theorem lt_size_of_get? (h : t.get? id = some scope) : id.index < t.size :=
  (Array.getElem?_eq_some_iff.mp h).1

/-- A scope can be added below one that is there. -/
theorem exists_newScope {parent : ScopeId} (h : parent.index < t.size) (role : ScopeRole)
    (node : Option NodeId) : ∃ t', t.newScope parent role node = .ok (t.nextId, t') := by
  obtain ⟨around, haround⟩ : ∃ around, t.get? parent = some around :=
    ⟨_, Array.getElem?_eq_getElem h⟩
  unfold newScope
  rw [haround]
  exact ⟨_, rfl⟩

/-- A scope that is added is one more. -/
theorem size_newScope {parent : ScopeId} {role : ScopeRole} {node : Option NodeId}
    (h : t.newScope parent role node = .ok (id, t')) : t'.size = t.size + 1 := by
  unfold newScope at h
  split at h
  · cases h
  · cases h
    simp [size]

/-- Scopes do not get more by bindings. -/
theorem size_addBinding {binding : Binding} (h : t.addBinding id binding = .ok t') :
    t'.size = t.size := by
  unfold addBinding at h
  split at h
  · cases h
    simp [size]
  · cases h

/-- A binding is all that has been added to any scope. -/
theorem exists_of_get?_addBinding {binding : Binding} {other : ScopeId}
    (hadd : t.addBinding id binding = .ok t') (h : t'.get? other = some scope) :
    ∃ old, t.get? other = some old ∧ old.parent = scope.parent ∧ old.role = scope.role ∧
      old.depth = scope.depth ∧ ∀ b ∈ scope.bindings, b ∈ old.bindings ∨ b = binding := by
  rw [get?_addBinding hadd] at h
  split at h
  · rename_i heq
    obtain ⟨old, hold, rfl⟩ := Option.map_eq_some_iff.mp h
    exact ⟨old, heq ▸ hold, rfl, rfl, rfl, fun b hb => by simpa using hb⟩
  · exact ⟨scope, h, rfl, rfl, rfl, fun b hb => .inl hb⟩

/-- A scope that is added is none of those that were there. -/
theorem ne_nextId (h : t.get? id = some scope) : id ≠ t.nextId := by
  rintro rfl
  obtain ⟨hlt, -⟩ := Array.getElem?_eq_some_iff.mp h
  exact Nat.lt_irrefl _ hlt

/-- A new scope leaves the others as they are. -/
theorem get?_newScope_of_some {parent new : ScopeId} {role : ScopeRole} {node : Option NodeId}
    (hnew : t.newScope parent role node = .ok (new, t')) (h : t.get? id = some scope) :
    t'.get? id = some scope := by
  obtain ⟨rfl, around, -, hget⟩ := get?_newScope hnew
  rw [hget, if_neg (ne_nextId h)]
  exact h

theorem Nested.newScope {parent new : ScopeId} {role : ScopeRole} {node : Option NodeId}
    (hn : t.Nested) (hnew : t.newScope parent role node = .ok (new, t')) : t'.Nested := by
  intro id scope above h hparent
  obtain ⟨rfl, around, haround, hget⟩ := get?_newScope hnew
  rw [hget] at h
  split at h
  · cases h
    cases hparent
    exact ⟨around, get?_newScope_of_some hnew haround, rfl⟩
  · obtain ⟨around', haround', hdepth⟩ := hn id scope above h hparent
    exact ⟨around', get?_newScope_of_some hnew haround', hdepth⟩

theorem Nested.addBinding {binding : Binding} (hn : t.Nested)
    (hadd : t.addBinding id binding = .ok t') : t'.Nested := by
  intro other scope above h hparent
  -- Only bindings change, and depths and parents do not depend on them.
  obtain ⟨old, hold, hsame, -, hdepth, -⟩ := exists_of_get?_addBinding hadd h
  obtain ⟨around, haround, hlevel⟩ := hn other old above hold (hsame.trans hparent)
  refine ⟨if above = id then { around with bindings := around.bindings ++ [binding] } else around,
    ?_, ?_⟩
  · rw [get?_addBinding hadd]
    by_cases heq : above = id
    · subst heq
      rw [if_pos rfl, if_pos rfl, haround]
      rfl
    · rw [if_neg heq, if_neg heq]
      exact haround
  · rw [← hdepth, hlevel]
    split
    · rfl
    · rfl

/-! ### What one scope has for a name -/

/-- The answer of a scope that shows an item as `name`, with the row source of the item. -/
def itemNamed (names : List String) (item : NodeId) (name : String)
    (source : Option SourceId) : Except Fault (Option SourceId) :=
  if names = [name] then
    match source with
    | some id => .ok (some id)
    | none => .error (missingItem name item)
  else .ok none

section

variable {names : List String} {item : NodeId} {name : String} {known : Option SourceId}
  {source : SourceId} {e : Fault}

theorem itemNamed_self (item : NodeId) (name : String) (source : SourceId) :
    itemNamed [name] item name (some source) = .ok (some source) := if_pos rfl

theorem itemNamed_of_ne (h : names ≠ [name]) : itemNamed names item name known = .ok none := if_neg h

theorem itemNamed_self_ne_none : itemNamed [name] item name known ≠ .ok none := by
  unfold itemNamed
  rw [if_pos rfl]
  cases known with
  | none => exact nofun
  | some id => exact nofun

/-- An item that is shown is answered under its name, with its own row source. -/
theorem itemNamed_eq_some (h : itemNamed names item name known = .ok (some source)) :
    names = [name] ∧ known = some source := by
  unfold itemNamed at h
  split at h
  · rename_i hnames
    cases known with
    | none => cases h
    | some id =>
      cases h
      exact ⟨hnames, rfl⟩
  · cases h

theorem itemNamed_eq_error (h : itemNamed names item name known = .error e) :
    e = missingItem name item ∧ known = none := by
  unfold itemNamed at h
  split at h
  · cases known with
    | none =>
      cases h
      exact ⟨rfl, rfl⟩
    | some id => cases h
  · cases h

end

section

variable {names : List String} {sources : RowSources} {source : SourceId} {m : NameMatching}
  {path : Path} {found : TableMatch} {e : Fault}

theorem itemMatch_of_catalog (h : scope.role = .catalog) : itemMatch scope names sources = .ok none := by
  unfold itemMatch
  rw [h]

theorem itemMatch_of_block (h : scope.role = .block) : itemMatch scope names sources = .ok none := by
  unfold itemMatch
  rw [h]

theorem itemMatch_of_withItem {item : NodeId} {shown : String} (h : scope.role = .withItem item shown) :
    itemMatch scope names sources = itemNamed names item shown (sources.ofNode? item) := by
  unfold itemMatch
  rw [h]
  rfl

theorem itemMatch_of_recursiveItem {item : NodeId} {shown : String}
    (h : scope.role = .recursiveItem item shown) :
    itemMatch scope names sources = itemNamed names item shown (sources.selfViewOf? item) := by
  unfold itemMatch
  rw [h]
  rfl

/-- A scope shows the item it was made for, to its own body or to the queries behind it. -/
theorem itemMatch_eq_some (h : itemMatch scope names sources = .ok (some source)) :
    ∃ item shown, names = [shown] ∧
      (scope.role = .withItem item shown ∧ sources.ofNode? item = some source ∨
        scope.role = .recursiveItem item shown ∧ sources.selfViewOf? item = some source) := by
  cases hrole : scope.role with
  | catalog => cases (itemMatch_of_catalog hrole).symm.trans h
  | block => cases (itemMatch_of_block hrole).symm.trans h
  | withItem item shown =>
    obtain ⟨hnames, hown⟩ := itemNamed_eq_some ((itemMatch_of_withItem hrole).symm.trans h)
    exact ⟨item, shown, hnames, .inl ⟨rfl, hown⟩⟩
  | recursiveItem item shown =>
    obtain ⟨hnames, hview⟩ := itemNamed_eq_some ((itemMatch_of_recursiveItem hrole).symm.trans h)
    exact ⟨item, shown, hnames, .inr ⟨rfl, hview⟩⟩

/-- Only an item that is not registered keeps a scope from answering. -/
theorem itemMatch_eq_error (h : itemMatch scope names sources = .error e) :
    ∃ item shown, e = missingItem shown item ∧
      (scope.role = .withItem item shown ∧ sources.ofNode? item = none ∨
        scope.role = .recursiveItem item shown ∧ sources.selfViewOf? item = none) := by
  cases hrole : scope.role with
  | catalog => cases (itemMatch_of_catalog hrole).symm.trans h
  | block => cases (itemMatch_of_block hrole).symm.trans h
  | withItem item shown =>
    obtain ⟨he, hnone⟩ := itemNamed_eq_error ((itemMatch_of_withItem hrole).symm.trans h)
    exact ⟨item, shown, he, .inl ⟨rfl, hnone⟩⟩
  | recursiveItem item shown =>
    obtain ⟨he, hnone⟩ := itemNamed_eq_error ((itemMatch_of_recursiveItem hrole).symm.trans h)
    exact ⟨item, shown, he, .inr ⟨rfl, hnone⟩⟩

/-- The table that a scope has for the name of the item it shows. -/
def shownTable (names : List String) (path : Path) (sources : RowSources) (id : ScopeId)
    (source : SourceId) : TableMatch where
  source := source
  nullable := false
  scope := id
  path := path.plus (sources.rowOrEmpty source) 0 (names.headD "")
  remaining := []

/-- The table that a scope has for a name that leads to a binding, with the place of the latter. -/
def boundTable (names : List String) (path : Path) (sources : RowSources) (id : ScopeId)
    (leading : Nat × Binding) : TableMatch where
  source := leading.2.source
  nullable := leading.2.nullable
  scope := id
  path := path.plus (sources.rowOrEmpty leading.2.source) leading.1 leading.2.name
  remaining := names.drop leading.2.names.length

theorem tableIn_of_error (h : itemMatch scope names sources = .error e) :
    tableIn names m path sources id scope = .error e := by
  unfold tableIn
  rw [h]

theorem tableIn_of_shown (h : itemMatch scope names sources = .ok (some source)) :
    tableIn names m path sources id scope = .ok (some (shownTable names path sources id source)) := by
  unfold tableIn
  rw [h]
  rfl

theorem tableIn_of_not_shown (h : itemMatch scope names sources = .ok none) :
    tableIn names m path sources id scope =
      .ok ((leadingBinding? m names 0 scope.bindings).map (boundTable names path sources id)) := by
  unfold tableIn
  rw [h]
  rfl

/-- A scope without an answer shows an item that is not registered. -/
theorem itemMatch_of_tableIn_eq_error (h : tableIn names m path sources id scope = .error e) :
    itemMatch scope names sources = .error e := by
  cases hitem : itemMatch scope names sources with
  | error e' =>
    cases (tableIn_of_error hitem).symm.trans h
    rfl
  | ok answer =>
    cases answer with
    | some source =>
      rw [tableIn_of_shown hitem] at h
      cases h
    | none =>
      rw [tableIn_of_not_shown hitem] at h
      cases h

/-- The table that a scope has is the item it shows or is bound in it, in this order. -/
theorem tableIn_eq_some (h : tableIn names m path sources id scope = .ok (some found)) :
    (∃ source, itemMatch scope names sources = .ok (some source) ∧
      found = shownTable names path sources id source) ∨
    itemMatch scope names sources = .ok none ∧ ∃ leading,
      leadingBinding? m names 0 scope.bindings = some leading ∧
        found = boundTable names path sources id leading := by
  cases hitem : itemMatch scope names sources with
  | error e =>
    rw [tableIn_of_error hitem] at h
    cases h
  | ok answer =>
    cases answer with
    | some source =>
      rw [tableIn_of_shown hitem] at h
      exact .inl ⟨source, rfl, (Option.some.inj (Except.ok.inj h)).symm⟩
    | none =>
      rw [tableIn_of_not_shown hitem] at h
      obtain ⟨leading, hlead, hfound⟩ := Option.map_eq_some_iff.mp (Except.ok.inj h)
      exact .inr ⟨rfl, leading, hlead, hfound.symm⟩

end

/-- A table that is required is one that is found. -/
theorem requireTable_eq_ok_iff {names : List String} {m : NameMatching} {sources : RowSources}
    {found : TableMatch} : t.requireTable id names m sources = .ok found ↔
      t.lookupTable id names m .empty sources = .ok (some found) := by
  unfold requireTable
  match t.lookupTable id names m .empty sources with
  | .error e => simp
  | .ok none => simp
  | .ok (some found') => simp

end ScopeTree

/-! ### Names bound in a scope -/

namespace Naming

/-- A name is bound to what an entry of a FROM list stands for. An entry that stands for a recursive
    item itself is `listed`. -/
structure Binds (n : Naming) (sources : RowSources) (listed : List (NodeId × SourceId)) (env : Env)
    (entry : NodeId) (b : Binding) : Prop where
  names : ∃ exposed, n.exposed? entry = some exposed ∧ b.names = [exposed]
  referent : ∃ r, n.entryReferent? env entry = some r ∧ r.IsSource sources b.source
  listed : ∀ item, n.entryReferent? env entry = some (.self item) → (entry, b.source) ∈ listed

/-- A scope binds everything that its frame shows. -/
def Complete (n : Naming) (scope : Scope) : Frame → Prop
  | .block select => scope.bindings.length = (n.sourcesOf select).length
  | .item item _ | .recursive item _ =>
    scope.bindings = [] ∧ ∃ w, n.tree.node? item = some (.withItem w)

/-- A scope is in its environment, and what is around it binds everything it shows. -/
inductive Shows (n : Naming) (t : ScopeTree) : ScopeId → Env → Prop
  | catalog {scope} (h : t.get? ScopeTree.rootId = some scope) (hrole : scope.role = .catalog)
    (hparent : scope.parent = none) (htables : scope.bindings = n.tables) :
    Shows n t ScopeTree.rootId []
  | cons {id parent scope frame env} (h : t.get? id = some scope)
    (hframe : scope.frame? = some frame) (hparent : scope.parent = some parent)
    (hcomplete : n.Complete scope frame) (hrest : Shows n t parent env) :
    Shows n t id (frame :: env)

/-- The scope of a SELECT, with the entries `bound` of its FROM list bound so far. -/
structure Opens (n : Naming) (t : ScopeTree) (sources : RowSources)
    (listed : List (NodeId × SourceId)) (scope : Scope) (select : NodeId) (env : Env)
    (bound : List NodeId) : Prop where
  node : scope.node = some select
  parent : ∃ parent, scope.parent = some parent ∧ n.Shows t parent env
  encloses : n.tree.Encloses env select
  written : bound <+: n.sourcesOf select
  bindings : List.Forall₂ (n.Binds sources listed env) bound scope.bindings

variable {n : Naming} {t t' : ScopeTree} {sources sources' : RowSources}
  {listed listed' : List (NodeId × SourceId)} {id : ScopeId} {env : Env}

theorem Binds.mono {entry : NodeId} {b : Binding} (h : n.Binds sources listed env entry b)
    (hg : sources.Grows sources') (hl : ∀ x ∈ listed, x ∈ listed') :
    n.Binds sources' listed' env entry b := by
  obtain ⟨r, hr, hsource⟩ := h.referent
  exact ⟨h.names, ⟨r, hr, hsource.mono hg⟩, fun item hi => hl _ (h.listed item hi)⟩

theorem Shows.frames (h : n.Shows t id env) : t.Frames id env := by
  induction h with
  | catalog h hrole => exact .catalog h hrole
  | cons h hframe hparent _ _ ih => exact .cons h hframe hparent ih

/-- What scopes show does not depend on other scopes. -/
theorem Shows.mono (h : n.Shows t id env)
    (hsame : ∀ id scope, t.get? id = some scope → t'.get? id = some scope) : n.Shows t' id env := by
  induction h with
  | catalog h hrole hparent htables => exact .catalog (hsame _ _ h) hrole hparent htables
  | cons h hframe hparent hcomplete _ ih => exact .cons (hsame _ _ h) hframe hparent hcomplete ih

/-- What scopes show does not depend on a SELECT that has not bound all its entries. -/
theorem Shows.of_incomplete {opened : ScopeId} {scope : Scope} {select : NodeId}
    (h : n.Shows t id env) (hopened : t.get? opened = some scope)
    (hframe : scope.frame? = some (.block select))
    (hlt : scope.bindings.length < (n.sourcesOf select).length)
    (hsame : ∀ other, other ≠ opened → t'.get? other = t.get? other) : n.Shows t' id env := by
  induction h with
  | catalog h hrole hparent htables =>
    refine .catalog ((hsame _ ?_).trans h) hrole hparent htables
    rintro rfl
    obtain rfl := Option.some.inj (h.symm.trans hopened)
    rw [ScopeTree.frame?_of_catalog hrole] at hframe
    cases hframe
  | cons h hframe' hparent hcomplete _ ih =>
    refine .cons ((hsame _ ?_).trans h) hframe' hparent hcomplete ih
    rintro rfl
    obtain rfl := Option.some.inj (h.symm.trans hopened)
    obtain rfl := Option.some.inj (hframe.symm.trans hframe')
    have hcomplete : _ = _ := hcomplete
    omega

theorem Opens.mono {scope : Scope} {select : NodeId} {bound : List NodeId}
    (h : n.Opens t sources listed scope select env bound)
    (hshows : ∀ id env, n.Shows t id env → n.Shows t' id env) (hg : sources.Grows sources')
    (hl : ∀ x ∈ listed, x ∈ listed') : n.Opens t' sources' listed' scope select env bound where
  node := h.node
  parent := by
    obtain ⟨parent, hparent, hshown⟩ := h.parent
    exact ⟨parent, hparent, hshows _ _ hshown⟩
  encloses := h.encloses
  written := h.written
  bindings := h.bindings.imp fun _ _ hb => hb.mono hg hl

/-! ### Lookups -/

/-- The first binding that leads a name is that of the first entry that answers it. -/
theorem find?_of_leadingBinding? {bound : List NodeId} {bindings : List Binding}
    (h : List.Forall₂ (n.Binds sources listed env) bound bindings) (names : List String)
    (start : Nat) :
    match ScopeTree.leadingBinding? n.matching names start bindings with
    | some (_, b) => ∃ entry, bound.find? (n.answers names) = some entry ∧
      n.Binds sources listed env entry b
    | none => bound.find? (n.answers names) = none := by
  induction h generalizing start with
  | nil => rfl
  | @cons entry b bound bindings hb _ ih =>
    have hanswers : n.answers names entry = n.matching.leads b.names names := by
      obtain ⟨exposed, hexposed, hnames⟩ := hb.names
      unfold answers
      rw [hexposed, hnames]
      rfl
    unfold ScopeTree.leadingBinding?
    rw [List.find?_cons, hanswers]
    cases n.matching.leads b.names names with
    | true => exact ⟨entry, rfl, hb⟩
    | false => exact ih (start + 1)

/-- What is known of all scopes that show the FROM list of a SELECT. -/
def OpensAll (n : Naming) (t : ScopeTree) (sources : RowSources)
    (listed : List (NodeId × SourceId)) : Prop :=
  ∀ id scope select, t.get? id = some scope → scope.frame? = some (.block select) →
    ∃ env bound, n.Opens t sources listed scope select env bound

/-- A scope has the source of the item it shows, else that of its first binding for the name. -/
theorem source_of_tableIn {scopeId : ScopeId} {scope : Scope} {names : List String} {path : Path}
    {answer : Option TableMatch}
    (h : ScopeTree.tableIn names n.matching path sources scopeId scope = .ok answer) :
    (∃ source, ScopeTree.itemMatch scope names sources = .ok (some source) ∧
      answer.map (·.source) = some source) ∨
    (ScopeTree.itemMatch scope names sources = .ok none ∧ answer.map (·.source) =
      (ScopeTree.leadingBinding? n.matching names 0 scope.bindings).map (·.2.source)) := by
  cases hitem : ScopeTree.itemMatch scope names sources with
  | error e =>
    rw [ScopeTree.tableIn_of_error hitem] at h
    cases h
  | ok shown =>
    cases shown with
    | some source =>
      rw [ScopeTree.tableIn_of_shown hitem] at h
      obtain rfl := Except.ok.inj h
      exact .inl ⟨source, rfl, rfl⟩
    | none =>
      rw [ScopeTree.tableIn_of_not_shown hitem] at h
      obtain rfl := Except.ok.inj h
      exact .inr ⟨rfl, by rw [Option.map_map]; rfl⟩

/-- The answer of a scope is what its frame has for a name; without one its frame has nothing. -/
def AnswersFor (n : Naming) (sources : RowSources) (env : Env) (frame : Frame)
    (names : List String) : Option SourceId → Prop
  | some source => ∃ r, n.referent? (frame :: env) names = some r ∧ r.IsSource sources source
  | none => n.referent? (frame :: env) names = n.referent? env names

/-- The scope of a SELECT that has bound all its entries. -/
theorem answersFor_block {scope : Scope} {select : NodeId} {names : List String}
    (hopen : n.Opens t sources listed scope select env (n.sourcesOf select)) :
    n.AnswersFor sources env (.block select) names
      ((ScopeTree.leadingBinding? n.matching names 0 scope.bindings).map (·.2.source)) := by
  have hfind := find?_of_leadingBinding? hopen.bindings names 0
  cases hlead : ScopeTree.leadingBinding? n.matching names 0 scope.bindings with
  | none =>
    rw [hlead] at hfind
    show n.referent? (.block select :: env) names = _
    rw [referent?_block]
    unfold entryFor?
    rw [hfind]
    rfl
  | some found =>
    rw [hlead] at hfind
    obtain ⟨entry, hentry, hbinds⟩ := hfind
    obtain ⟨r, hr, hsource⟩ := hbinds.referent
    refine ⟨r, ?_, hsource⟩
    rw [referent?_block]
    unfold entryFor?
    rw [hentry]
    exact hr

/-- A scope that shows one item, under one name. -/
theorem answersFor_shown {scopeId : ScopeId} {scope : Scope} {frame : Frame} {names : List String}
    {path : Path} {answer : Option TableMatch} {shown : String} {r : Referent}
    (hnone : scope.bindings = []) (item : NodeId) (found : Option SourceId)
    (hitem : ScopeTree.itemMatch scope names sources = ScopeTree.itemNamed names item shown found)
    (hfound : ∀ id, found = some id → r.IsSource sources id)
    (hframe : n.referent? (frame :: env) names =
      if names = [shown] then some r else n.referent? env names)
    (hanswer : ScopeTree.tableIn names n.matching path sources scopeId scope = .ok answer) :
    n.AnswersFor sources env frame names (answer.map (·.source)) := by
  rcases source_of_tableIn hanswer with ⟨source, hsome, hsource⟩ | ⟨hno, hsource⟩
  · obtain ⟨hname, rfl⟩ := ScopeTree.itemNamed_eq_some (hitem.symm.trans hsome)
    rw [hsource]
    exact ⟨r, hframe.trans (if_pos hname), hfound source rfl⟩
  · have hname : names ≠ [shown] := by
      rintro rfl
      exact ScopeTree.itemNamed_self_ne_none (hitem.symm.trans hno)
    rw [hsource, hnone]
    exact hframe.trans (if_neg hname)

/-- A scope that binds everything its frame shows has for a name what the frame has. -/
theorem answersFor_of_tableIn {parent scopeId : ScopeId} {scope : Scope} {frame : Frame}
    {names : List String} {path : Path} {answer : Option TableMatch}
    (hr : sources.Registered n) (hopens : n.OpensAll t sources listed)
    (h : t.get? scopeId = some scope) (hframe : scope.frame? = some frame)
    (hparent : scope.parent = some parent) (hcomplete : n.Complete scope frame)
    (hshows : n.Shows t parent env)
    (hanswer : ScopeTree.tableIn names n.matching path sources scopeId scope = .ok answer) :
    n.AnswersFor sources env frame names (answer.map (·.source)) := by
  cases hrole : scope.role with
  | catalog =>
    rw [ScopeTree.frame?_of_catalog hrole] at hframe
    cases hframe
  -- The FROM list of a SELECT.
  | block =>
    have hsame : scope.frame? = scope.node.map .block := by
      unfold Scope.frame?
      rw [hrole]
    rw [hsame] at hframe
    obtain ⟨select, -, rfl⟩ := Option.map_eq_some_iff.mp hframe
    obtain ⟨env', bound, hopen⟩ := hopens scopeId scope select h (hsame.trans hframe)
    obtain ⟨parent', hparent', hshows'⟩ := hopen.parent
    obtain rfl := Option.some.inj (hparent.symm.trans hparent')
    obtain rfl := hshows.frames.unique hshows'.frames
    have hlength : scope.bindings.length = (n.sourcesOf select).length := hcomplete
    have hbound : bound = n.sourcesOf select :=
      hopen.written.eq_of_length (hopen.bindings.length_eq.trans hlength)
    rcases source_of_tableIn hanswer with ⟨source, hsome, -⟩ | ⟨-, hsource⟩
    · cases (ScopeTree.itemMatch_of_block hrole).symm.trans hsome
    · rw [hsource]
      exact answersFor_block (hbound ▸ hopen)
  -- A WITH item, for the queries behind it.
  | withItem item shown =>
    have hsame : scope.frame? = some (.item item shown) := by
      unfold Scope.frame?
      rw [hrole]
    obtain rfl := Option.some.inj (hsame.symm.trans hframe)
    obtain ⟨hnone, w, hw⟩ := hcomplete
    refine answersFor_shown hnone item (sources.ofNode? item) ?_
      (fun id hid => hr.item item w id hw hid) (referent?_item env item shown names) hanswer
    exact ScopeTree.itemMatch_of_withItem hrole
  -- A recursive WITH item, for its own body.
  | recursiveItem item shown =>
    have hsame : scope.frame? = some (.recursive item shown) := by
      unfold Scope.frame?
      rw [hrole]
    obtain rfl := Option.some.inj (hsame.symm.trans hframe)
    obtain ⟨hnone, -⟩ := hcomplete
    refine answersFor_shown hnone item (sources.selfViewOf? item) ?_
      (fun id hid => hr.selfView item id hid) (referent?_self env item shown names) hanswer
    exact ScopeTree.itemMatch_of_recursiveItem hrole

theorem mem_of_leadingBinding? {m : NameMatching} {names : List String} {start : Nat}
    {bindings : List Binding} {found : Nat × Binding}
    (h : ScopeTree.leadingBinding? m names start bindings = some found) : found.2 ∈ bindings := by
  induction bindings generalizing start with
  | nil => cases h
  | cons b rest ih =>
    unfold ScopeTree.leadingBinding? at h
    split at h
    · cases h
      exact List.mem_cons_self ..
    · exact List.mem_cons_of_mem _ (ih h)

/-- The catalog answers with the tables it has. -/
theorem tableFor?_of_tableIn {scopeId : ScopeId} {scope : Scope} {names : List String} {path : Path}
    {found : TableMatch} (hr : sources.Registered n) (hrole : scope.role = .catalog)
    (htables : scope.bindings = n.tables)
    (hanswer : ScopeTree.tableIn names n.matching path sources scopeId scope = .ok (some found)) :
    ∃ r, n.tableFor? names = some r ∧ r.IsSource sources found.source := by
  rcases source_of_tableIn hanswer with ⟨source, hsome, -⟩ | ⟨-, hsource⟩
  · cases (ScopeTree.itemMatch_of_catalog hrole).symm.trans hsome
  · rw [htables] at hsource
    cases hlead : ScopeTree.leadingBinding? n.matching names 0 n.tables with
    | none =>
      rw [hlead] at hsource
      cases hsource
    | some leading =>
      rw [hlead] at hsource
      have hsource : found.source = leading.2.source := Option.some.inj hsource
      refine ⟨.table leading.2.source, ?_, ?_⟩
      · unfold tableFor?
        rw [hlead]
        rfl
      · rw [hsource]
        exact hr.table _ (mem_of_leadingBinding? hlead)

/-- What is found from a scope that binds everything around it is what the name stands for. -/
theorem Shows.referent_of_lookup {names : List String} {path : Path} {found : TableMatch}
    (h : n.Shows t id env) (hn : t.Nested) (hr : sources.Registered n)
    (hopens : n.OpensAll t sources listed)
    (hfound : t.lookupTable id names n.matching path sources = .ok (some found)) :
    ∃ r, n.referent? env names = some r ∧ r.IsSource sources found.source := by
  induction h with
  | @catalog scope h hrole hparent htables =>
    unfold ScopeTree.lookupTable at hfound
    rw [ScopeTree.chain_of_root h hparent] at hfound
    unfold ScopeTree.firstAlong at hfound
    rw [h] at hfound
    simp only at hfound
    split at hfound
    · cases hfound
    · exact tableFor?_of_tableIn hr hrole htables hfound
  | @cons id parent scope frame env h hframe hparent hcomplete hrest ih =>
    unfold ScopeTree.lookupTable at hfound
    rw [hn.chain h hparent] at hfound
    unfold ScopeTree.firstAlong at hfound
    rw [h] at hfound
    simp only at hfound
    split at hfound
    · rename_i hnone
      have hanswer := answersFor_of_tableIn hr hopens h hframe hparent hcomplete hrest hnone
      obtain ⟨r, href, hsource⟩ := ih hfound
      have hanswer : n.referent? (frame :: env) names = n.referent? env names := hanswer
      exact ⟨r, hanswer.trans href, hsource⟩
    · exact answersFor_of_tableIn hr hopens h hframe hparent hcomplete hrest hfound

end Naming

end SqlTyping
