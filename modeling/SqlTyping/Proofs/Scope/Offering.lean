import SqlTyping.Proofs.Scope.Frames

namespace SqlTyping

/-!
# Names for which there is something

Whether anything is found for a name says less than what is found, and it stays true as more names are
bound:

* `ScopeTree.Widens` — scopes are added, and more names are bound in those that are there;
* `ScopeTree.Offers` — a name leads to something from a scope, so a lookup does not come back with
  nothing (`ScopeTree.Offers.lookupTable_ne_none`);
* `Naming.Offers` — the same for an environment, without any validation;
* `Naming.Resolved` — at a part of a statement and at all that are validated below it, every table of a
  FROM list has a name that the environment offers.
-/

/-! ### Scopes -/

namespace ScopeTree

/-- Scopes are added, and more names are bound in those that are there. -/
def Widens (t t' : ScopeTree) : Prop :=
  ∀ id scope, t.get? id = some scope → ∃ scope', t'.get? id = some scope' ∧
    scope'.role = scope.role ∧ scope'.parent = scope.parent ∧ scope.bindings ⊆ scope'.bindings

/-- From the scope the name leads to an item that is shown, or to something that is bound. -/
inductive Offers (m : NameMatching) (t : ScopeTree) (names : List String) : ScopeId → Prop
  | item {id scope item shown} (hs : t.get? id = some scope)
    (hrole : scope.role = .withItem item shown ∨ scope.role = .recursiveItem item shown)
    (hnames : names = [shown]) : Offers m t names id
  | binding {id scope b} (hs : t.get? id = some scope) (hb : b ∈ scope.bindings)
    (hleads : m.leads b.names names = true) : Offers m t names id
  | around {id scope parent} (hs : t.get? id = some scope) (hparent : scope.parent = some parent)
    (h : Offers m t names parent) : Offers m t names id

variable {t t' t'' : ScopeTree} {m : NameMatching} {names : List String} {id : ScopeId} {scope : Scope}

namespace Widens

theorem refl (t : ScopeTree) : t.Widens t := fun _ scope hs => ⟨scope, hs, rfl, rfl, List.Subset.refl _⟩

theorem trans (h : t.Widens t') (h' : t'.Widens t'') : t.Widens t'' := by
  intro id scope hs
  obtain ⟨scope', hs', hrole, hparent, hsub⟩ := h id scope hs
  obtain ⟨scope'', hs'', hrole', hparent', hsub'⟩ := h' id scope' hs'
  exact ⟨scope'', hs'', hrole'.trans hrole, hparent'.trans hparent, List.Subset.trans hsub hsub'⟩

theorem newScope {parent : ScopeId} {role : ScopeRole} {node : Option NodeId}
    (hnew : t.newScope parent role node = .ok (id, t')) : t.Widens t' := fun _ scope hs =>
  ⟨scope, get?_newScope_of_some hnew hs, rfl, rfl, List.Subset.refl _⟩

theorem addBinding {b : Binding} (hadd : t.addBinding id b = .ok t') : t.Widens t' := by
  intro other scope hs
  rw [get?_addBinding hadd other]
  by_cases heq : other = id
  · rw [if_pos heq, ← heq, hs]
    exact ⟨_, rfl, rfl, rfl, List.subset_append_left _ _⟩
  · rw [if_neg heq]
    exact ⟨scope, hs, rfl, rfl, List.Subset.refl _⟩

/-- Scopes that are there stay there. -/
theorem size_le (h : t.Widens t') : t.size ≤ t'.size := by
  cases hsize : t.size with
  | zero => exact Nat.zero_le _
  | succ last =>
    have hlast : t.get? ⟨last⟩ = some _ := Array.getElem?_eq_getElem (by
      show last < t.scopes.size
      have : t.scopes.size = last + 1 := hsize
      omega)
    obtain ⟨scope', hs', -⟩ := h _ _ hlast
    exact (Array.getElem?_eq_some_iff.mp hs').1

end Widens

/-- What a name leads to is still there when more names are bound. -/
theorem Offers.mono (h : t.Offers m names id) (hw : t.Widens t') : t'.Offers m names id := by
  induction h with
  | item hs hrole hnames =>
    obtain ⟨scope', hs', hsame, -⟩ := hw _ _ hs
    exact .item hs' (by rwa [hsame]) hnames
  | binding hs hb hleads =>
    obtain ⟨scope', hs', -, -, hsub⟩ := hw _ _ hs
    exact .binding hs' (hsub hb) hleads
  | around hs hparent _ ih =>
    obtain ⟨scope', hs', -, hsame, -⟩ := hw _ _ hs
    exact .around hs' (hsame.trans hparent) ih

/-! ### Lookups -/

/-- A chain of scopes asks its first one, and goes on when that has no answer. -/
theorem firstAlong_cons {α : Type} (hs : t.get? id = some scope)
    (ask : ScopeId → Scope → Except Fault (Option α)) (rest : List ScopeId) :
    t.firstAlong ask (id :: rest) =
      match ask id scope with
      | .ok none => t.firstAlong ask rest
      | answer => answer := by
  rw [ScopeTree.firstAlong]
  generalize t.get? id = found at hs
  subst hs
  rfl

/-- A search that starts from a scope with an answer ends there. -/
theorem firstAlong_chain_of_answer {α : Type} {ask : ScopeId → Scope → Except Fault (Option α)}
    (hs : t.get? id = some scope) (hanswer : ask id scope ≠ .ok none) :
    t.firstAlong ask (t.chain id) = ask id scope := by
  obtain ⟨rest, hrest⟩ := List.head?_eq_some_iff.mp (head?_chain t id)
  rw [hrest, firstAlong_cons hs]
  split
  · rename_i hnone
    exact absurd hnone hanswer
  · rfl

/-- A search that starts from the outermost scope asks nothing else. -/
theorem firstAlong_chain_of_root {α : Type} (ask : ScopeId → Scope → Except Fault (Option α))
    (hs : t.get? id = some scope) (hparent : scope.parent = none) :
    t.firstAlong ask (t.chain id) = ask id scope := by
  rw [chain_of_root hs hparent, firstAlong_cons hs]
  split
  · rename_i hnone
    exact hnone.symm
  · rfl

/-- A search that starts from a scope without an answer goes on from the scope around it. -/
theorem Nested.firstAlong_chain_of_none {α : Type} {parent : ScopeId}
    {ask : ScopeId → Scope → Except Fault (Option α)} (hn : t.Nested) (hs : t.get? id = some scope)
    (hparent : scope.parent = some parent) (hnone : ask id scope = .ok none) :
    t.firstAlong ask (t.chain id) = t.firstAlong ask (t.chain parent) := by
  rw [hn.chain hs hparent, firstAlong_cons hs, hnone]

/-- A binding that leads a name is found, if no earlier one is. -/
theorem leadingBinding?_ne_none {b : Binding} {bindings : List Binding} (hb : b ∈ bindings)
    (hleads : m.leads b.names names = true) (start : Nat) :
    leadingBinding? m names start bindings ≠ none := by
  induction bindings generalizing start with
  | nil => cases hb
  | cons c rest ih =>
    unfold leadingBinding?
    split
    · exact Option.some_ne_none _
    · rename_i hnot
      rcases List.mem_cons.mp hb with rfl | hb
      · exact absurd hleads hnot
      · exact ih hb (start + 1)

/-- Whatever is found leads the name. -/
theorem leads_of_leadingBinding? {start : Nat} {bindings : List Binding} {found : Nat × Binding}
    (h : leadingBinding? m names start bindings = some found) : m.leads found.2.names names = true := by
  induction bindings generalizing start with
  | nil => cases h
  | cons b rest ih =>
    unfold leadingBinding? at h
    split at h
    · rename_i hleads
      cases h
      exact hleads
    · exact ih h

/-- A scope that binds something for a name does not leave the name to the scopes around it. -/
theorem tableIn_ne_none_of_binding {b : Binding} (hb : b ∈ scope.bindings)
    (hleads : m.leads b.names names = true) (path : Path) (sources : RowSources) :
    tableIn names m path sources id scope ≠ .ok none := by
  unfold tableIn
  split
  · exact nofun
  · exact nofun
  · intro hnone
    exact leadingBinding?_ne_none hb hleads 0 (Option.map_eq_none_iff.mp (Except.ok.inj hnone))

/-- Neither does a scope that shows an item under the name, be the item registered or not. -/
theorem tableIn_ne_none_of_item {item : NodeId} {shown : String}
    (hrole : scope.role = .withItem item shown ∨ scope.role = .recursiveItem item shown)
    (path : Path) (sources : RowSources) : tableIn [shown] m path sources id scope ≠ .ok none := by
  have hitem : itemMatch scope [shown] sources ≠ .ok none := by
    rcases hrole with hrole | hrole
    · rw [itemMatch_of_withItem hrole]
      exact itemNamed_self_ne_none
    · rw [itemMatch_of_recursiveItem hrole]
      exact itemNamed_self_ne_none
  unfold tableIn
  split
  · exact nofun
  · exact nofun
  · rename_i hnone
    exact absurd hnone hitem

/-- A lookup along a chain has the answer of the first scope that has one. -/
theorem firstAlong_chain_ne_none {α : Type} {ask : ScopeId → Scope → Except Fault (Option α)}
    (hn : t.Nested) (hs : t.get? id = some scope)
    (h : ask id scope ≠ .ok none ∨
      ∃ parent, scope.parent = some parent ∧ t.firstAlong ask (t.chain parent) ≠ .ok none) :
    t.firstAlong ask (t.chain id) ≠ .ok none := by
  by_cases hnone : ask id scope = .ok none
  · rcases h with h | ⟨parent, hparent, h⟩
    · exact absurd hnone h
    · rw [hn.firstAlong_chain_of_none hs hparent hnone]
      exact h
  · rw [firstAlong_chain_of_answer hs hnone]
    exact hnone

/-- A lookup of a name that leads to something does not come back with nothing. -/
theorem Offers.lookupTable_ne_none (h : t.Offers m names id) (hn : t.Nested) (path : Path)
    (sources : RowSources) : t.lookupTable id names m path sources ≠ .ok none := by
  induction h with
  | item hs hrole hnames =>
    subst hnames
    exact firstAlong_chain_ne_none hn hs (.inl (tableIn_ne_none_of_item hrole path sources))
  | binding hs hb hleads =>
    exact firstAlong_chain_ne_none hn hs (.inl (tableIn_ne_none_of_binding hb hleads path sources))
  | around hs hparent _ ih => exact firstAlong_chain_ne_none hn hs (.inr ⟨_, hparent, ih⟩)

/-- What a scope answers with, it shows or binds. -/
theorem Offers.of_tableIn {path : Path} {sources : RowSources} {found : TableMatch}
    (hs : t.get? id = some scope) (h : tableIn names m path sources id scope = .ok (some found)) :
    t.Offers m names id := by
  rcases tableIn_eq_some h with ⟨source, hitem, -⟩ | ⟨-, leading, hlead, -⟩
  · obtain ⟨item, shown, hnames, hrole⟩ := itemMatch_eq_some hitem
    exact .item hs (hrole.imp And.left And.left) hnames
  · exact .binding hs (Naming.mem_of_leadingBinding? hlead) (leads_of_leadingBinding? hlead)

/-- A lookup comes back only with what its name leads to. -/
theorem Offers.of_lookupTable {path : Path} {sources : RowSources} {found : TableMatch}
    (hn : t.Nested) (hs : t.get? id = some scope)
    (h : t.lookupTable id names m path sources = .ok (some found)) : t.Offers m names id := by
  -- The induction is on the number of scopes around the first one.
  induction hdepth : scope.depth using Nat.strongRecOn generalizing id scope with
  | _ depth ih =>
    unfold lookupTable at h
    cases hparent : scope.parent with
    | none =>
      rw [chain_of_root hs hparent, firstAlong_cons hs] at h
      split at h
      · cases h
      · exact .of_tableIn hs h
    | some parent =>
      obtain ⟨around, haround, hbelow⟩ := hn id scope parent hs hparent
      rw [hn.chain hs hparent, firstAlong_cons hs] at h
      split at h
      · exact .around hs hparent (ih around.depth (by omega) haround h rfl)
      · exact .of_tableIn hs h

end ScopeTree

/-! ### Environments -/

namespace Naming

variable {n : Naming} {ops : OperatorTable} {env env' : Env} {a c : NodeId}

/-- In the environment the name leads to an item, to an entry of a FROM list, or to a table. -/
def Offers (n : Naming) : Env → List String → Prop
  | [], names => ∃ b ∈ n.tables, n.matching.leads b.names names = true
  | .block select :: env, names =>
    (∃ entry ∈ n.sourcesOf select, n.answers names entry = true) ∨ Offers n env names
  | .item _ shown :: env, names | .recursive _ shown :: env, names => names = [shown] ∨ Offers n env names

/-- The second part, with what surrounds it, is validated for the first one. -/
def Part (n : Naming) (ops : OperatorTable) (x y : NodeId × Env) : Prop :=
  ∃ node, n.tree.node? x.1 = some node ∧
    (y ∈ n.tree.queryParts x.2 x.1 node ∨ y ∈ Tree.expressionParts ops x.2 node)

/-- The tables of a FROM list have names that the environment of their SELECT offers. -/
def FindsTables (n : Naming) (env : Env) (select : NodeId) : Prop :=
  ∀ entry ∈ n.sourcesOf select, ∀ name label, n.tree.node? entry = some (.tableRef name label) →
    n.Offers env name

/-- At the part and at all that are validated below it the tables of FROM lists have names that are
    offered. -/
def Resolved (n : Naming) (ops : OperatorTable) (env : Env) (a : NodeId) : Prop :=
  ∀ x, Relation.ReflTransGen (n.Part ops) (a, env) x → n.FindsTables x.2 x.1

theorem Resolved.findsTables (h : n.Resolved ops env a) : n.FindsTables env a := h _ .refl

theorem Resolved.part (h : n.Resolved ops env a) (hpart : n.Part ops (a, env) (c, env')) :
    n.Resolved ops env' c := fun x hx => h x (.head hpart hx)

/-- The parts of a cast are those of its operand, so casts around an expression do not matter. -/
theorem Resolved.peeled {ops' : OperatorTable} {t : Tree} {casts : List (NodeId × CastTarget)}
    {core : NodeId} (h : n.Resolved ops env a) (hp : Tree.Peeled ops' n.tree t a casts core)
    (hacyclic : ¬ Relation.TransGen n.tree.Child core core) : n.Resolved ops env core := by
  have hdown : ∀ x, n.tree.Below ops' x core → n.tree.Below ops' a x → n.Resolved ops env x →
      n.Resolved ops env core := by
    intro x hx
    induction hx using Relation.ReflTransGen.head_induction_on with
    | refl => exact fun _ hx => hx
    | @head x y hxy hy ih =>
      intro hax hx
      have hay : n.tree.Below ops' a y := hax.tail hxy
      rcases hp.rest x hax with hback | ⟨operand, target, implicit, hcast⟩
      · exact absurd (Relation.TransGen.trans_right (Tree.Below.child hback)
          (Relation.TransGen.head' hxy.child (Tree.Below.child hy))) hacyclic
      · obtain ⟨node, hn, hmem⟩ := hxy
        rw [hcast] at hn
        cases hn
        obtain rfl := List.mem_singleton.mp hmem
        exact ih hay (hx.part ⟨_, hcast, .inr (List.mem_singleton.mpr rfl)⟩)
  exact hdown a hp.below .refl h

/-- It is enough that the FROM list of the node itself is, and so are all parts. -/
theorem Resolved.of_node {node : Node} (hn : n.tree.node? a = some node)
    (htables : n.FindsTables env a)
    (hparts : ∀ x, x ∈ n.tree.queryParts env a node ∨ x ∈ Tree.expressionParts ops env node →
      n.Resolved ops x.2 x.1) : n.Resolved ops env a := by
  intro x hx
  rcases Relation.ReflTransGen.cases_head hx with heq | ⟨y, ⟨node', hn', hy⟩, hrest⟩
  · exact heq ▸ htables
  · obtain rfl := Option.some.inj (hn.symm.trans hn')
    exact hparts y hy x hrest

/-- Only a SELECT has a FROM list. -/
theorem findsTables_of_not_select {node : Node} (hn : n.tree.node? a = some node)
    (hselect : ∀ block, node ≠ .select block) : n.FindsTables env a := by
  intro entry hentry
  obtain ⟨block, hblock, -⟩ := exists_of_mem_sourcesOf hentry
  exact absurd (Option.some.inj (hn.symm.trans hblock)) (hselect block)

/-- Written casts around an expression add no parts of their own. -/
theorem Resolved.of_peeled {ops' : OperatorTable} {t : Tree} {casts : List (NodeId × CastTarget)}
    {core : NodeId} (h : n.Resolved ops env core) (hp : Tree.Peeled ops' n.tree t a casts core)
    (hacyclic : ¬ Relation.TransGen n.tree.Child core core) : n.Resolved ops env a := by
  have hup : ∀ x, n.tree.Below ops' x core → n.tree.Below ops' a x → n.Resolved ops env x := by
    intro x hx
    induction hx using Relation.ReflTransGen.head_induction_on with
    | refl => exact fun _ => h
    | @head x y hxy hy ih =>
      intro hax
      rcases hp.rest x hax with hback | ⟨operand, target, implicit, hcast⟩
      · exact absurd (Relation.TransGen.trans_right (Tree.Below.child hback)
          (Relation.TransGen.head' hxy.child (Tree.Below.child hy))) hacyclic
      · have hy := ih (hax.tail hxy)
        obtain ⟨node, hn, hmem⟩ := hxy
        rw [hcast] at hn
        cases hn
        obtain rfl := List.mem_singleton.mp hmem
        refine .of_node hcast (findsTables_of_not_select hcast nofun) fun z hz => ?_
        rcases hz with hz | hz
        · cases hz
        · obtain rfl := List.mem_singleton.mp hz
          exact hy
  exact hup a hp.below .refl

end Naming

end SqlTyping
