import SqlTyping.Proofs.Session.Inlining
import SqlTyping.Proofs.Session.QueryRecency

namespace SqlTyping

/-!
# FROM lists

The entries of the FROM list at the top of a statement do not see each other. Each of them is bound, or
refused, as if it were the only one:

* `Session.TopSelect` — a SELECT over a tree, in a session between two requests;
* `FromItem`, `Session.Yields` — what an entry stands for when nothing else has been bound;
* `FromItem.IsBound` — a name is bound to that;
* `Session.HasBound` — since a session the scope of a SELECT has been added and a list of entries bound;
* `Session.HasBound.bindSource`, `Session.HasBound.yields_of_bindSource` — one more entry is bound exactly
  when it stands for something by itself;
* `Session.HasBound.bindSources` — so a whole list is bound when all of its entries do.
-/

open Checking

/-- Between two requests there is a SELECT with a tree below it. The ranks get smaller downwards. -/
structure Session.TopSelect (s : Session) (select : NodeId) (block : SelectBlock)
    (rank : NodeId → Nat) : Prop where
  grounded : s.Grounded
  isTree : s.tree.IsTreeAt select
  node : s.tree.node? select = some (.select block)
  ranked : ∀ p c, s.Reach select p → s.tree.Child p c → rank c < rank p
  bound : rank select < s.tree.size

/-- What an entry of a FROM list stands for. -/
inductive FromItem where
  /-- A table of the catalog under a name. -/
  | table (exposed : String) (source : SourceId)
  /-- The rows of a query under a name. -/
  | query (label : String) (row : DataType)

/-- The name under which it can be referred to. -/
def FromItem.name : FromItem → String
  | table exposed _ => exposed
  | query label _ => label

/-- At the top of the statement the entry stands for something by itself: its table is in the catalog, or
    its query has a row type. -/
inductive Session.Yields (s : Session) (entry : NodeId) : FromItem → Prop
  | table {name : List String} {label : Option String} {exposed : String} {found : TableMatch}
    (hn : s.tree.node? entry = some (.tableRef name label))
    (hfound : s.scopes.requireTable ScopeTree.rootId name s.settings.matching s.sources = .ok found)
    (hremaining : found.remaining = []) (hexposed : exposedName? name label = some exposed) :
    Yields s entry (.table exposed found.source)
  | query {query : NodeId} {label : String} {row : DataType}
    (hn : s.tree.node? entry = some (.subqueryRef query label))
    (hquery : (Session.validateQuery query s).1 = .ok row) : Yields s entry (.query label row)

/-- From `s` to `u` the entry has got a row source of its own, and its row type has been recorded. -/
structure Session.Introduces (s u : Session) (entry : NodeId) (row : DataType) (source : SourceId) :
    Prop where
  new : s.sources.size ≤ source.index
  get? : ∃ enclosing, u.sources.get? source = some ⟨some entry, .query, row, enclosing⟩
  item : u.sources.ofNode? entry = some source
  type : u.types.get? entry = some row

/-- From `s` to `u` the name has been bound to what the entry stands for: to a table that was there before,
    or to a row source of its own. -/
inductive FromItem.IsBound (s u : Session) (entry : NodeId) : FromItem → Binding → Prop
  | table {exposed : String} {source : SourceId} {e : RowSource}
    (he : s.sources.get? source = some e) (he' : u.sources.get? source = some e)
    (hnode : e.node = none) : IsBound s u entry (.table exposed source) ⟨[exposed], source, false⟩
  | query {label : String} {row : DataType} {source : SourceId} (h : s.Introduces u entry row source) :
    IsBound s u entry (.query label row) ⟨[label], source, false⟩

/-- From `s` to `u` the entry has been bound to what it stands for by itself. -/
def Session.BindsEntry (s u : Session) (entry : NodeId) (b : Binding) : Prop :=
  ∃ item, s.Yields entry item ∧ item.IsBound s u entry b

/-- Since `s` the scope of a SELECT at the top has been added, and in it the entries `done` have been
    bound, each to what it stands for by itself. -/
structure Session.HasBound (s : Session) (select : NodeId) (done : List NodeId) (u : Session) : Prop where
  confined : s.Confined (s.Under done) (s.Under done) s u
  grows : s.sources.Grows u.sources
  shows : ∃ bindings depth, u.scopes.get? s.scopes.nextId =
      some ⟨some ScopeTree.rootId, .block, some select, bindings, depth⟩ ∧
    List.Forall₂ (s.BindsEntry u) done bindings

/-! ### What entries stand for -/

section

variable {s u u' : Session} {own : NodeId → Prop} {entry : NodeId} {item : FromItem} {b : Binding}

/-- Tables are found in the catalog alike whatever has been validated. -/
theorem Session.Grounded.requireTable_eq (h : s.Grounded) (hc : s.Confined own own s u)
    (name : List String) :
    u.scopes.requireTable ScopeTree.rootId name u.settings.matching u.sources =
      s.scopes.requireTable ScopeTree.rootId name s.settings.matching s.sources := by
  obtain ⟨root, hroot, hrole, hparent, htables⟩ := h.root
  have hroot' := hc.scopes _ _ hroot
  have hitem : ∀ sources, ScopeTree.itemMatch root name sources = .ok none := fun _ =>
    ScopeTree.itemMatch_of_catalog hrole
  have hsame : ScopeTree.tableIn name s.settings.matching .empty u.sources ScopeTree.rootId root =
      ScopeTree.tableIn name s.settings.matching .empty s.sources ScopeTree.rootId root := by
    rw [ScopeTree.tableIn_of_not_shown (hitem _), ScopeTree.tableIn_of_not_shown (hitem _)]
    cases hl : ScopeTree.leadingBinding? s.settings.matching name 0 root.bindings with
    | none => rfl
    | some found =>
      -- The rows of a table do not change.
      obtain ⟨e, he, hnode⟩ := htables _ (Naming.mem_of_leadingBinding? hl)
      simp only [Option.map_some, ScopeTree.boundTable, RowSources.rowOrEmpty, RowSources.row?, he,
        hc.table he hnode]
  unfold ScopeTree.requireTable ScopeTree.lookupTable
  rw [hc.continues.settings, ScopeTree.chain_of_root hroot hparent,
    ScopeTree.chain_of_root hroot' hparent, ScopeTree.firstAlong_cons hroot,
    ScopeTree.firstAlong_cons hroot', hsame]
  rfl

/-- What is found there is a table. -/
theorem Session.Grounded.get?_of_requireTable (h : s.Grounded) {name : List String}
    {found : TableMatch} (hfound : s.scopes.requireTable ScopeTree.rootId name s.settings.matching
      s.sources = .ok found) : ∃ e, s.sources.get? found.source = some e ∧ e.node = none := by
  obtain ⟨root, hroot, hrole, hparent, htables⟩ := h.root
  obtain ⟨id, hmem, around, haround, hholds⟩ := ScopeTree.exists_holds_of_requireTable hfound
  rw [ScopeTree.chain_of_root hroot hparent] at hmem
  obtain rfl := List.mem_singleton.mp hmem
  obtain rfl := Option.some.inj (hroot.symm.trans haround)
  rcases hholds with hshown | ⟨b, hb, hsource⟩
  · rw [hrole] at hshown
    cases hshown
  · exact hsource ▸ htables b hb

/-- An entry is referred to by the name that it has in the text. -/
theorem Session.Yields.exposed (h : s.Yields entry item) (tables : List Binding) (m : NameMatching) :
    Naming.exposed? ⟨s.tree, tables, m⟩ entry = some item.name := by
  unfold Naming.exposed?
  cases h with
  | table hn _ _ hexposed => simp only [hn, hexposed, FromItem.name]
  | query hn _ => simp only [hn, FromItem.name]

namespace FromItem.IsBound

/-- The name of a query is bound to a row source of its own. -/
theorem introduces {label : String} {row : DataType}
    (h : FromItem.IsBound s u entry (.query label row) b) : s.Introduces u entry row b.source := by
  cases h with
  | query h => exact h

variable (h : item.IsBound s u entry b)

include h

theorem names_eq : b.names = [item.name] := by
  cases h with
  | table => rfl
  | query => rfl

/-- What is validated below other nodes leaves it bound. -/
theorem confined (hc : s.Confined own own u u') (hentry : ¬ own entry)
    (hlt : entry.index < s.tree.size) : item.IsBound s u' entry b := by
  cases h with
  | table he he' hnode => exact .table he (hc.table he' hnode) hnode
  | query h =>
    obtain ⟨enclosing, he⟩ := h.get?
    refine .query ⟨h.new, ⟨enclosing, hc.sources _ _ he fun node hn => ?_⟩,
      (hc.item entry hentry).trans h.item, (hc.types entry entry hlt hentry .self).trans h.type⟩
    exact Option.some.inj hn ▸ hentry

theorem onScopes (scopes : ScopeTree) : item.IsBound s { u with scopes } entry b := by
  cases h with
  | table he he' hnode => exact .table he he' hnode
  | query h => exact .query ⟨h.new, h.get?, h.item, h.type⟩

/-- What the name is bound to is there. -/
theorem get? : ∃ e, u.sources.get? b.source = some e := by
  cases h with
  | table _ he' _ => exact ⟨_, he'⟩
  | query h => exact h.get?.imp' _ fun _ he => he

end FromItem.IsBound

end

/-! ### The SELECT -/

namespace Session.TopSelect

variable {s u : Session} {select : NodeId} {block : SelectBlock} {rank : NodeId → Nat}
  {entry query : NodeId} {done : List NodeId} {label : String}
  (h : s.TopSelect select block rank)

include h

theorem isClosed : s.tree.IsClosed (s.Reach select) :=
  h.grounded.closed.isClosed_reach (Tree.lt_size_of_node? h.node)

theorem child_of_mem (hentry : entry ∈ block.sources) : s.tree.Child select entry :=
  ⟨_, h.node, by simp [Node.children, hentry]⟩

/-- What is below some of the entries. -/
theorem isClosed_under (hdone : done ⊆ block.sources) : s.tree.IsClosed (s.Under done) :=
  Journal.isClosed_under h.isClosed fun _ hc => .single (h.child_of_mem (hdone hc))

/-- What is below an entry is not below others. -/
theorem not_under (hentry : entry ∈ block.sources) (hdone : done ⊆ block.sources)
    (hnot : entry ∉ done) {x : NodeId} (hx : s.Reach entry x) : ¬ s.Under done x := by
  rintro ⟨c, hc, hcx⟩
  refine h.isTree.siblings_apart h.isClosed .refl (h.child_of_mem hentry)
    (h.child_of_mem (hdone hc)) ?_ hx hcx
  rintro rfl
  exact hnot hc

/-- A query of the FROM list does not see what has been bound before. It comes to the same as by itself. -/
theorem query_eq (hentry : entry ∈ block.sources) (hdone : done ⊆ block.sources) (hnot : entry ∉ done)
    (hn : s.tree.node? entry = some (.subqueryRef query label))
    (hc : s.Confined (s.Under done) (s.Under done) s u) (hg : s.sources.Grows u.sources) (more : Nat) :
    ((visitAt (s.tree.size + more)).query ScopeTree.rootId query u).1 =
      ((visitAt s.tree.size).query ScopeTree.rootId query s).1 := by
  have hs := h.grounded
  have hselect := h.child_of_mem hentry
  have hchild : s.tree.Child entry query := ⟨_, hn, List.mem_singleton_self query⟩
  have hbelow : ∀ {x}, s.Reach entry x → s.Reach select x := fun hx => .head hselect hx
  have hbeside := hs.beside (hs.closed.isClosed_reach (Tree.lt_size_of_node? hn))
    (fun _ hx => h.not_under hentry hdone hnot hx) hc hg
  have hroom : Tree.HasRoom (s.Reach entry) rank s.tree.size query := by
    have hentry := h.ranked _ _ .refl hselect
    have hquery := h.ranked _ _ (.single hselect) hchild
    have hbound := h.bound
    exact ⟨.single hchild, by omega⟩
  exact hbeside.query_eq (fun id hid => h.isTree.acyclic id (hbelow hid))
    (fun p c hp => h.ranked p c (hbelow hp)) rfl hroom more

/-- It is validated by itself with more depth. -/
theorem validateQuery_eq (hentry : entry ∈ block.sources)
    (hn : s.tree.node? entry = some (.subqueryRef query label)) :
    (Session.validateQuery query s).1 =
      ((visitAt s.tree.size).query ScopeTree.rootId query s).1 := by
  have hnone : s.Confined (s.Under []) (s.Under []) s s := .refl h.grounded.continues h.grounded.owned
  exact h.query_eq hentry (List.nil_subset _) List.not_mem_nil hn hnone (.refl _) 1

end Session.TopSelect

/-! ### Binding entries -/

/-- A node gets a row source of its own, with the rows of a query, and their type. -/
theorem Session.Continues.derive {b t : Session} {entry : NodeId} {enclosing : Option NodeId}
    {row : DataType} {sources : RowSources} (hs : b.Continues t) (howned : t.sources.Owned)
    (hlt : entry.index < b.tree.size)
    (hset : (t.sources.register entry .query enclosing).2.setRow t.sources.nextId row = .ok sources) :
    b.Confined (· = entry) (fun _ => False) t { t with sources, types := t.types.put entry row } ∧
      sources.get? t.sources.nextId = some ⟨some entry, .query, row, enclosing⟩ ∧
        sources.ofNode? entry = some t.sources.nextId := by
  have hregistered : b.Confined (· = entry) (fun _ => False) t _ := hs.register howned .query enclosing
  obtain ⟨hrow, he, -⟩ := hregistered.continues.setRow hregistered.owned
    (RowSources.get?_register_self ..) rfl hset
  have hsources := hregistered.trans hrow
  refine ⟨hsources.trans (.record hsources.continues hsources.owned row
    (Nat.lt_of_lt_of_le hlt hs.rewrites.rewritten.size_le) fun a _ hw => hw.eq_of_lt hlt), he, ?_⟩
  rw [RowSources.ofNode?_of_setRow hset]
  exact (RowSources.ofNode?_register ..).trans (if_pos rfl)

namespace Session.HasBound

variable {s u u' : Session} {select : NodeId} {block : SelectBlock} {rank : NodeId → Nat}
  {entry query : NodeId} {done rest : List NodeId} {item : FromItem}

/-- At first only the scope has been added. -/
theorem nil (hs : s.Grounded) {scope : ScopeId} {scopes : ScopeTree}
    (hnew : s.scopes.newBlock ScopeTree.rootId (some select) = .ok (scope, scopes)) :
    scope = s.scopes.nextId ∧ s.HasBound select [] { s with scopes } := by
  obtain ⟨rfl, around, -, hget⟩ := ScopeTree.get?_newScope hnew
  refine ⟨rfl, .of_same hs.continues rfl rfl rfl rfl rfl (.newScope hnew) (·.newScope hnew)
    (fun _ _ he _ => he) (fun _ _ => rfl) (fun _ _ => rfl) hs.owned, .refl _,
    ⟨_, _, (hget _).trans (if_pos rfl), .nil⟩⟩

variable (hselect : s.TopSelect select block rank) (h : s.HasBound select done u)

include h

theorem lt_size : s.scopes.nextId.index < u.scopes.size := by
  obtain ⟨_, _, hget, -⟩ := h.shows
  exact ScopeTree.lt_size_of_get? hget

theorem root_lt (hs : s.Grounded) : ScopeTree.rootId.index < u.scopes.size :=
  Nat.lt_of_lt_of_le hs.root_lt h.confined.scopes.size_le

include hselect

section

variable (hentry : entry ∈ block.sources) (hdone : done ⊆ block.sources) (hnot : entry ∉ done)

include hentry hdone hnot

/-- An entry has been dealt with, and its name is bound. -/
theorem bindName (hc : s.Confined (s.Reach entry) (s.Reach entry) u u') (hg : u.sources.Grows u'.sources)
    (hyields : s.Yields entry item) {b : Binding} (hbound : item.IsBound s u' entry b)
    {scopes : ScopeTree} (hadd : u'.scopes.addBinding s.scopes.nextId b = .ok scopes) :
    s.HasBound select (done ++ [entry]) { u' with scopes } := by
  have hclosed := hselect.isClosed_under
    (List.append_subset.mpr ⟨hdone, List.cons_subset.mpr ⟨hentry, List.nil_subset _⟩⟩)
  have hunder : ∀ x, s.Under done x → s.Under (done ++ [entry]) x := fun _ hx =>
    hx.mono fun _ hc => List.mem_append_left _ hc
  have hreach : ∀ x, s.Reach entry x → s.Under (done ++ [entry]) x := fun _ hx =>
    Session.under_of_reach (List.mem_append_right _ (List.mem_singleton_self _)) hx
  obtain ⟨e, he⟩ := hbound.get?
  refine ⟨?_, h.grows.trans hg, ?_⟩
  · refine (Session.Confined.upholds (b := s) (s := s) hselect.grounded.closed hclosed.lt_size
      hclosed.child).addBinding ((h.confined.mono hunder hunder).trans (hc.mono hreach hreach))
      (Nat.le_refl _) (.inl ?_) hadd
    rw [he]
    rfl
  · obtain ⟨bindings, depth, hget, hbindings⟩ := h.shows
    refine ⟨bindings ++ [b], depth, ?_,
      List.rel_append ?_ (.cons ⟨item, hyields, hbound.onScopes scopes⟩ .nil)⟩
    · show scopes.get? _ = _
      rw [ScopeTree.get?_addBinding hadd, if_pos rfl, hc.scopes _ _ hget]
      rfl
    · have hother : ∀ c ∈ done, ¬ s.Reach entry c ∧ c.index < s.tree.size := fun c hc =>
        ⟨fun hr => hselect.not_under hentry hdone hnot hr ⟨c, hc, .refl⟩,
          hselect.isClosed.lt_size c (.single (hselect.child_of_mem (hdone hc)))⟩
      refine ((List.forall₂_and_left _ _).mpr ⟨hother, hbindings⟩).imp ?_
      rintro c b ⟨⟨hapart, hlt⟩, found, hfound, hb⟩
      exact ⟨found, hfound, (hb.confined hc hapart hlt).onScopes scopes⟩

/-- A table that is found is bound. -/
theorem bindTable {name : List String} {label : Option String} {exposed : String} {found : TableMatch}
    (hn : s.tree.node? entry = some (.tableRef name label))
    (hfound : s.scopes.requireTable ScopeTree.rootId name s.settings.matching s.sources = .ok found)
    (hremaining : found.remaining = []) (hexposed : exposedName? name label = some exposed) :
    ∃ u', SqlTyping.bindTable ScopeTree.rootId s.scopes.nextId entry name label u = (.ok (), u') ∧
      s.HasBound select (done ++ [entry]) u' := by
  have hs := h.confined.continues
  have hyields : s.Yields entry _ := .table hn hfound hremaining hexposed
  obtain ⟨e, he, hnode⟩ := hselect.grounded.get?_of_requireTable hfound
  have he' := h.confined.table he hnode
  have hrow : u.sources.row? found.source = some e.row := RowSources.row?_of_get? he'
  have hfound' := (hselect.grounded.requireTable_eq h.confined name).trans hfound
  obtain ⟨scopes, hadd⟩ : ∃ scopes, u.scopes.addBinding s.scopes.nextId ⟨[exposed], found.source, false⟩ =
      .ok scopes := ⟨_, if_pos h.lt_size⟩
  let listed : Session := { u with selfReferences := u.listing entry found.source }
  have hlisted : s.Confined (s.Reach entry) (s.Reach entry) u listed :=
    .of_same hs rfl rfl rfl rfl rfl (.refl _) id (fun _ _ he _ => he) (fun _ _ => rfl)
      (fun _ _ => rfl) h.confined.owned
  have hlt : entry.index < s.tree.size := Tree.lt_size_of_node? hn
  have hc : s.Confined (s.Reach entry) (s.Reach entry) u
      { listed with types := u.types.put entry e.row } := by
    refine hlisted.trans (.record hlisted.continues hlisted.owned e.row
      (Nat.lt_of_lt_of_le hlt hs.rewrites.rewritten.size_le) fun a _ hw => ?_)
    rw [hw.eq_of_lt hlt]
  refine ⟨_, ?_, h.bindName hselect hentry hdone hnot hc (.refl _) hyields
    (.table he he' hnode) hadd⟩
  rw [bindTable_of_found hfound' hremaining hexposed, hrow]
  simp only [Validation.bindName, Validation.onScopes, hadd, Except.map, Option.elim_some, listed]

/-- A query that has a row type is bound to a row source of its own. -/
theorem bindSubquery {label : String} {row : DataType}
    (hn : s.tree.node? entry = some (.subqueryRef query label))
    (hquery : (Session.validateQuery query s).1 = .ok row) :
    ∃ u', SqlTyping.bindSource (visitAt s.tree.size) ScopeTree.rootId s.scopes.nextId select entry u =
      (.ok (), u') ∧ s.HasBound select (done ++ [entry]) u' := by
  have hs := h.confined.continues
  have hclosed := hselect.grounded.closed
  have hlt : entry.index < s.tree.size := Tree.lt_size_of_node? hn
  have hown : s.tree.IsClosed (s.Reach entry) := hclosed.isClosed_reach hlt
  have hanswer : ((visitAt s.tree.size).query ScopeTree.rootId query u).1 = .ok row := by
    rw [← hquery, hselect.validateQuery_eq hentry hn]
    exact hselect.query_eq hentry hdone hnot hn h.confined h.grows 0
  have hgoes := ((visitAt_confined hclosed hown.lt_size hown.child s.tree.size).query
    ⟨.refl hs.rewrites, .refl hs h.confined.owned⟩
    (.single ⟨_, hn, List.mem_singleton_self query⟩) (h.root_lt hselect.grounded)).rel
  cases hrun : (visitAt s.tree.size).query ScopeTree.rootId query u with
  | mk answer t =>
    rw [hrun] at hanswer hgoes
    obtain rfl : answer = .ok row := hanswer
    have hc : s.Confined (s.Reach entry) (s.Reach entry) u t := hgoes.2
    obtain ⟨sources, hset⟩ : ∃ sources, (t.sources.register entry .query (some select)).2.setRow
        t.sources.nextId row = .ok sources :=
      ⟨_, if_pos (by rw [RowSources.size_register]; exact Nat.lt_succ_self _)⟩
    obtain ⟨scopes, hadd⟩ : ∃ scopes, t.scopes.addBinding s.scopes.nextId
        ⟨[label], t.sources.nextId, false⟩ = .ok scopes :=
      ⟨_, if_pos (Nat.lt_of_lt_of_le h.lt_size hc.scopes.size_le)⟩
    obtain ⟨hderived, he, hitem⟩ := hc.continues.derive hc.owned hlt hset
    have hgrows : u.sources.Grows sources :=
      (hgoes.1.sources.trans (.register _ _ _ _)).trans (.of_setRow hset)
    have hall := hc.trans (hderived.mono (by rintro _ rfl; exact .refl) fun _ h => h.elim)
    exact ⟨_, bindSource_of_query (hs.rewrites.rewritten.other entry _ hn rfl) hrun hset hadd,
      h.bindName hselect hentry hdone hnot hall hgrows (.query hn hquery)
        (.query ⟨(h.grows.trans hgoes.1.sources).size_le, ⟨_, he⟩, hitem,
          (OrderedMap.get?_put _ _ _ _).trans (if_pos rfl)⟩) hadd⟩

/-- An entry is bound when it stands for something by itself. -/
theorem bindSource (hyields : s.Yields entry item) :
    ∃ u', SqlTyping.bindSource (visitAt s.tree.size) ScopeTree.rootId s.scopes.nextId select entry u =
      (.ok (), u') ∧ s.HasBound select (done ++ [entry]) u' := by
  cases hyields with
  | table hn hfound hremaining hexposed =>
    have hn' := h.confined.continues.rewrites.rewritten.other entry _ hn rfl
    unfold SqlTyping.bindSource
    rw [Host.lift_self, bind_of_ok (node_of_some hn')]
    exact h.bindTable hselect hentry hdone hnot hn hfound hremaining hexposed
  | query hn hquery => exact h.bindSubquery hselect hentry hdone hnot hn hquery

/-- Otherwise it is refused. -/
theorem yields_of_bindSource (hok : SqlTyping.bindSource (visitAt s.tree.size) ScopeTree.rootId
      s.scopes.nextId select entry u = (.ok (), u')) : ∃ item, s.Yields entry item := by
  unfold SqlTyping.bindSource at hok
  obtain ⟨node, t, hnode, hok⟩ := bind_eq_ok_iff.mp hok
  obtain ⟨rfl, hn⟩ := node_eq_ok hnode
  cases node with
  | tableRef name label =>
    have hwritten := h.confined.continues.rewrites.node?_of_isClause hn rfl
    rcases bindTable_cases ScopeTree.rootId s.scopes.nextId entry name label t with
      ⟨e, he⟩ | ⟨found, hfound, hremaining, ⟨-, -, e, he⟩ | ⟨exposed, -, hexposed, -⟩⟩
    · cases he.symm.trans hok
    · cases he.symm.trans (congrArg Prod.fst hok)
    · rw [hselect.grounded.requireTable_eq h.confined] at hfound
      exact ⟨_, .table hwritten hfound hremaining hexposed⟩
  | subqueryRef query label =>
    have hwritten := h.confined.continues.rewrites.node?_of_isClause hn rfl
    obtain ⟨row, t', hquery, -⟩ := bind_eq_ok_iff.mp hok
    have hanswer : (Session.validateQuery query s).1 = .ok row := by
      rw [hselect.validateQuery_eq hentry hwritten,
        ← hselect.query_eq hentry hdone hnot hwritten h.confined h.grows 0]
      exact congrArg Prod.fst hquery
    exact ⟨_, .query hwritten hanswer⟩
  | _ => cases hok

end

/-- A list is bound when all of its entries stand for something. -/
theorem bindSources (hrest : rest ⊆ block.sources) (hdone : done ⊆ block.sources)
    (hnodup : (done ++ rest).Nodup) (hyields : ∀ entry ∈ rest, ∃ item, s.Yields entry item) :
    ∃ u', rest.forM (SqlTyping.bindSource (visitAt s.tree.size) ScopeTree.rootId s.scopes.nextId select)
      u = (.ok (), u') ∧ s.HasBound select (done ++ rest) u' := by
  induction rest generalizing done u with
  | nil => exact ⟨u, rfl, by rwa [List.append_nil]⟩
  | cons entry rest ih =>
    obtain ⟨hentry, hrest⟩ := List.cons_subset.mp hrest
    have hnot : entry ∉ done := fun hmem =>
      (List.nodup_append.mp hnodup).2.2 entry hmem entry (List.mem_cons_self ..) rfl
    obtain ⟨item, hitem⟩ := hyields entry (List.mem_cons_self ..)
    obtain ⟨t, hone, hnext⟩ := h.bindSource hselect hentry hdone hnot hitem
    have happend : done ++ [entry] ++ rest = done ++ entry :: rest := by simp
    obtain ⟨u', hall, hlast⟩ := ih hnext hrest
      (List.append_subset.mpr ⟨hdone, List.cons_subset.mpr ⟨hentry, List.nil_subset _⟩⟩)
      (by rwa [happend]) fun other ho => hyields other (List.mem_cons_of_mem _ ho)
    rw [happend] at hlast
    exact ⟨u', (bind_of_ok hone _).trans hall, hlast⟩

/-- Otherwise it is refused. -/
theorem yields_of_bindSources (hrest : rest ⊆ block.sources) (hdone : done ⊆ block.sources)
    (hnodup : (done ++ rest).Nodup) (hok : rest.forM (SqlTyping.bindSource (visitAt s.tree.size)
      ScopeTree.rootId s.scopes.nextId select) u = (.ok (), u')) :
    ∀ entry ∈ rest, ∃ item, s.Yields entry item := by
  induction rest generalizing done u with
  | nil =>
    intro entry hentry
    cases hentry
  | cons entry rest ih =>
    obtain ⟨hentry, hrest⟩ := List.cons_subset.mp hrest
    have hnot : entry ∉ done := fun hmem =>
      (List.nodup_append.mp hnodup).2.2 entry hmem entry (List.mem_cons_self ..) rfl
    have hok : (SqlTyping.bindSource (visitAt s.tree.size) ScopeTree.rootId s.scopes.nextId select entry
      >>= fun _ => rest.forM _) u = (.ok (), u') := hok
    obtain ⟨_, t, hone, hok⟩ := bind_eq_ok_iff.mp hok
    obtain ⟨item, hitem⟩ := h.yields_of_bindSource hselect hentry hdone hnot hone
    obtain ⟨t', hone', hnext⟩ := h.bindSource hselect hentry hdone hnot hitem
    obtain rfl : t' = t := congrArg Prod.snd (hone'.symm.trans hone)
    have happend : done ++ [entry] ++ rest = done ++ entry :: rest := by simp
    have hall := ih hnext hrest
      (List.append_subset.mpr ⟨hdone, List.cons_subset.mpr ⟨hentry, List.nil_subset _⟩⟩)
      (by rwa [happend]) hok
    intro other hother
    rcases List.mem_cons.mp hother with rfl | hother
    · exact ⟨item, hitem⟩
    · exact hall other hother

end Session.HasBound

end SqlTyping
