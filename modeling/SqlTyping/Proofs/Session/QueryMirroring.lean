import SqlTyping.Proofs.Session.Mirroring

namespace SqlTyping

/-!
# Queries that mirror each other

The steps of a query, one lemma for each, as in the lemmas about guarded validations:

* `Visit.Mirrors.bindSource` — an entry of a FROM list is bound alike;
* `Visit.Mirrors.selectRow`, `Visit.Mirrors.bindWithItem` and so on — the kinds of queries;
* `Visit.Mirrors.queryStep` — when what lies below a query is validated alike, so is the query.
-/

open Checking

variable {ρ : Renumbering} {N : Naming} {own : NodeId → Prop} {rank : NodeId → Nat}

/-! ### Tables that are found -/

namespace Renumbering.FindsBelow

variable {s : Session} {scope : ScopeId} {id c : NodeId} {node : Node}

/-- The table of an entry of a FROM list is found. -/
theorem table (h : ρ.FindsBelow N s scope id) {entry : NodeId} (hentry : entry ∈ N.sourcesOf id)
    {name : List String} {label : Option String}
    (hn : N.tree.node? entry = some (.tableRef name label)) :
    ρ.Finds N s scope fun _ env => N.Offers env name :=
  h.imp fun _ hresolved => hresolved.findsTables entry hentry name label hn

/-- So are the tables of what is validated below, where the surroundings are the same. -/
theorem part (h : ρ.FindsBelow N s scope id) (hn : N.tree.node? id = some node)
    (hc : ∀ env, (c, env) ∈ N.tree.queryParts env id node ∨
      (c, env) ∈ Tree.expressionParts s.operators env node) : ρ.FindsBelow N s scope c :=
  h.imp fun env hresolved => hresolved.part ⟨node, hn, hc env⟩

end Renumbering.FindsBelow

section

variable {s t : Session} {depth : Nat} {v v' : Visit} {id : NodeId} {scope parent : ScopeId}

namespace Renumbering.Suits

variable (hρ : ρ.Suits N.tree own rank) (hs : Session.Goes N.tree Session.OwnsSources s s)
  (hm : Session.Mirrors ρ own s t)

include hρ hm

/-- The type of a node of the part is recorded. -/
theorem record (hid : own id) (type : DataType) :
    EndAlike (Session.Mirrors ρ own) Eq s t (Validation.record id type)
      (Validation.record id type) := by
  have h := hm.record id type
  rwa [hρ.node_eq hid] at h

include hs

/-- A node of the part is read. -/
theorem node {α β : Type} {Q : α → β → Prop} {f : Node → Validation α} {g : Node → Validation β}
    (hid : own id) (hfg : ∀ n, s.tree.node? id = some n →
      EndAlike (Session.Mirrors ρ own) Q s t (f n) (g (n.renumber ρ.nodes.node))) :
    EndAlike (Session.Mirrors ρ own) Q s t (Validation.node id >>= f)
      (Validation.node id >>= g) := by
  have hlt := Nat.lt_of_lt_of_le (hρ.isClosed.lt_size id hid) hs.1.rewrites.1.rewritten.size_le
  obtain ⟨n, hn⟩ := Option.isSome_iff_exists.mp (Tree.isSome_node?_iff.mpr hlt)
  have hn' : t.tree.node? id = some (n.renumber ρ.nodes.node) := by
    have hsame := hm.tree.node? id (.inl hid)
    rwa [hρ.node_eq hid, hn] at hsame
  exact (hfg n hn).of_apply (bind_of_ok (node_of_some hn) f) (bind_of_ok (node_of_some hn') g)

omit hm in
/-- A clause is the same in both sessions. -/
theorem written {n : Node} (hid : own id) (hn : s.tree.node? id = some n) (hclause : n.isClause = true) :
    N.tree.node? id = some n ∧ n.renumber ρ.nodes.node = n := by
  have hwritten := hs.1.rewrites.1.node?_of_isClause hn hclause
  exact ⟨hwritten, hρ.renumber_eq hid hwritten⟩

omit hs hm in
/-- Nothing but the node itself wraps a node of the part, so its tables are found. -/
theorem finds_wrapped (hid : own id) (h : ρ.FindsBelow N s scope id) :
    ρ.FindsWrapped N own s scope id := by
  intro a _ hw
  rw [hw.eq_of_lt (hρ.isClosed.lt_size id hid)]
  exact h

omit hs in
/-- A table of a FROM list is bound. -/
theorem bindTable (hid : Tree.HasRoom own rank depth id) {name : List String} {label : Option String}
    (hparent : s.scopes.Visible ρ.scopes parent) (hscope : s.scopes.Visible ρ.scopes scope)
    (hinner : ρ.scopes.left ≤ scope.index)
    (hname : ρ.Finds N s parent fun _ env => N.Offers env name) :
    EndAlike (Session.Mirrors ρ own) Eq s t (SqlTyping.bindTable parent scope id name label)
      (SqlTyping.bindTable (ρ.scopes.scope parent) (ρ.scopes.scope scope) id name label) := by
  obtain ⟨hfound, hholds⟩ := hm.requireTable hparent name (hname.lookup hm.scopes.nested)
  rw [bindTable_eq, bindTable_eq]
  refine .state_bind (.ofExcept_bind hm (TableMatch.renumber ρ) hfound fun found hok => ?_)
  have hholds := hholds found hok
  have hrest : ∀ s' t' : Session, Session.Mirrors ρ own s' t' → s'.scopes = s.scopes →
      s'.sources = s.sources → EndAlike (Session.Mirrors ρ own) Eq s' t'
        (exposeTable scope id name label (s.sources.row? found.source) found.source)
        (exposeTable (ρ.scopes.scope scope) id name label (s.sources.row? found.source)
          (ρ.sources.source found.source)) := by
    intro s' t' hm' hscopes hsources
    have hbind : ∀ exposed (s'' t'' : Session), Session.Mirrors ρ own s'' t'' →
        s''.scopes = s.scopes → s''.sources = s.sources → EndAlike (Session.Mirrors ρ own) Eq s'' t''
          (Validation.bindName scope exposed found.source)
          (Validation.bindName (ρ.scopes.scope scope) exposed (ρ.sources.source found.source)) :=
      fun exposed s'' t'' hm'' hscopes hsources =>
        hm''.bindName (hscopes ▸ hscope) (.inr hinner) (hsources ▸ hholds) exposed
    unfold exposeTable
    split
    · exact .fail hm'
    · rename_i exposed _
      split
      · refine (hρ.record hm' hid.1 _).bind fun _ _ s'' t'' hx _ hm'' => ?_
        cases hx
        exact hbind exposed _ t'' hm'' hscopes hsources
      · exact hbind exposed s' t' hm' hscopes hsources
  have hself : (t.sources.get? (found.renumber ρ).source).any RowSource.isSelfReference =
      (s.sources.get? found.source).any RowSource.isSelfReference := hm.sources.isSelfReference hholds
  have hrow : t.sources.row? (found.renumber ρ).source = s.sources.row? found.source :=
    hm.sources.row? hholds
  rw [hself, hrow]
  refine .ite (fun _ => .fail hm) fun _ => ?_
  refine .ite (fun _ => ?_) fun _ => hrest s t hm rfl rfl
  refine Follows.bind (.update (hm.withReferences _ _)) fun _ _ s' t' hx _ hm' => ?_
  cases hx
  exact hrest _ t' hm' rfl rfl

end Renumbering.Suits

namespace Visit.Mirrors

variable (hv : Visit.Mirrors ρ N own rank depth v v') (hρ : ρ.Suits N.tree own rank)
  (hs : Session.Goes N.tree Session.OwnsSources s s) (hm : Session.Mirrors ρ own s t)

include hv hρ hs hm

/-- A query of a FROM list is bound. -/
theorem bindSubquery (hid : Tree.HasRoom own rank depth id) {query : NodeId}
    (hquery : Tree.HasRoom own rank depth query) (hparent : s.scopes.Visible ρ.scopes parent)
    (hscope : s.scopes.Visible ρ.scopes scope) (hinner : ρ.scopes.left ≤ scope.index)
    (hfinds : ρ.FindsBelow N s parent query) (block : NodeId) (label : String) :
    EndAlike (Session.Mirrors ρ own) Eq s t
      (SqlTyping.bindSubquery v parent scope block id query label)
      (SqlTyping.bindSubquery v' (ρ.scopes.scope parent) (ρ.scopes.scope scope) block id query
        label) := by
  refine (hv.query hs hm hquery hparent hfinds).bind_runs
    (hv.guarded.query hs hquery hparent.lt_size) fun row _ s₁ t₁ hs₁ _ heq hm₁ => ?_
  subst heq
  rw [Host.lift_self, Host.lift_self]
  refine (hm₁.register id .query (some block)).bind_runs
    (hρ.upholds.runs_register (course_goes.stays hs₁) hid _ _) ?_
  rintro source _ s₂ t₂ hs₂ hq ⟨rfl, hknown⟩ hm₂
  refine (hm₂.setRow (.of_node hknown hq.1) row).bind_runs
    (hρ.upholds.runs_setRow (course_goes.stays hs₂) hid hq.1 row) fun _ _ s₃ t₃ hs₃ _ _ hm₃ => ?_
  refine (hρ.record hm₃ hid.1 row).bind_runs
    (hρ.upholds.runs_recordPart (course_goes.stays hs₃) hid row) fun _ _ s₄ t₄ hs₄ _ _ hm₄ => ?_
  have hlater := ((hs₁.1.trans hs₂.1).trans hs₃.1).trans hs₄.1
  exact hm₄.bindName (hscope.mono hlater.scopes) (.inr hinner)
    (.of_node hknown ((hs₃.1.trans hs₄.1).source hq.1)) label

/-- An entry of a FROM list is bound. -/
theorem bindSource {block : NodeId} (hentry : id ∈ N.sourcesOf block)
    (hid : Tree.HasRoom own rank depth id) (hparent : s.scopes.Visible ρ.scopes parent)
    (hscope : s.scopes.Visible ρ.scopes scope) (hinner : ρ.scopes.left ≤ scope.index)
    (hfinds : ρ.FindsBelow N s parent block) :
    EndAlike (Session.Mirrors ρ own) Eq s t (SqlTyping.bindSource v parent scope block id)
      (SqlTyping.bindSource v' (ρ.scopes.scope parent) (ρ.scopes.scope scope) block id) := by
  refine hρ.node hs hm hid.1 fun n hn => ?_
  cases n with
  | tableRef name label =>
    have hwritten := (hρ.written hs hid.1 hn rfl).1
    exact hρ.bindTable hm hid hparent hscope hinner (hfinds.table hentry hwritten)
  | subqueryRef query label =>
    obtain ⟨hwritten, hsame⟩ := hρ.written hs hid.1 hn rfl
    rw [hsame]
    have hquery := hid.child (c := query) hρ.isClosed hρ.rank ⟨_, hwritten, by simp [Node.children]⟩
    have hfinds : ρ.FindsBelow N s parent query := hfinds.imp fun env hresolved => by
      obtain ⟨select, hselect, hmem⟩ := Naming.exists_of_mem_sourcesOf hentry
      refine hresolved.part ⟨_, hselect, .inl (List.mem_append_left _ ?_)⟩
      exact List.mem_map.mpr ⟨query, List.mem_flatMap.mpr
        ⟨id, hmem, Tree.mem_sourceQuery_iff.mpr ⟨label, hwritten⟩⟩, rfl⟩
    exact hv.bindSubquery hρ hs hm hid hquery hparent hscope hinner hfinds block label
  | _ => exact .fail hm

/-- An entry of a SELECT list has the same columns. -/
theorem itemColumns (hscope : s.scopes.Visible ρ.scopes scope)
    (hinner : ρ.more = [] ∨ ρ.scopes.left ≤ scope.index) (columns : Columns) (place : Nat)
    {item : SelectItem} (hitem : ∀ c ∈ Node.itemChild item, Tree.HasRoom own rank depth c)
    (hfinds : ∀ c ∈ Node.itemChild item, ρ.FindsBelow N s scope c) :
    EndAlike (Session.Mirrors ρ own) Eq s t (SqlTyping.itemColumns v scope columns place item)
      (SqlTyping.itemColumns v' (ρ.scopes.scope scope) columns place item) := by
  cases item with
  | star =>
    refine .state_bind (.pure hm ?_)
    obtain ⟨found, hfound⟩ : ∃ found, s.scopes.get? scope = some found :=
      ⟨_, Array.getElem?_eq_getElem hscope.lt_size⟩
    obtain ⟨found', hfound', -, haround⟩ := hm.scopes.scope scope found hscope hfound
    rw [hfound, hfound']
    have hbindings : found'.bindings = found.bindings.map (Binding.renumber ρ) := by
      cases haround with
      | inner _ _ _ hbindings => exact hbindings
      | root hold _ _ _ hbindings =>
        rw [hbindings, hinner.resolve_right (Nat.not_le.mpr hold), List.append_nil]
    show _ = columns.addBindings t.sources found'.bindings
    rw [hbindings]
    exact (hm.sources.addBindings (fun b hb => hm.scopes.bound scope found b hscope hfound hb)
      columns).symm
  | expression c label =>
    have hc := hitem c (by simp [Node.itemChild])
    have hexpression := hv.expression hs hm (.inl ⟨c, hc, .self⟩) hscope
      (hρ.finds_wrapped hc.1 (hfinds c (by simp [Node.itemChild])))
    rw [hρ.node_eq hc.1] at hexpression
    refine hexpression.bind_runs (hv.guarded.expression hs (.inl ⟨c, hc, .self⟩) hscope.lt_size)
      fun type _ s₁ t₁ hs₁ _ heq hm₁ => ?_
    subst heq
    refine hρ.node (course_goes.stays hs₁) hm₁ hc.1 fun n _ => .pure hm₁ ?_
    rw [baseName_renumber]

theorem selectColumns (hscope : s.scopes.Visible ρ.scopes scope)
    (hinner : ρ.more = [] ∨ ρ.scopes.left ≤ scope.index) (columns : Columns) (place : Nat)
    {items : List SelectItem}
    (hitems : ∀ c ∈ items.flatMap Node.itemChild, Tree.HasRoom own rank depth c)
    (hfinds : ∀ c ∈ items.flatMap Node.itemChild, ρ.FindsBelow N s scope c) :
    EndAlike (Session.Mirrors ρ own) Eq s t (SqlTyping.selectColumns v scope columns place items)
      (SqlTyping.selectColumns v' (ρ.scopes.scope scope) columns place items) := by
  induction items generalizing s t columns place with
  | nil => exact .pure hm rfl
  | cons item rest ih =>
    rw [List.flatMap_cons] at hitems hfinds
    have hitem := fun c hc => hitems c (List.mem_append_left _ hc)
    refine (hv.itemColumns hρ hs hm hscope hinner columns place hitem fun c hc =>
      hfinds c (List.mem_append_left _ hc)).bind_runs
      (hρ.upholds.runs_itemColumns hv.guarded hs hscope.lt_size columns place hitem)
      fun columns _ s₁ t₁ hs₁ _ heq hm₁ => ?_
    subst heq
    exact ih (course_goes.stays hs₁) hm₁ (hscope.mono hs₁.1.scopes) columns (place + 1)
      (fun c hc => hitems c (List.mem_append_right _ hc))
      fun c hc => (hfinds c (List.mem_append_right _ hc)).later hs₁.1

/-- The condition and the columns of a SELECT are the same. -/
theorem selectTail (hscope : s.scopes.Visible ρ.scopes scope)
    (hinner : ρ.more = [] ∨ ρ.scopes.left ≤ scope.index) {block : SelectBlock}
    (hchild : ∀ c ∈ block.condition.toList ++ block.items.flatMap Node.itemChild,
      Tree.HasRoom own rank depth c)
    (hfinds : ∀ c ∈ block.condition.toList ++ block.items.flatMap Node.itemChild,
      ρ.FindsBelow N s scope c) :
    EndAlike (Session.Mirrors ρ own) Eq s t (SqlTyping.selectTail v scope block)
      (SqlTyping.selectTail v' (ρ.scopes.scope scope) block) := by
  have hcolumns : ∀ s' t', Session.Goes N.tree Session.OwnsSources s s' →
      Session.Mirrors ρ own s' t' → EndAlike (Session.Mirrors ρ own) Eq s' t' (do
        let columns ← SqlTyping.selectColumns v scope [] 0 block.items
        Pure.pure (DataType.row columns) : Validation DataType) (do
        let columns ← SqlTyping.selectColumns v' (ρ.scopes.scope scope) [] 0 block.items
        Pure.pure (DataType.row columns)) := fun s' t' hs' hm' =>
    (hv.selectColumns hρ (course_goes.stays hs') hm' (hscope.mono hs'.1.scopes) hinner [] 0
      (fun c hc => hchild c (List.mem_append_right _ hc))
      fun c hc => (hfinds c (List.mem_append_right _ hc)).later hs'.1).bind
        fun _ _ s'' t'' _ heq hm'' => .pure hm'' (heq ▸ rfl)
  unfold SqlTyping.selectTail
  cases hcondition : block.condition with
  | none => exact hcolumns s t hs hm
  | some condition =>
    have hc := hchild condition (by simp [hcondition])
    have hexpression := hv.expression hs hm (.inl ⟨_, hc, .self⟩) hscope
      (hρ.finds_wrapped hc.1 (hfinds condition (by simp [hcondition])))
    rw [hρ.node_eq hc.1] at hexpression
    exact hexpression.bind_runs (hv.guarded.expression hs (.inl ⟨_, hc, .self⟩) hscope.lt_size)
      fun _ _ s' t' hs' _ _ hm' => hcolumns s' t' hs' hm'

/-- A SELECT has the same row type. -/
theorem selectRow (hparent : s.scopes.Visible ρ.scopes parent) {q : NodeId} {block : SelectBlock}
    (hn : N.tree.node? q = some (.select block))
    (hchild : ∀ c ∈ (Node.select block).children, Tree.HasRoom own rank depth c)
    (hfinds : ρ.FindsBelow N s parent q) :
    EndAlike (Session.Mirrors ρ own) Eq s t (SqlTyping.selectRow v parent q block)
      (SqlTyping.selectRow v' (ρ.scopes.scope parent) q block) := by
  simp only [Node.children, List.mem_append] at hchild
  have hlisted : N.sourcesOf q = block.sources := Naming.sourcesOf_of_select hn
  have hshows : ScopeRole.block.ShowsOnly ρ.items := trivial
  refine (hm.newScope hparent hshows (some q)).bind_runs
    ((hρ.upholds.runs_newScope hs hparent.lt_size .block trivial (some q)).with_result
      fun scope s' hx => get?_of_newScope hx) ?_
  rintro scope _ s₁ t₁ hs₁ ⟨found, hfound, haround, -⟩ ⟨rfl, hinner⟩ hm₁
  have hscope : s₁.scopes.Visible ρ.scopes scope :=
    ⟨.inr hinner, (Array.getElem?_eq_some_iff.mp hfound).1⟩
  have hparent₁ := hparent.mono hs₁.1.scopes
  have hbind : ∀ entry ∈ block.sources, ∀ s', Session.Goes N.tree Session.OwnsSources s₁ s' →
      Runs (Session.Goes N.tree Session.OwnsSources) (fun _ => True) s'
        (SqlTyping.bindSource v parent scope q entry) fun _ s'' => s''.Exposes N scope entry :=
    fun entry hentry s' hs' => (hρ.upholds.runs_bindSource Session.allows_all hv.guarded
      (course_goes.stays hs') (hchild entry (.inl (.inr hentry)))
      (hparent₁.mono hs'.1.scopes).lt_size (Nat.zero_le _) (hscope.mono hs'.1.scopes).lt_size
      q).with_result fun _ _ hx =>
        exposes_of_bindSource (fun _ => hs'.1.rewrites.1.node?_of_isClause) hx
  refine Follows.bind_runs (.forM course_goes (course_goes.stays hs₁) hm₁
    (fun entry hentry s' hs' => (hbind entry hentry s' hs').imp fun _ _ _ _ => trivial) ?_)
    (.forM_all course_goes (course_goes.stays hs₁) (fun _ _ _ hlater h => h.mono hlater.1.widens)
      hbind) fun _ _ s₂ t₂ hs₂ hbound _ hm₂ => ?_
  · exact fun entry hentry s' t' hs' hm' =>
      hv.bindSource hρ (course_goes.stays hs') hm' (hlisted ▸ hentry)
        (hchild entry (.inl (.inr hentry))) (hparent₁.mono hs'.1.scopes)
        (hscope.mono hs'.1.scopes) hinner (hfinds.later (hs₁.1.trans hs'.1))
  have hscope₂ := hscope.mono hs₂.1.scopes
  -- All entries have been bound, so the scope provides the FROM list.
  obtain ⟨found₂, hfound₂, -, hsame, -⟩ := hs₂.1.widens scope found hfound
  have hblock := (hfinds.later (hs₁.1.trans hs₂.1)).block hfound₂ (hsame.trans haround)
    (hlisted ▸ hbound)
  have hpart : ∀ c ∈ block.condition.toList ++ block.items.flatMap Node.itemChild,
      ρ.FindsBelow N s₂ scope c := by
    rintro c hc
    refine hblock.imp ?_
    rintro _ ⟨env, rfl, hresolved⟩
    exact hresolved.part ⟨_, hn, .inl (List.mem_append_right _ (List.mem_map_of_mem hc))⟩
  refine hv.selectTail hρ (course_goes.stays hs₂) hm₂ hscope₂ (.inr hinner) (fun c hc => ?_) hpart
  rcases List.mem_append.mp hc with hc | hc
  · exact hchild c (.inr hc)
  · exact hchild c (.inl (.inl hc))

omit hρ in
/-- A set operation has the same row type. -/
theorem setOperationRow (hscope : s.scopes.Visible ρ.scopes scope) {operation : SetOperation}
    (hchild : ∀ c ∈ (Node.setOperation operation).children, Tree.HasRoom own rank depth c)
    (hfinds : ∀ c ∈ (Node.setOperation operation).children, ρ.FindsBelow N s scope c) :
    EndAlike (Session.Mirrors ρ own) Eq s t (SqlTyping.setOperationRow v scope operation)
      (SqlTyping.setOperationRow v' (ρ.scopes.scope scope) operation) := by
  have hleft : operation.left ∈ (Node.setOperation operation).children := by simp [Node.children]
  have hright : operation.right ∈ (Node.setOperation operation).children := by simp [Node.children]
  refine (hv.query hs hm (hchild _ hleft) hscope (hfinds _ hleft)).bind_runs
    (hv.guarded.query hs (hchild _ hleft) hscope.lt_size) fun left _ s₁ t₁ hs₁ _ heq hm₁ => ?_
  subst heq
  refine (hv.query (course_goes.stays hs₁) hm₁ (hchild _ hright) (hscope.mono hs₁.1.scopes)
    ((hfinds _ hright).later hs₁.1)).bind
    fun right _ s₂ t₂ _ heq hm₂ => ?_
  subst heq
  exact .ofExcept_eq hm₂ _

/-- A recursive item has the same row type. -/
theorem recursiveRow (hid : Tree.HasRoom own rank depth id)
    (hitem : (s.sources.ofNode? id).isSome = true) (hparent : s.scopes.Visible ρ.scopes parent)
    {item : WithItem} (hn : N.tree.node? id = some (.withItem item)) (hrecursive : item.recursive = true)
    (hquery : Tree.HasRoom own rank depth item.query)
    (hfinds : ρ.Finds N s parent fun ops env =>
      ∀ x ∈ N.tree.itemParts env id, N.Resolved ops x.2 x.1) :
    EndAlike (Session.Mirrors ρ own) Eq s t
      (SqlTyping.recursiveRow v parent id (qualifiedName item.name) item)
      (SqlTyping.recursiveRow v' (ρ.scopes.scope parent) id (qualifiedName item.name) item) := by
  refine hρ.node hs hm hquery.1 fun n hbody => ?_
  cases n with
  | setOperation operation =>
    obtain ⟨hwritten, hsame⟩ := hρ.written hs hquery.1 hbody rfl
    rw [hsame]
    simp only [Tree.itemParts_of_recursive hn hrecursive hwritten, List.forall_mem_cons] at hfinds
    have hleft := hquery.child (c := operation.left) hρ.isClosed hρ.rank
      ⟨_, hwritten, by simp [Node.children]⟩
    refine (hm.selfView (hρ.items id hid.1)).bind_runs
      (hρ.upholds.runs_selfView hs hid ⟨item, hn, hrecursive⟩ hitem) ?_
    rintro view _ s₁ t₁ hs₁ hq ⟨rfl, hknown⟩ hm₁
    have hparent₁ := hparent.mono hs₁.1.scopes
    refine (hv.query (course_goes.stays hs₁) hm₁ hleft hparent₁
      ((hfinds.later hs₁.1).imp fun _ h => h.1)).bind_runs
      (hv.guarded.query (course_goes.stays hs₁) hleft hparent₁.lt_size)
      fun anchor _ s₂ t₂ hs₂ _ heq hm₂ => ?_
    subst heq
    refine .ofExcept_eq_bind hm₂ fun row => ?_
    have hview := hs₂.1.source hq.1
    refine (hm₂.setRow (.of_node hknown hview) row).bind_runs
      (hρ.upholds.runs_setRow (course_goes.stays hs₂) hid hview row) fun _ _ s₃ t₃ hs₃ _ _ hm₃ => ?_
    have hlater := hs₂.1.trans hs₃.1
    have hpresents := Session.Presents.recursiveItem hq.2 hlater.sources (qualifiedName item.name)
    have hparent₃ := hparent₁.mono hlater.scopes
    have hshows : (ScopeRole.recursiveItem id (qualifiedName item.name)).ShowsOnly ρ.items :=
      hρ.items id hid.1
    refine (hm₃.newScope hparent₃ hshows (some id)).bind_runs
      ((hρ.upholds.runs_newScope (course_goes.stays hs₃) hparent₃.lt_size _ hpresents
        (some id)).with_result fun _ _ hx => get?_of_newScope hx) ?_
    rintro scope _ s₄ t₄ hs₄ ⟨found, hfound, haround, hrole, -⟩ ⟨rfl, hadded⟩ hm₄
    refine hv.query (course_goes.stays hs₄) hm₄ hquery
      ⟨.inr hadded, (Array.getElem?_eq_some_iff.mp hfound).1⟩ ?_
    refine ((hfinds.later ((hs₁.1.trans hlater).trans hs₄.1)).recursive hfound haround hrole).imp ?_
    rintro _ ⟨env, rfl, hresolved⟩
    exact hresolved.2.1
  | _ => exact .fail hm

omit hv in
/-- An item whose query has been validated gets its row type, and is shown by corresponding scopes. -/
theorem showItem (hid : Tree.HasRoom own rank depth id) (hparent : s.scopes.Visible ρ.scopes parent)
    {source : SourceId} (hknown : ρ.sources.Knows source.index)
    (hsource : ∃ e, s.sources.get? source = some e ∧ e.node = some id) (item : WithItem)
    (body : DataType) :
    EndAlike (Session.Mirrors ρ own) (fun a b => b = ρ.scopes.scope a ∧ ρ.scopes.left ≤ a.index) s t (do
        let row ← Checking.ofExcept (renamed (qualifiedName item.name) item.columns body)
        Validation.setRow source row
        Validation.record id row
        Validation.onScopes (·.newWithItem parent id (qualifiedName item.name)) : Validation ScopeId) (do
        let row ← Checking.ofExcept (renamed (qualifiedName item.name) item.columns body)
        Validation.setRow (ρ.sources.source source) row
        Validation.record id row
        Validation.onScopes
          (·.newWithItem (ρ.scopes.scope parent) id (qualifiedName item.name))) := by
  refine .ofExcept_eq_bind hm fun row => ?_
  refine (hm.setRow (.of_node hknown hsource) row).bind_runs
    (hρ.upholds.runs_setRow hs hid hsource row) fun _ _ s₁ t₁ hs₁ _ _ hm₁ => ?_
  refine (hρ.record hm₁ hid.1 row).bind_runs
    (hρ.upholds.runs_recordPart (course_goes.stays hs₁) hid row) fun _ _ s₂ t₂ hs₂ _ _ hm₂ => ?_
  have hshows : (ScopeRole.withItem id (qualifiedName item.name)).ShowsOnly ρ.items :=
    hρ.items id hid.1
  exact hm₂.newScope (hparent.mono (hs₁.1.trans hs₂.1).scopes) hshows (some id)

/-- A WITH item is shown by corresponding scopes. -/
theorem bindWithItem (hid : Tree.HasRoom own rank depth id)
    (hparent : s.scopes.Visible ρ.scopes parent)
    (hfinds : ρ.Finds N s parent fun ops env =>
      ∀ x ∈ N.tree.itemParts env id, N.Resolved ops x.2 x.1) :
    EndAlike (Session.Mirrors ρ own) (fun a b => b = ρ.scopes.scope a ∧ ρ.scopes.left ≤ a.index) s t
      (SqlTyping.bindWithItem v parent id)
      (SqlTyping.bindWithItem v' (ρ.scopes.scope parent) id) := by
  refine hρ.node hs hm hid.1 fun n hn => ?_
  cases n with
  | withItem item =>
    obtain ⟨hwritten, hsame⟩ := hρ.written hs hid.1 hn rfl
    rw [hsame]
    have hquery := hid.child (c := item.query) hρ.isClosed hρ.rank
      ⟨_, hwritten, by simp [Node.children]⟩
    refine (hm.register id .withItem none).bind_runs (hρ.upholds.runs_register hs hid _ _) ?_
    rintro source _ s₁ t₁ hs₁ hq ⟨rfl, hknown⟩ hm₁
    have hparent₁ := hparent.mono hs₁.1.scopes
    have hfinds₁ := hfinds.later hs₁.1
    refine .ite (fun hrecursive => ?_) fun hrecursive => ?_
    · refine (hv.recursiveRow hρ (course_goes.stays hs₁) hm₁ hid hq.2 hparent₁ hwritten hrecursive
        hquery hfinds₁).bind_runs
        (hρ.upholds.runs_recursiveRow Session.allows_all hv.guarded (course_goes.stays hs₁) hid
          ⟨item, hwritten, hrecursive⟩ hq.2 hparent₁.lt_size _ hquery) fun body _ s' t' hs' _ heq hm' => ?_
      subst heq
      exact showItem hρ (course_goes.stays hs') hm' hid (hparent₁.mono hs'.1.scopes) hknown
        (hs'.1.source hq.1) item body
    · simp only [Tree.itemParts_of_not_recursive hwritten hrecursive, List.forall_mem_cons] at hfinds₁
      refine (hv.query (course_goes.stays hs₁) hm₁ hquery hparent₁
        (hfinds₁.imp fun _ h => h.1)).bind_runs
        (hv.guarded.query (course_goes.stays hs₁) hquery hparent₁.lt_size)
        fun body _ s' t' hs' _ heq hm' => ?_
      subst heq
      exact showItem hρ (course_goes.stays hs') hm' hid (hparent₁.mono hs'.1.scopes) hknown
        (hs'.1.source hq.1) item body
  | _ => exact .fail hm

/-- A WITH query has the same row type. -/
theorem withRow (hscope : s.scopes.Visible ρ.scopes scope) {body : NodeId}
    (hbody : Tree.HasRoom own rank depth body) {items : List NodeId}
    (hitems : ∀ c ∈ items, Tree.HasRoom own rank depth c)
    (hfinds : ρ.Finds N s scope fun ops env =>
      ∀ x ∈ N.tree.withParts body env items, N.Resolved ops x.2 x.1) :
    EndAlike (Session.Mirrors ρ own) Eq s t (SqlTyping.withRow v scope body items)
      (SqlTyping.withRow v' (ρ.scopes.scope scope) body items) := by
  induction items generalizing s t scope with
  | nil =>
    exact hv.query hs hm hbody hscope
      (hfinds.imp fun env h => h (body, env) (List.mem_singleton.mpr rfl))
  | cons item rest ih =>
    have hitem := hitems item (List.mem_cons_self ..)
    refine (hv.bindWithItem hρ hs hm hitem hscope (hfinds.imp fun _ h x hx =>
      h x (List.mem_append_left _ hx))).bind_runs ((hρ.upholds.runs_bindWithItem Session.allows_all
        hv.guarded hs hitem hscope.lt_size).with_result fun _ _ hx => get?_of_bindWithItem hx) ?_
    rintro inner _ s₁ t₁ hs₁ ⟨w, found, hn, hfound, haround, hrole, -⟩ ⟨rfl, hadded⟩ hm₁
    refine ih (course_goes.stays hs₁) hm₁
      ⟨.inr hadded, (Array.getElem?_eq_some_iff.mp hfound).1⟩
      (fun c hc => hitems c (List.mem_cons_of_mem _ hc)) ?_
    have henv : ∀ env, N.tree.itemEnv env item = .item item (qualifiedName w.name) :: env := by
      intro env
      unfold Tree.itemEnv
      rw [(hρ.written hs hitem.1 hn rfl).1]
    refine ((hfinds.later hs₁.1).item hfound haround hrole).imp ?_
    rintro _ ⟨env, rfl, hresolved⟩
    rw [← henv]
    exact fun x hx => hresolved x (List.mem_append_right _ hx)

/-- A query is validated alike when what lies below it is. -/
theorem queryStep (hid : Tree.HasRoom own rank (depth + 1) id)
    (hscope : s.scopes.Visible ρ.scopes scope) (hfinds : ρ.FindsBelow N s scope id) :
    EndAlike (Session.Mirrors ρ own) Eq s t (SqlTyping.queryStep v scope id)
      (SqlTyping.queryStep v' (ρ.scopes.scope scope) id) := by
  refine hρ.node hs hm hid.1 fun n hn => Follows.bind (Q := Eq) ?_ ?_
  · -- A query is as it was written, so what it refers to belongs to the part.
    have hchild : n.isClause = true → ∀ c ∈ n.children, Tree.HasRoom own rank depth c :=
      fun hclause c hc =>
        hid.below hρ.isClosed hρ.rank ⟨n, (hρ.written hs hid.1 hn hclause).1, hc⟩
    cases n with
    | select block =>
      obtain ⟨hwritten, hsame⟩ := hρ.written hs hid.1 hn rfl
      rw [hsame]
      exact hv.selectRow hρ hs hm hscope hwritten (hchild rfl) hfinds
    | setOperation operation =>
      obtain ⟨hwritten, hsame⟩ := hρ.written hs hid.1 hn rfl
      rw [hsame]
      refine hv.setOperationRow hs hm hscope (hchild rfl) fun c hc => hfinds.part hwritten ?_
      simp only [Node.children, List.mem_cons, List.not_mem_nil, or_false] at hc
      rcases hc with rfl | rfl <;> simp [Tree.queryParts]
    | withQuery items body =>
      obtain ⟨hwritten, hsame⟩ := hρ.written hs hid.1 hn rfl
      rw [hsame]
      refine hv.withRow hρ hs hm hscope (hchild rfl body (by simp [Node.children]))
        (fun c hc => hchild rfl c (by simp [Node.children, hc])) ?_
      exact hfinds.imp fun env hresolved x hx => hresolved.part ⟨_, hwritten, .inl hx⟩
    | _ => exact .fail hm
  · intro row _ s₁ t₁ _ heq hm₁
    subst heq
    exact (hρ.record hm₁ hid.1 row).bind fun _ _ s₂ t₂ _ _ hm₂ => .pure hm₂ rfl

end Visit.Mirrors

end

end SqlTyping
