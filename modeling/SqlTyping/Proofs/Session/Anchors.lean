import SqlTyping.Proofs.Session.Fresh
import SqlTyping.Proofs.Session.Resolution

namespace SqlTyping

/-!
# The first input of a recursive WITH item

The first input of a recursive WITH item is validated where the item is not visible, and once more
with the whole body, where it is. Nothing but names decides whether it refers to the item then:

* `Tree.Spells` — a table below a node is spelled like a one-part name;
* `Session.Named.spells` — an entry below the first input stands for the item only if such a table,
  spelled like the item, is there;
* `Session.anchor_refers_by_name` — in every run on every catalog the entries listed for the item
  are those that stand for it, and without such a table none of them lies below the first input, and
  both validations of the first input find the same;
* `Session.anchor_refers_to_item` — a run in which the first input is recursive.
-/

/-- A table below the node is spelled like the name. -/
def Tree.Spells (t : Tree) (top : NodeId) (name : String) : Prop :=
  ∃ entry label, Relation.ReflTransGen t.Child top entry ∧
    t.node? entry = some (.tableRef [name] label)

/-- Two scopes of a SELECT have the same around them, but that one of them sees a recursive WITH item
    from inside its body and the other does not. -/
def ScopeTree.DifferByItem (t : ScopeTree) (item select : NodeId) (alone whole : ScopeId) : Prop :=
  ∃ inner outer shown, t.Frames alone (.block select :: (inner ++ outer)) ∧
    t.Frames whole (.block select :: (inner ++ .recursive item shown :: outer))

namespace Session.Named

variable {n : Naming} {s : Session} {id : ScopeId} {scope : Scope} {select entry item : NodeId}
  {env : Env}

/-- The scope of a SELECT binds the entries of its FROM list in order, each to what it stands for. -/
theorem binds (h : s.Named n) (hs : s.scopes.get? id = some scope)
    (hframes : s.scopes.Frames id (.block select :: env)) :
    n.tree.Encloses env select ∧ ∀ (index : Nat) (b : Binding), scope.bindings[index]? = some b →
      ∃ entry, (n.sourcesOf select)[index]? = some entry ∧
        n.Binds s.sources s.selfReferences env entry b := by
  cases hframes with
  | cons hs' hframe hparent hrest =>
    obtain rfl := Option.some.inj (hs.symm.trans hs')
    obtain ⟨env', bound, hopen⟩ := h.opens id scope select hs hframe
    obtain ⟨parent, hparent', hshows⟩ := hopen.parent
    obtain rfl := Option.some.inj (hparent.symm.trans hparent')
    obtain rfl := hrest.unique hshows.frames
    refine ⟨hopen.encloses, fun index b hb => ?_⟩
    obtain ⟨hi, rfl⟩ := List.getElem?_eq_some_iff.mp hb
    have hi' : index < bound.length := by
      rw [hopen.bindings.length_eq]
      exact hi
    refine ⟨bound[index], ?_, hopen.bindings.get hi' hi⟩
    obtain ⟨rest, hrest⟩ := hopen.written
    rw [← hrest, List.getElem?_append_left hi']
    exact List.getElem?_eq_getElem hi'

/-- Everything around a SELECT on the way to a scope is around that SELECT. -/
theorem encloses (h : s.Named n) {inner : Env}
    (hframes : s.scopes.Frames id (inner ++ .block select :: env)) : n.tree.Encloses env select := by
  obtain ⟨around, haround⟩ := hframes.suffix
  obtain ⟨scope, hs⟩ : ∃ scope, s.scopes.get? around = some scope := by
    cases haround with
    | cons hs => exact ⟨_, hs⟩
  exact (h.binds hs haround).1

section

variable (hforest : n.tree.IsForest) {w : WithItem} {operation : SetOperation}
  (hitem : n.tree.node? item = some (.withItem w))
  (hbody : n.tree.node? w.query = some (.setOperation operation))

include hforest hitem hbody

omit hitem in
/-- A SELECT inside the body of a recursive item that lies above an entry below the first input lies
    below the first input itself. -/
theorem below_left {above : NodeId} (hselect : ∃ block, n.tree.node? above = some (.select block))
    (hinside : Relation.ReflTransGen n.tree.Child w.query above)
    (habove : Relation.ReflTransGen n.tree.Child above entry)
    (hleft : Relation.ReflTransGen n.tree.Child operation.left entry) :
    Relation.ReflTransGen n.tree.Child operation.left above := by
  have hparent : n.tree.Child w.query operation.left := ⟨_, hbody, by simp [Node.children]⟩
  rcases hforest.comparable hleft habove with hbelow | hover
  · exact hbelow
  by_cases heq : above = operation.left
  · rw [heq]
  -- Otherwise the SELECT would lie around the body, and inside it: it would be the body.
  have hround := hforest.above_parent hparent hover heq
  rcases Relation.reflTransGen_iff_eq_or_transGen.mp hinside with rfl | hstrict
  · obtain ⟨block, hblock⟩ := hselect
    rw [hbody] at hblock
    cases hblock
  · exact absurd (hstrict.trans_left hround) (hforest.acyclic _)

omit hforest hbody in
/-- A name under which the item is seen is the item's own. -/
theorem spells_of_namesSelf {name : List String} {label : Option String}
    (henv : n.tree.Encloses env select) (hname : n.NamesSelf env name item)
    (hentry : n.tree.node? entry = some (.tableRef name label))
    (hleft : Relation.ReflTransGen n.tree.Child operation.left entry) :
    n.tree.Spells operation.left (qualifiedName w.name) := by
  obtain ⟨inner, shown, outer, rfl, rfl, -⟩ := hname
  obtain ⟨w', hw', rfl, -⟩ := henv (.recursive item shown) (by simp)
  obtain rfl : w = w' := by
    rw [hitem] at hw'
    exact Node.withItem.inj (Option.some.inj hw')
  exact ⟨entry, label, hleft, hentry⟩

/-- An entry below the first input stands for the item itself only if some table below the first
    input is spelled like the item. -/
theorem spells (h : s.Named n) (hframes : s.scopes.Frames id (.block select :: env))
    (hentry : entry ∈ n.sourcesOf select) (hself : n.entryReferent? env entry = some (.self item))
    (hleft : Relation.ReflTransGen n.tree.Child operation.left entry) :
    n.tree.Spells operation.left (qualifiedName w.name) := by
  obtain ⟨name, label, hn, hname⟩ := Naming.tableRef_of_ofEntry?_self hself
  have hchild : ∀ {x select : NodeId}, x ∈ n.sourcesOf select →
      n.tree.Child select x ∧ ∃ block, n.tree.node? select = some (.select block) := by
    intro x select hx
    obtain ⟨block, hselect, hmem⟩ := Naming.exists_of_mem_sourcesOf hx
    exact ⟨⟨_, hselect, by simp [Node.children, hmem]⟩, block, hselect⟩
  have hhere : s.scopes.Frames id ([] ++ .block select :: env) := hframes
  have henv := h.encloses hhere
  rcases Naming.exists_namer hname with hnames | hnamer
  · exact spells_of_namesSelf hitem henv hnames hn hleft
  -- The entry is called like an entry of a SELECT around it, which is called like the item.
  obtain ⟨inner, around, outer, namer, name', label', rfl, hmem, hnamer, hnames⟩ := hnamer
  have hthere : s.scopes.Frames id ((.block select :: inner) ++ .block around :: outer) := hframes
  have hround := h.encloses hthere
  have hshown := hnames
  obtain ⟨inner', shown, outer', rfl, -, -⟩ := hshown
  obtain ⟨w', hw', -, -, hinside⟩ := hround (.recursive item shown) (by simp)
  obtain rfl : w = w' := by
    rw [hitem] at hw'
    exact Node.withItem.inj (Option.some.inj hw')
  have habove : Relation.ReflTransGen n.tree.Child around entry :=
    Relation.ReflTransGen.tail (henv (.block around) (by simp)) (hchild hentry).1
  have hbelow := below_left hforest hbody (hchild hmem).2 hinside habove hleft
  exact spells_of_namesSelf hitem hround hnames hnamer
    (hbelow.tail (hchild hmem).1)

end

end Session.Named

/-! ### Whole runs -/

namespace Session

/-- In every run on every catalog, whatever becomes of it: an entry below the first input of a
    recursive WITH item is listed for the item only if some table below the first input is spelled
    like the item; and what an entry there stands for where the item is visible it stands for where
    it is not, but for the item itself, for which it can stand only if such a table is there. -/
theorem anchor_refers_by_name {s : Session} (hfresh : s.IsFresh) (hforest : s.tree.IsForest)
    (query : NodeId) {item : NodeId} {w : WithItem} {operation : SetOperation}
    (hitem : s.tree.node? item = some (.withItem w))
    (hbody : s.tree.node? w.query = some (.setOperation operation)) :
    let s' := (Session.validateQuery query s).2
    (∀ entry view, s'.sources.selfViewOf? item = some view → (entry, view) ∈ s'.selfReferences →
      Relation.ReflTransGen s.tree.Child operation.left entry →
        s.tree.Spells operation.left (qualifiedName w.name)) ∧
    ∀ (alone whole : ScopeId) (a b : Scope) (select : NodeId),
      s'.scopes.DifferByItem item select alone whole → s'.scopes.get? alone = some a →
        s'.scopes.get? whole = some b → Relation.ReflTransGen s.tree.Child operation.left select →
          ∀ (index : Nat) (bound bound' : Binding), a.bindings[index]? = some bound →
            b.bindings[index]? = some bound' → ∃ r : Referent, r.IsSource s'.sources bound.source ∧
              (r.IsSource s'.sources bound'.source ∨
                (Referent.self item).IsSource s'.sources bound'.source ∧
                  s.tree.Spells operation.left (qualifiedName w.name)) := by
  intro s'
  have hrewrites : s.Rewrites s.naming.tree := ⟨.refl _, hforest.closed⟩
  have hnamed : s'.Named s.naming :=
    ((visitAt_names hforest.closed s.maxDepth).query hrewrites hfresh.hasCatalogOnly.named
      hfresh.hasCatalogOnly.named.catalog (fun _ hframe => absurd hframe List.not_mem_nil)).1
  refine ⟨fun entry view hview hlisted hleft => ?_, ?_⟩
  · obtain ⟨⟨id, scope, select, index, b, hs, hframe, hentry, hb, hsource⟩, -⟩ :=
      hnamed.lists _ hlisted
    obtain ⟨env, bound, hopen⟩ := hnamed.opens id scope select hs hframe
    obtain ⟨parent, hparent, hshows⟩ := hopen.parent
    have hframes : s'.scopes.Frames id (.block select :: env) :=
      .cons hs hframe hparent hshows.frames
    obtain ⟨entry', hentry', hbinds⟩ := (hnamed.binds hs hframes).2 index b hb
    obtain rfl : entry = entry' := Option.some.inj (hentry.symm.trans hentry')
    -- The source the entry is listed for is the item's view from inside, and stands for it alone.
    obtain ⟨r, hr, hisSource⟩ := hbinds.referent
    have hself := hnamed.sources.selfView item view hview
    have hsource : b.source = view := hsource
    rw [← hsource] at hself
    obtain rfl := hisSource.unique hself
    exact hnamed.spells hforest hitem hbody hframes (List.mem_of_getElem? hentry) hr hleft
  · rintro alone whole a b select ⟨inner, outer, shown, haframes, hbframes⟩ ha hb hleft index bound
      bound' hbound hbound'
    obtain ⟨entry, hentry, hbinds⟩ := (hnamed.binds ha haframes).2 index bound hbound
    obtain ⟨entry', hentry', hbinds'⟩ := (hnamed.binds hb hbframes).2 index bound' hbound'
    obtain rfl : entry = entry' := Option.some.inj (hentry.symm.trans hentry')
    obtain ⟨r, hr, hsource⟩ := hbinds.referent
    obtain ⟨r', hr', hsource'⟩ := hbinds'.referent
    refine ⟨r, hsource, ?_⟩
    have hmem := List.mem_of_getElem? hentry
    have hchild : s.tree.Child select entry := by
      obtain ⟨block, hselect, hsource⟩ := Naming.exists_of_mem_sourcesOf hmem
      exact ⟨_, hselect, by simp [Node.children, hsource]⟩
    have hsame : s.naming.entryReferent? (inner ++ .recursive item shown :: outer) entry =
        some (.self item) ∨ s.naming.entryReferent? (inner ++ .recursive item shown :: outer) entry =
          s.naming.entryReferent? (inner ++ outer) entry :=
      Naming.ofEntry?_or (Naming.referent?_recursive inner outer item shown) entry
    rcases hsame with hself | heq
    · obtain rfl := Option.some.inj (hr'.symm.trans hself)
      exact .inr ⟨hsource', hnamed.spells hforest hitem hbody hbframes hmem hself
        (hleft.tail hchild)⟩
    · rw [heq, hr] at hr'
      cases hr'
      exact .inl hsource'

/-- `WITH RECURSIVE T AS (SELECT x FROM T UNION ALL SELECT x FROM T) SELECT * FROM T`, in a catalog with a
    table `T`. -/
def recursionOverTable : Session where
  tree := ⟨#[⟨.identifier ["x"], .synthetic⟩, ⟨.tableRef ["T"] none, .synthetic⟩,
    ⟨.select { items := [.expression ⟨0⟩ none], sources := [⟨1⟩], condition := none }, .synthetic⟩,
    ⟨.identifier ["x"], .synthetic⟩, ⟨.tableRef ["T"] none, .synthetic⟩,
    ⟨.select { items := [.expression ⟨3⟩ none], sources := [⟨4⟩], condition := none }, .synthetic⟩,
    ⟨.setOperation { operator := .union, all := true, left := ⟨2⟩, right := ⟨5⟩ }, .synthetic⟩,
    ⟨.withItem { name := ["T"], columns := none, query := ⟨6⟩, recursive := true }, .synthetic⟩,
    ⟨.tableRef ["T"] none, .synthetic⟩,
    ⟨.select { items := [.star], sources := [⟨8⟩], condition := none }, .synthetic⟩,
    ⟨.withQuery [⟨7⟩] ⟨9⟩, .synthetic⟩]⟩
  scopes := ⟨#[{ Scope.root with bindings := [⟨["T"], ⟨0⟩, false⟩] }]⟩
  sources := { sources := #[⟨none, .table ["T"], .row [("x", .notNull .integer)], none⟩] }

theorem isFresh_recursionOverTable : recursionOverTable.IsFresh :=
  .addTable (.start {} recursionOverTable.tree .standard .implicitCasts) rfl

theorem isForest_recursionOverTable : recursionOverTable.tree.IsForest :=
  .of_ordered (by decide) (by decide) (by decide)

/-- The first input and its FROM entry. -/
theorem child_recursionOverTable : recursionOverTable.tree.Child ⟨2⟩ ⟨1⟩ :=
  ⟨.select { items := [.expression ⟨0⟩ none], sources := [⟨1⟩], condition := none }, rfl, by decide⟩

/-- There the entry of the first input is listed for the item, whose name it has. -/
theorem anchor_refers_by_name_table :
    ∃ s', recursionOverTable.IsFresh ∧ recursionOverTable.tree.IsForest ∧
      (Session.validateQuery ⟨10⟩ recursionOverTable).2 = s' ∧
        s'.sources.selfViewOf? ⟨7⟩ = some ⟨2⟩ ∧ (⟨1⟩, ⟨2⟩) ∈ s'.selfReferences ∧
          recursionOverTable.tree.Spells ⟨2⟩ "T" := by
  have hview : (Session.validateQuery ⟨10⟩ recursionOverTable).2.sources.selfViewOf? ⟨7⟩ =
      some ⟨2⟩ := by decide +kernel
  have hlisted : (⟨1⟩, ⟨2⟩) ∈
      (Session.validateQuery ⟨10⟩ recursionOverTable).2.selfReferences := by decide +kernel
  have hitem : recursionOverTable.tree.node? ⟨7⟩ =
      some (.withItem { name := ["T"], columns := none, query := ⟨6⟩, recursive := true }) := rfl
  have hspells := (anchor_refers_by_name isFresh_recursionOverTable isForest_recursionOverTable ⟨10⟩
    hitem rfl).1 ⟨1⟩ ⟨2⟩ hview hlisted (.single child_recursionOverTable)
  exact ⟨_, isFresh_recursionOverTable, isForest_recursionOverTable, rfl, hview, hlisted, hspells⟩

/-- It is not so that no entry below the first input of a recursive WITH item is ever listed for the
    item: with a table of the same name in the catalog one is. -/
theorem anchor_refers_to_item :
    ¬ ∀ (s s' : Session) (query item entry : NodeId) (row : DataType) (w : WithItem)
      (operation : SetOperation) (view : SourceId), s.IsFresh → s.tree.IsForest →
        Session.validateQuery query s = (.ok row, s') → s.tree.node? item = some (.withItem w) →
          w.recursive = true → s.tree.node? w.query = some (.setOperation operation) →
            Relation.ReflTransGen s.tree.Child operation.left entry →
              s'.sources.selfViewOf? item = some view → (entry, view) ∉ s'.selfReferences := by
  intro h
  have hrow : (Session.validateQuery ⟨10⟩ recursionOverTable).1 =
      .ok (.row [("x", .notNull .integer)]) := by decide +kernel
  have hview : (Session.validateQuery ⟨10⟩ recursionOverTable).2.sources.selfViewOf? ⟨7⟩ =
      some ⟨2⟩ := by decide +kernel
  have hlisted : (⟨1⟩, ⟨2⟩) ∈
      (Session.validateQuery ⟨10⟩ recursionOverTable).2.selfReferences := by decide +kernel
  have hitem : recursionOverTable.tree.node? ⟨7⟩ =
      some (.withItem { name := ["T"], columns := none, query := ⟨6⟩, recursive := true }) := rfl
  cases hok : Session.validateQuery ⟨10⟩ recursionOverTable with
  | mk r s' =>
    rw [hok] at hrow hview hlisted
    cases hrow
    exact h recursionOverTable s' ⟨10⟩ ⟨7⟩ ⟨1⟩ _ _ _ ⟨2⟩ isFresh_recursionOverTable
      isForest_recursionOverTable hok hitem rfl rfl (.single child_recursionOverTable) hview hlisted

end Session

end SqlTyping
