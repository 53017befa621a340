import SqlTyping.Proofs.Session.Confinement
import SqlTyping.Proofs.Session.Fresh
import SqlTyping.Proofs.Session.Providing
import SqlTyping.Proofs.Tree.Ranks

namespace SqlTyping

/-!
# What has been accepted has found its tables

Validation comes to a result only when every table of a FROM list that it has met has been found. A table
is found only under a name for which something is offered:

* `Session.ProvidesOnly` — from a scope names lead only to what an environment offers;
* `Session.Advances` — a later moment of a validation; the scopes that were there have not changed;
* `Visit.Finds` — the parts of a statement that are validated with a result are resolved;
* `Visit.Finds.selectRow`, `Visit.Finds.bindWithItem` and so on — the steps of a query and of an
  expression;
* `visitAt_finds` — this holds of validation to any depth.
-/

/-- From the scope names lead only to what the environment offers. -/
structure Session.ProvidesOnly (N : Naming) (s : Session) (scope : ScopeId) (env : Env) : Prop where
  nested : s.scopes.Nested
  there : ∃ found, s.scopes.get? scope = some found
  offers : ∀ names, s.scopes.Offers N.matching names scope → N.Offers env names

/-- The scope lies in `parent` and binds only names of entries in the FROM list of the SELECT. -/
def Session.BindsOnly (N : Naming) (s : Session) (parent scope : ScopeId) (select : NodeId) : Prop :=
  ∃ found, s.scopes.get? scope = some found ∧ found.parent = some parent ∧ found.role = .block ∧
    ∀ b ∈ found.bindings, ∃ entry ∈ N.sourcesOf select, ∃ exposed,
      N.exposed? entry = some exposed ∧ b.names = [exposed]

/-- A later moment of a validation of the nodes `own` that has started in `b`. -/
abbrev Session.Advances (b : Session) (own : NodeId → Prop) (s s' : Session) : Prop :=
  Session.Goes b.tree (b.Confined own own s) s s'

open Checking

variable {b s s' : Session} {own : NodeId → Prop} {depth : Nat} {v : Visit} {scope parent : ScopeId}
  {env : Env} {a id : NodeId}

theorem course_advances : Course (b.Advances own) where
  trans h h' := ⟨h.1.trans h'.1, h.2.trans h'.2⟩
  stays h := ⟨.refl h.1.rewrites.1, .refl h.2.continues h.2.owned⟩

/-- The parts with the given depth left are resolved when they are validated with a result. -/
structure Visit.Finds (b : Session) (own : NodeId → Prop) (depth : Nat) (v : Visit) : Prop where
  guarded : ∀ s, v.Guarded b.tree (fun _ => own) (b.Confined own own s) (fun _ => True) depth
  query : ∀ {s s' scope env a row}, b.Advances own s s → s.ProvidesOnly b.naming scope env → own a →
    v.query scope a s = (.ok row, s') → b.naming.Resolved b.operators env a
  expression : ∀ {s s' scope env a id type}, b.Advances own s s →
    s.ProvidesOnly b.naming scope env → own a → Tree.Wraps b.tree s.tree a id →
      v.expression scope id s = (.ok type, s') → b.naming.Resolved b.operators env a

/-! ### Scopes -/

/-- What a name leads to from a scope that has not changed was there before. -/
theorem ScopeTree.Offers.of_extends {m : NameMatching} {t t' : ScopeTree} {names : List String}
    (h : t'.Offers m names scope) (hext : t.Extends t') (hn : t.Nested)
    (hs : ∃ found, t.get? scope = some found) : t.Offers m names scope := by
  induction h with
  | item hs' hrole hnames =>
    obtain ⟨found, hfound⟩ := hs
    obtain rfl := Option.some.inj ((hext _ _ hfound).symm.trans hs')
    exact .item hfound hrole hnames
  | binding hs' hb hleads =>
    obtain ⟨found, hfound⟩ := hs
    obtain rfl := Option.some.inj ((hext _ _ hfound).symm.trans hs')
    exact .binding hfound hb hleads
  | around hs' hparent _ ih =>
    obtain ⟨found, hfound⟩ := hs
    obtain rfl := Option.some.inj ((hext _ _ hfound).symm.trans hs')
    obtain ⟨around, haround, -⟩ := hn _ found _ hfound hparent
    exact .around hfound hparent (ih ⟨around, haround⟩)

namespace Session.ProvidesOnly

variable {N : Naming} {found : Scope}

/-- Scopes that are added do not matter. -/
theorem later (h : s.ProvidesOnly N scope env) (hs : b.Advances own s s') :
    s'.ProvidesOnly N scope env where
  nested := hs.2.nested h.nested
  there := by
    obtain ⟨found, hfound⟩ := h.there
    exact ⟨found, hs.2.scopes scope found hfound⟩
  offers names hnames := h.offers names (hnames.of_extends hs.2.scopes h.nested h.there)

theorem lt_size (h : s.ProvidesOnly N scope env) : scope.index < s.scopes.size := by
  obtain ⟨found, hfound⟩ := h.there
  exact (Array.getElem?_eq_some_iff.mp hfound).1

/-- A table is found only under a name that is offered. -/
theorem of_requireTable {names : List String} {table : TableMatch} {sources : RowSources}
    (h : s.ProvidesOnly N scope env)
    (hfound : s.scopes.requireTable scope names N.matching sources = .ok table) :
    N.Offers env names := by
  obtain ⟨found, hs⟩ := h.there
  exact h.offers names (.of_lookupTable h.nested hs (ScopeTree.requireTable_eq_ok_iff.mp hfound))

/-- The scope of a SELECT provides only its FROM list and what is around it. -/
theorem block {select : NodeId} (h : s.ProvidesOnly N parent env)
    (hbinds : s.BindsOnly N parent scope select) : s.ProvidesOnly N scope (.block select :: env) := by
  obtain ⟨found, hs, hparent, hrole, hbinds⟩ := hbinds
  refine ⟨h.nested, ⟨found, hs⟩, fun names hnames => ?_⟩
  cases hnames with
  | item hs' hshown =>
    obtain rfl := Option.some.inj (hs.symm.trans hs')
    rw [hrole] at hshown
    rcases hshown with hshown | hshown
    · cases hshown
    · cases hshown
  | @binding _ _ b hs' hb hleads =>
    obtain rfl := Option.some.inj (hs.symm.trans hs')
    obtain ⟨entry, hentry, exposed, hexposed, hname⟩ := hbinds b hb
    refine .inl ⟨entry, hentry, ?_⟩
    rw [hname] at hleads
    simpa [Naming.answers, hexposed] using hleads
  | around hs' hparent' hnames =>
    obtain rfl := Option.some.inj (hs.symm.trans hs')
    obtain rfl := Option.some.inj (hparent.symm.trans hparent')
    exact .inr (h.offers names hnames)

/-- A scope that binds nothing provides only the item that it shows, and what is around it. -/
theorem of_shown {shown : String} (h : s.ProvidesOnly N parent env)
    (hs : s.scopes.get? scope = some found) (hparent : found.parent = some parent)
    (hbindings : found.bindings = [])
    (hrole : ∀ item name, found.role = .withItem item name ∨ found.role = .recursiveItem item name →
      name = shown) {names : List String} (hnames : s.scopes.Offers N.matching names scope) :
    names = [shown] ∨ N.Offers env names := by
  cases hnames with
  | item hs' hshown hnames =>
    obtain rfl := Option.some.inj (hs.symm.trans hs')
    exact .inl (hrole _ _ hshown ▸ hnames)
  | binding hs' hb =>
    obtain rfl := Option.some.inj (hs.symm.trans hs')
    rw [hbindings] at hb
    cases hb
  | around hs' hparent' hnames =>
    obtain rfl := Option.some.inj (hs.symm.trans hs')
    obtain rfl := Option.some.inj (hparent.symm.trans hparent')
    exact .inr (h.offers names hnames)

theorem item {item : NodeId} {shown : String} (h : s.ProvidesOnly N parent env)
    (hs : s.scopes.get? scope = some found) (hparent : found.parent = some parent)
    (hrole : found.role = .withItem item shown) (hbindings : found.bindings = []) :
    s.ProvidesOnly N scope (.item item shown :: env) := by
  refine ⟨h.nested, ⟨found, hs⟩, fun names hnames => h.of_shown hs hparent hbindings ?_ hnames⟩
  rintro other name (hother | hother)
  · rw [hrole] at hother
    cases hother
    rfl
  · rw [hrole] at hother
    cases hother

theorem recursive {item : NodeId} {shown : String} (h : s.ProvidesOnly N parent env)
    (hs : s.scopes.get? scope = some found) (hparent : found.parent = some parent)
    (hrole : found.role = .recursiveItem item shown) (hbindings : found.bindings = []) :
    s.ProvidesOnly N scope (.recursive item shown :: env) := by
  refine ⟨h.nested, ⟨found, hs⟩, fun names hnames => h.of_shown hs hparent hbindings ?_ hnames⟩
  rintro other name (hother | hother)
  · rw [hrole] at hother
    cases hother
  · rw [hrole] at hother
    cases hother
    rfl

end Session.ProvidesOnly

/-! ### Queries -/

section

variable (hclosed : b.tree.NoDangling) (hown : b.tree.IsClosed own) (hv : v.Finds b own depth)

include hclosed hown hv

namespace Visit.Finds

/-- An entry of a FROM list that has been bound is a table whose name is offered, or a query that is
    resolved. Only its name is bound in the scope of the SELECT, which has been added since `s₀`. -/
theorem bindSource {s₀ : Session} {entry select : NodeId} (hs : b.Advances own s₀ s)
    (hs₀ : s₀.ProvidesOnly b.naming parent env) (hbinds : s.BindsOnly b.naming parent scope select)
    (hnew : s₀.scopes.size ≤ scope.index) (hentry : entry ∈ b.naming.sourcesOf select)
    (ho : own entry) :
    Runs (Session.Goes b.tree (b.Confined own own s₀)) (fun _ => True) s
      (SqlTyping.bindSource v parent scope select entry)
      fun _ s' => ((∀ name label, b.tree.node? entry = some (.tableRef name label) →
          b.naming.Offers env name) ∧
        ∀ query label, b.tree.node? entry = some (.subqueryRef query label) →
          b.naming.Resolved b.operators env query) ∧
        s'.BindsOnly b.naming parent scope select := by
  have hself : b.Advances own s s := course_advances.stays hs
  have hprovides := hs₀.later hs
  obtain ⟨found, hfound, hparent, hrole, hnames⟩ := hbinds
  have hupholds : Session.Upholds b.tree (fun _ => own) s₀.scopes.size (b.Confined own own s₀) :=
    Session.Confined.upholds hclosed hown.lt_size hown.child
  refine (hupholds.runs_bindSource Session.allows_all (hv.guarded s₀) (course_goes.stays hs) ho
    hprovides.lt_size hnew (Array.getElem?_eq_some_iff.mp hfound).1 select).with_result
      fun _ s' hx => ?_
  obtain ⟨exposed, source, s₁, hexposed, hbind, hcases⟩ :=
    bindSource_eq_ok (N := b.naming) (fun _ => hs.1.rewrites.1.node?_of_isClause) hx
  -- Before the name is bound the scope is as it was, also when a query has been validated.
  have hbound : s₁.scopes.get? scope = some found → s'.BindsOnly b.naming parent scope select := by
    intro hsame
    obtain ⟨found', hfound', hafter⟩ := get?_of_bindName hbind
    obtain rfl := Option.some.inj (hsame.symm.trans hfound')
    refine ⟨_, hafter, hparent, hrole, fun c hc => ?_⟩
    rcases List.mem_append.mp hc with hc | hc
    · exact hnames c hc
    · obtain rfl := List.mem_singleton.mp hc
      exact ⟨entry, hentry, exposed, hexposed, rfl⟩
  rcases hcases with ⟨name, label, table, hn, htable, hscopes⟩ |
    ⟨query, label, row, s₂, hn, hquery, hscopes⟩
  · rw [hs.2.continues.settings] at htable
    refine ⟨⟨fun name' label' hn' => ?_, fun query label' hn' => ?_⟩, hbound (hscopes ▸ hfound)⟩
    · cases hn.symm.trans hn'
      exact hprovides.of_requireTable htable
    · cases hn.symm.trans hn'
  · have hchild : own query := hown.child entry query ho ⟨_, hn, by simp [Node.children]⟩
    have hlater := ((hv.guarded s).query hself hchild hprovides.lt_size).of_ok hquery
    refine ⟨⟨fun name label' hn' => ?_, fun query' label' hn' => ?_⟩, hbound ?_⟩
    · cases hn.symm.trans hn'
    · cases hn.symm.trans hn'
      exact hv.query hself hprovides hchild hquery
    · rw [hscopes]
      exact hlater.1.2.scopes scope found hfound

omit hclosed hown in
/-- Validating a part is a later moment, from which more can be validated. -/
theorem advances_query {row : DataType} (hs : b.Advances own s s)
    (hprovides : s.ProvidesOnly b.naming scope env) (ha : own a)
    (h : v.query scope a s = (.ok row, s')) : b.Advances own s s' :=
  (((hv.guarded s).query hs ha hprovides.lt_size).of_ok h).1

omit hclosed hown in
theorem advances_expression {type : DataType} (hs : b.Advances own s s)
    (hprovides : s.ProvidesOnly b.naming scope env) (ha : own a) (hw : Tree.Wraps b.tree s.tree a id)
    (h : v.expression scope id s = (.ok type, s')) : b.Advances own s s' :=
  (((hv.guarded s).expression hs (.inl ⟨a, ha, hw⟩) hprovides.lt_size).of_ok h).1

omit hclosed hown in
/-- The expressions of a SELECT list are resolved. -/
theorem selectColumns {columns columns' : Columns} {place : Nat} {items : List SelectItem}
    (hs : b.Advances own s s) (hprovides : s.ProvidesOnly b.naming scope env)
    (hitems : ∀ c ∈ items.flatMap Node.itemChild, own c)
    (h : SqlTyping.selectColumns v scope columns place items s = (.ok columns', s')) :
    ∀ c ∈ items.flatMap Node.itemChild, b.naming.Resolved b.operators env c := by
  induction items generalizing s columns place with
  | nil => exact fun c hc => absurd hc List.not_mem_nil
  | cons item rest ih =>
    obtain ⟨columns₁, s₁, hitem, hrest⟩ := bind_eq_ok_iff.mp h
    rw [List.flatMap_cons] at hitems ⊢
    have hrestItems := fun c hc => hitems c (List.mem_append_right _ hc)
    cases item with
    | star =>
      obtain ⟨_, _, hstate, hpure⟩ := bind_eq_ok_iff.mp hitem
      cases hstate
      cases hpure
      exact ih hs hprovides hrestItems hrest
    | expression c label =>
      obtain ⟨type, s₂, hexpression, hitem⟩ := bind_eq_ok_iff.mp hitem
      obtain ⟨node, s₃, hread, hpure⟩ := bind_eq_ok_iff.mp hitem
      obtain ⟨rfl, -⟩ := node_eq_ok hread
      cases hpure
      have hc := hitems c (List.mem_append_left _ (List.mem_singleton.mpr rfl))
      have hlater := hv.advances_expression hs hprovides hc .self hexpression
      have hrest := ih (course_advances.stays hlater) (hprovides.later hlater) hrestItems hrest
      intro x hx
      rcases List.mem_append.mp hx with hx | hx
      · obtain rfl := List.mem_singleton.mp hx
        exact hv.expression hs hprovides hc .self hexpression
      · exact hrest x hx

omit hclosed hown in
/-- The condition of a SELECT, if there is one, and the expressions of its list are resolved. -/
theorem selectTail {block : SelectBlock} {row : DataType} (hs : b.Advances own s s)
    (hprovides : s.ProvidesOnly b.naming scope env)
    (hparts : ∀ c ∈ block.condition.toList ++ block.items.flatMap Node.itemChild, own c)
    (h : SqlTyping.selectTail v scope block s = (.ok row, s')) :
    ∀ c ∈ block.condition.toList ++ block.items.flatMap Node.itemChild,
      b.naming.Resolved b.operators env c := by
  obtain ⟨columns, s₁, hfirst, hcolumns, -⟩ := selectTail_eq_ok h
  cases hcondition : block.condition with
  | none =>
    simp only [hcondition, Option.toList_none, List.nil_append] at hparts hfirst ⊢
    subst hfirst
    exact hv.selectColumns hs hprovides hparts hcolumns
  | some condition =>
    simp only [hcondition, Option.toList_some, List.singleton_append] at hparts hfirst ⊢
    obtain ⟨type, hexpression⟩ := hfirst
    obtain ⟨hc, hitems⟩ := List.forall_mem_cons.mp hparts
    have hlater := hv.advances_expression hs hprovides hc .self hexpression
    exact List.forall_mem_cons.mpr ⟨hv.expression hs hprovides hc .self hexpression,
      hv.selectColumns (course_advances.stays hlater) (hprovides.later hlater) hitems hcolumns⟩

/-- A SELECT is resolved. -/
theorem selectRow {q : NodeId} {block : SelectBlock} {row : DataType} (hs : b.Advances own s s)
    (hprovides : s.ProvidesOnly b.naming parent env) (hn : b.tree.node? q = some (.select block))
    (hq : own q) (h : SqlTyping.selectRow v parent q block s = (.ok row, s')) :
    b.naming.Resolved b.operators env q := by
  have hchild : ∀ c ∈ (Node.select block).children, own c := fun c hc => hown.child q c hq ⟨_, hn, hc⟩
  simp only [Node.children, List.mem_append] at hchild
  have hlisted : b.naming.sourcesOf q = block.sources := Naming.sourcesOf_of_select hn
  have hupholds : Session.Upholds b.tree (fun _ => own) s.scopes.size (b.Confined own own s) :=
    Session.Confined.upholds hclosed hown.lt_size hown.child
  rw [selectRow_eq] at h
  obtain ⟨scope, s₁, hnew, h⟩ := bind_eq_ok_iff.mp h
  obtain ⟨_, s₂, hsources, h⟩ := bind_eq_ok_iff.mp h
  obtain ⟨hs₁, hnext, -⟩ := (hupholds.runs_newScope (E := fun _ => True) hs hprovides.lt_size .block
    trivial (some q)).of_ok hnew
  obtain ⟨found, hfound, hparent, hrole, hbindings⟩ := get?_of_newScope hnew
  have hopened : s₁.BindsOnly b.naming parent scope q :=
    ⟨found, hfound, hparent, hrole, fun c hc => by rw [hbindings] at hc; cases hc⟩
  obtain ⟨hs₂, hbound, hbinds⟩ := (Runs.forM_keeping course_goes (course_goes.stays hs₁) hopened
    (fun _ _ _ _ hk => hk) fun entry hentry t ht hJ => hv.bindSource hclosed hown
      (course_goes.trans hs₁ ht) hprovides hJ (Nat.le_of_eq hnext.symm) (hlisted ▸ hentry)
      (hchild entry (.inl (.inr hentry)))).of_ok hsources
  have hlater : b.Advances own s s₂ := course_goes.trans hs₁ hs₂
  have hinside : s₂.ProvidesOnly b.naming scope (.block q :: env) :=
    (hprovides.later hlater).block hbinds
  have hparts := hv.selectTail (course_advances.stays hlater) hinside (fun c hc => hchild c (by
    rcases List.mem_append.mp hc with hc | hc
    · exact .inr hc
    · exact .inl (.inl hc))) h
  refine .of_node (n := b.naming) hn (fun entry hentry name label hentryNode =>
    (hbound entry (hlisted ▸ hentry)).1 name label hentryNode) ?_
  rintro ⟨c, env'⟩ (hx | hx)
  · rcases List.mem_append.mp hx with hx | hx
    · obtain ⟨query, hmem, heq⟩ := List.mem_map.mp hx
      obtain ⟨entry, hentry, hquery⟩ := List.mem_flatMap.mp hmem
      cases heq
      obtain ⟨label, hentryNode⟩ := Tree.mem_sourceQuery_iff.mp hquery
      exact (hbound entry hentry).2 c label hentryNode
    · obtain ⟨c', hmem, heq⟩ := List.mem_map.mp hx
      cases heq
      exact hparts c hmem
  · cases hx

omit hclosed hown in
/-- So are the inputs of a set operation. -/
theorem setOperationRow {operation : SetOperation} {row : DataType} (hs : b.Advances own s s)
    (hprovides : s.ProvidesOnly b.naming scope env) (hleft : own operation.left)
    (hright : own operation.right)
    (h : SqlTyping.setOperationRow v scope operation s = (.ok row, s')) :
    b.naming.Resolved b.operators env operation.left ∧
      b.naming.Resolved b.operators env operation.right := by
  obtain ⟨first, second, s₁, hfirst, hsecond, -⟩ := setOperationRow_eq_ok h
  have hs₁ := hv.advances_query hs hprovides hleft hfirst
  exact ⟨hv.query hs hprovides hleft hfirst,
    hv.query (course_advances.stays hs₁) (hprovides.later hs₁) hright hsecond⟩

/-- The parts of a recursive item are resolved. -/
theorem recursiveRow {name : String} {item : WithItem} {row : DataType} (hs : b.Advances own s s)
    (hprovides : s.ProvidesOnly b.naming parent env) (hid : own id)
    (hitem : (s.sources.ofNode? id).isSome = true) (hname : name = qualifiedName item.name)
    (hn : b.tree.node? id = some (.withItem item)) (hrecursive : item.recursive = true)
    (h : SqlTyping.recursiveRow v parent id name item s = (.ok row, s')) :
    ∀ x ∈ b.tree.itemParts env id, b.naming.Resolved b.operators x.2 x.1 := by
  subst hname
  have hquery : own item.query := hown.child id _ hid ⟨_, hn, by simp [Node.children]⟩
  have hupholds : ∀ s, Session.Upholds b.tree (fun _ => own) s.scopes.size (b.Confined own own s) :=
    fun _ => Session.Confined.upholds hclosed hown.lt_size hown.child
  obtain ⟨n, s₀, hread, h⟩ := bind_eq_ok_iff.mp h
  obtain ⟨rfl, hbody⟩ := node_eq_ok hread
  cases n with
  | setOperation operation =>
    have hwritten := hs.1.rewrites.1.node?_of_isClause hbody rfl
    have hleft : own operation.left := hown.child _ _ hquery ⟨_, hwritten, by simp [Node.children]⟩
    obtain ⟨view, s₁, hview, h⟩ := bind_eq_ok_iff.mp h
    obtain ⟨anchor, s₂, hanchor, h⟩ := bind_eq_ok_iff.mp h
    obtain ⟨renamedRow, s₃, hrenamed, h⟩ := bind_eq_ok_iff.mp h
    obtain ⟨_, s₄, hset, h⟩ := bind_eq_ok_iff.mp h
    obtain ⟨scope, s₅, hnew, hbodyRow⟩ := bind_eq_ok_iff.mp h
    obtain ⟨-, rfl⟩ := Prod.mk.inj hrenamed
    obtain ⟨hs₁, hsource, hseen⟩ := (@Session.Upholds.runs_selfView _ _ _ depth _ (fun _ => True) _ _
      (hupholds s₀) hs hid ⟨item, hn, hrecursive⟩ hitem).of_ok hview
    have hs₁ : b.Advances own s₀ s₁ := hs₁
    have hs₁' : b.Advances own s₁ s₁ := course_advances.stays hs₁
    have hprovides₁ := hprovides.later hs₁
    have hs₂ := hv.advances_query hs₁' hprovides₁ hleft hanchor
    have hs₂' : b.Advances own s₂ s₂ := course_advances.stays hs₂
    have hs₄ : b.Advances own s₂ s₄ := ((@Session.Upholds.runs_setRow _ _ _ depth _ (fun _ => True) _ _
      (hupholds s₂) hs₂' hid _ (hs₂.1.source hsource) _).of_ok hset).1
    have hprovides₄ := (hprovides₁.later hs₂).later hs₄
    have hpresents := Session.Presents.recursiveItem hseen (hs₂.1.trans hs₄.1).sources
      (qualifiedName item.name)
    obtain ⟨hs₅, -⟩ := ((hupholds s₄).runs_newScope (E := fun _ => True) (course_advances.stays hs₄)
      hprovides₄.lt_size _ hpresents (some id)).of_ok hnew
    have hs₅ : b.Advances own s₄ s₅ := hs₅
    obtain ⟨found, hfound, hparent, hrole, hbindings⟩ := get?_of_newScope hnew
    have hinside := (hprovides₄.later hs₅).recursive hfound hparent hrole hbindings
    rw [Tree.itemParts_of_recursive hn hrecursive hwritten]
    intro x hx
    rcases List.mem_cons.mp hx with rfl | hx
    · exact hv.query hs₁' hprovides₁ hleft hanchor
    · obtain rfl := List.mem_singleton.mp hx
      exact hv.query (course_advances.stays hs₅) hinside hquery hbodyRow
  | _ => cases h

/-- So are the parts of any WITH item. The scope behind it provides only the item and what is around
    it. -/
theorem bindWithItem (hs : b.Advances own s s) (hprovides : s.ProvidesOnly b.naming parent env)
    (hid : own id) (h : SqlTyping.bindWithItem v parent id s = (.ok scope, s')) :
    b.Advances own s s' ∧ s'.ProvidesOnly b.naming scope (b.tree.itemEnv env id) ∧
      ∀ x ∈ b.tree.itemParts env id, b.naming.Resolved b.operators x.2 x.1 := by
  have hupholds : ∀ s, Session.Upholds b.tree (fun _ => own) s.scopes.size (b.Confined own own s) :=
    fun _ => Session.Confined.upholds hclosed hown.lt_size hown.child
  have hs' : b.Advances own s s' := ((hupholds s).runs_bindWithItem Session.allows_all (hv.guarded s) hs
    hid hprovides.lt_size).of_ok h |>.1
  obtain ⟨w, found, hn, hfound, hparent, hrole, hbindings⟩ := get?_of_bindWithItem h
  have hwritten := hs.1.rewrites.1.node?_of_isClause hn rfl
  have henv : b.tree.itemEnv env id = .item id (qualifiedName w.name) :: env := by
    unfold Tree.itemEnv
    rw [hwritten]
  refine ⟨hs', henv ▸ (hprovides.later hs').item hfound hparent hrole hbindings, ?_⟩
  rw [SqlTyping.bindWithItem, Host.lift_self, bind_of_ok (node_of_some hn)] at h
  obtain ⟨source, s₁, hregister, h⟩ := bind_eq_ok_iff.mp h
  obtain ⟨hs₁, -, hitem⟩ := (@Session.Upholds.runs_register _ _ _ depth _ (fun _ => True) _ _
    (hupholds s) hs hid .withItem none).of_ok hregister
  have hs₁ : b.Advances own s s₁ := hs₁
  have hs₁' : b.Advances own s₁ s₁ := course_advances.stays hs₁
  have hprovides₁ := hprovides.later hs₁
  split at h
  · rename_i hrecursive
    obtain ⟨body, s₂, hbody, -⟩ := bind_eq_ok_iff.mp h
    exact hv.recursiveRow hclosed hown hs₁' hprovides₁ hid hitem rfl hwritten hrecursive hbody
  · rename_i hplain
    obtain ⟨body, s₂, hbody, -⟩ := bind_eq_ok_iff.mp h
    rw [Tree.itemParts_of_not_recursive hwritten hplain]
    intro x hx
    obtain rfl := List.mem_singleton.mp hx
    exact hv.query hs₁' hprovides₁ (hown.child id _ hid ⟨_, hwritten, by simp [Node.children]⟩) hbody

/-- The parts of a WITH query are resolved. -/
theorem withRow {body : NodeId} {items : List NodeId} {row : DataType} (hs : b.Advances own s s)
    (hprovides : s.ProvidesOnly b.naming scope env) (hbody : own body) (hitems : ∀ c ∈ items, own c)
    (h : SqlTyping.withRow v scope body items s = (.ok row, s')) :
    ∀ x ∈ b.tree.withParts body env items, b.naming.Resolved b.operators x.2 x.1 := by
  induction items generalizing s scope env with
  | nil =>
    intro x hx
    obtain rfl := List.mem_singleton.mp hx
    exact hv.query hs hprovides hbody h
  | cons item rest ih =>
    obtain ⟨inner, s₁, hbind, hrest⟩ := bind_eq_ok_iff.mp h
    obtain ⟨hs₁, hinner, hparts⟩ :=
      hv.bindWithItem hclosed hown hs hprovides (hitems item (List.mem_cons_self ..)) hbind
    intro x hx
    rcases List.mem_append.mp hx with hx | hx
    · exact hparts x hx
    · exact ih (course_advances.stays hs₁) hinner (fun c hc => hitems c (List.mem_cons_of_mem _ hc))
        hrest x hx

/-- A query that is validated with a result is resolved when this holds of what lies below it. -/
theorem queryStep {q : NodeId} {row : DataType} (hs : b.Advances own s s)
    (hprovides : s.ProvidesOnly b.naming scope env) (hq : own q)
    (h : SqlTyping.queryStep v scope q s = (.ok row, s')) :
    b.naming.Resolved b.operators env q := by
  obtain ⟨n, s₁, hn, hrow, -⟩ := queryStep_eq_ok h
  have hchild : ∀ n, b.tree.node? q = some n → ∀ c ∈ n.children, own c := fun n hn c hc =>
    hown.child q c hq ⟨n, hn, hc⟩
  cases n with
  | select block =>
    exact hv.selectRow hclosed hown hs hprovides (hs.1.rewrites.1.node?_of_isClause hn rfl) hq hrow
  | setOperation operation =>
    have hwritten := hs.1.rewrites.1.node?_of_isClause hn rfl
    obtain ⟨hleft, hright⟩ := hv.setOperationRow hs hprovides
      (hchild _ hwritten operation.left (by simp [Node.children]))
      (hchild _ hwritten operation.right (by simp [Node.children])) hrow
    refine .of_node hwritten (Naming.findsTables_of_not_select hwritten (by simp)) ?_
    rintro x (hx | hx)
    · rcases List.mem_cons.mp hx with rfl | hx
      · exact hleft
      · obtain rfl := List.mem_singleton.mp hx
        exact hright
    · cases hx
  | withQuery items body =>
    have hwritten := hs.1.rewrites.1.node?_of_isClause hn rfl
    refine .of_node hwritten (Naming.findsTables_of_not_select hwritten (by simp)) ?_
    rintro x (hx | hx)
    · exact hv.withRow hclosed hown hs hprovides (hchild _ hwritten body (by simp [Node.children]))
        (fun c hc => hchild _ hwritten c (by simp [Node.children, hc])) hrow x hx
    · cases hx
  | _ => cases hrow

/-! ### Expressions -/

omit hclosed hown in
/-- The operands that are no keywords are resolved. -/
theorem visitOperands {signature : Signature} {index : Nat} {operands : List NodeId} {x : Unit}
    (hs : b.Advances own s s) (hprovides : s.ProvidesOnly b.naming scope env)
    (hparts : ∀ o ∈ operands, Tree.IsPart b.tree (fun _ => own) depth s.tree o)
    (h : SqlTyping.visitOperands v scope signature index operands s = (.ok x, s')) {i : Nat}
    {operand : NodeId} (ho : operands[i]? = some operand)
    (hkey : signature.isKeyword (index + i) = false) (ha : own a)
    (hw : Tree.Wraps b.tree s.tree a operand) : b.naming.Resolved b.operators env a := by
  induction operands generalizing s index i with
  | nil => cases ho
  | cons first rest ih =>
    have hstep : ∀ t, b.Advances own s t →
        SqlTyping.visitOperands v scope signature (index + 1) rest t = (.ok x, s') →
          ∀ j, i = j + 1 → b.naming.Resolved b.operators env a := by
      rintro t ht hrest j rfl
      refine ih (course_advances.stays ht) (hprovides.later ht) (fun o ho =>
        Session.Upholds.isPart_mono (hparts o (List.mem_cons_of_mem _ ho)) ht.1.rewrites.2) hrest ho ?_
          (hw.mono ht.1.rewrites.2)
      rwa [Nat.add_right_comm, Nat.add_assoc]
    unfold SqlTyping.visitOperands at h
    split at h
    · obtain ⟨type, s₁, hexpression, hrest⟩ := bind_eq_ok_iff.mp h
      cases i with
      | zero =>
        obtain rfl := Option.some.inj ho
        exact hv.expression hs hprovides ha hw hexpression
      | succ j =>
        have hrun := (hv.guarded s).expression hs (hparts first (List.mem_cons_self ..))
          hprovides.lt_size
        exact hstep s₁ (hrun.of_ok hexpression).1 hrest j rfl
    · rename_i hskip
      cases i with
      | zero =>
        rw [Nat.add_zero] at hkey
        exact absurd (by rw [hkey]; rfl) hskip
      | succ j => exact hstep s hs h j rfl

/-- The operands of a call that are looked at are resolved. -/
theorem callType {call : NodeId} {name : String} {written operands : List NodeId} {type : DataType}
    (hs : b.Advances own s s) (hprovides : s.ProvidesOnly b.naming scope env) (hcall : own call)
    (hwritten : b.tree.node? call = some (.call name written))
    (hn : s.tree.node? call = some (.call name operands))
    (h : SqlTyping.callType v scope call name operands s = (.ok type, s')) {c : NodeId}
    (hc : c ∈ b.operators.visitedOperands name written) : b.naming.Resolved b.operators env c := by
  obtain ⟨op, index, hop, hkey, hindex⟩ := OperatorTable.exists_of_mem_visitedOperands hc
  obtain ⟨current, hcurrent, hwraps⟩ := hs.1.rewrites.1.rewritten.call call name written hwritten
  obtain rfl : operands = current := by
    rw [hn] at hcurrent
    cases hcurrent
    rfl
  have hupholds : Session.Upholds b.tree (fun _ => own) s.scopes.size (b.Confined own own s) :=
    Session.Confined.upholds hclosed hown.lt_size hown.child
  obtain ⟨hlt, rfl⟩ := List.getElem?_eq_some_iff.mp hindex
  have hlt' : index < operands.length := hwraps.length_eq ▸ hlt
  have hc : own written[index] := hown.child call _ hcall ⟨_, hwritten, List.getElem_mem hlt⟩
  unfold SqlTyping.callType at h
  rw [bind_of_ok (state_apply s), Host.session_self, hs.2.continues.operators, hop] at h
  have h : (if !op.arity.admits operands.length then _ else _ : Validation DataType) s = _ := h
  split at h
  · cases h
  · obtain ⟨all, s₁, hpad, h⟩ := bind_eq_ok_iff.mp h
    obtain ⟨_, s₂, hvisit, -⟩ := bind_eq_ok_iff.mp h
    obtain ⟨hs₁, htracks, hmem⟩ := (@Session.Upholds.runs_padded _ _ _ depth _ (fun _ => True) _ hupholds
      _ _ _ hcall _ hs hn hwraps op.signature).of_ok hpad
    have hs₁ : b.Advances own s s₁ := hs₁
    refine hv.visitOperands (course_advances.stays hs₁) (hprovides.later hs₁) (fun o ho =>
      hupholds.isPart_of_tracks hcall hwritten htracks (hmem o ho)) hvisit
        (List.getElem?_eq_getElem hlt') ?_ hc ((hwraps.get hlt hlt').mono hs₁.1.rewrites.2)
    rwa [Nat.zero_add]

/-- An expression that is no cast is resolved. -/
theorem expressionType {core : NodeId} {n : Node} {type : DataType} (hs : b.Advances own s s)
    (hprovides : s.ProvidesOnly b.naming scope env) (hcore : own core)
    (hn : s.tree.node? core = some n)
    (h : SqlTyping.expressionType v scope core n s = (.ok type, s')) :
    b.naming.Resolved b.operators env core := by
  have hwritten : n.operands? = none → b.tree.node? core = some n :=
    hs.1.rewrites.1.rewritten.node?_eq (hown.lt_size core hcore) hn
  have hleaf : n.operands? = none → (∀ block, n ≠ .select block) →
      (∀ x, x ∈ b.tree.queryParts env core n ∨ x ∈ Tree.expressionParts b.operators env n →
        b.naming.Resolved b.operators x.2 x.1) → b.naming.Resolved b.operators env core :=
    fun hoperands hselect hparts => .of_node (hwritten hoperands)
      (Naming.findsTables_of_not_select (hwritten hoperands) hselect) hparts
  cases n with
  | literal | identifier | default =>
    refine hleaf rfl (by simp) ?_
    rintro x (hx | hx)
    · cases hx
    · cases hx
  | call name operands =>
    obtain ⟨written, hcall, -⟩ := hs.1.rewrites.1.rewritten.call_of_call hn
    refine .of_node hcall (Naming.findsTables_of_not_select hcall (by simp)) ?_
    rintro ⟨c, env'⟩ (hx | hx)
    · cases hx
    · obtain ⟨c', hc, heq⟩ := List.mem_map.mp hx
      cases heq
      exact hv.callType hclosed hown hs hprovides hcore hcall hn h hc
  | cursor query =>
    obtain ⟨row, s₁, hquery, -⟩ := bind_eq_ok_iff.mp h
    refine hleaf rfl (by simp) ?_
    rintro x (hx | hx)
    · cases hx
    · obtain rfl := List.mem_singleton.mp hx
      exact hv.query hs hprovides
        (hown.child core query hcore ⟨_, hwritten rfl, by simp [Node.children]⟩) hquery
  | _ => cases h

/-- An expression that is validated with a result is resolved when this holds of what lies below it. -/
theorem expressionStep {type : DataType} (hacyclic : ∀ a, own a → ¬ Relation.TransGen b.tree.Child a a)
    (hs : b.Advances own s s) (hprovides : s.ProvidesOnly b.naming scope env) (ha : own a)
    (hw : Tree.Wraps b.tree s.tree a id)
    (h : SqlTyping.expressionStep v scope id s = (.ok type, s')) :
    b.naming.Resolved b.operators env a := by
  obtain ⟨casts, core, hpeel⟩ : ∃ casts core, s.tree.peelCasts s.tree.size id = (casts, core) :=
    ⟨_, _, rfl⟩
  have hrewrites := hs.1.rewrites.1
  have hends := hown.peelCasts_ends hrewrites.rewritten hrewrites.closed hacyclic ha hw hpeel
  have hpeeled : Tree.Peeled s.operators b.tree s.tree a casts core :=
    Tree.peeled_of_peelCasts hrewrites.rewritten hclosed hw (hown.lt_size a ha) hpeel hends
  have hbelow : ∀ c, Relation.ReflTransGen b.tree.Child a c → own c := by
    intro c hc
    induction hc with
    | refl => exact ha
    | tail _ hc ih => exact hown.child _ _ ih hc
  have hcore := hbelow core hpeeled.below.child
  unfold SqlTyping.expressionStep at h
  rw [bind_of_ok (state_apply s)] at h
  simp only [Host.session_self, Host.lift_self, hpeel] at h
  obtain ⟨n, s₁, hread, hrest⟩ := bind_eq_ok_iff.mp h
  obtain ⟨rfl, hn⟩ := node_eq_ok hread
  obtain ⟨type', s₂, htype, -⟩ := bind_eq_ok_iff.mp hrest
  exact .of_peeled (hv.expressionType hclosed hown hs hprovides hcore hn htype) hpeeled
    (hacyclic core hcore)

end Visit.Finds

end

/-! ### All depths -/

/-- What is validated with a result, to whatever depth, is resolved. -/
theorem visitAt_finds (hclosed : b.tree.NoDangling) (hown : b.tree.IsClosed own)
    (hacyclic : ∀ a, own a → ¬ Relation.TransGen b.tree.Child a a) (depth : Nat) :
    (visitAt depth).Finds b own depth := by
  have hguarded : ∀ depth s, (visitAt depth).Guarded b.tree (fun _ => own) (b.Confined own own s)
      (fun _ => True) depth := fun depth _ =>
    visitAt_confined hclosed hown.lt_size hown.child depth
  induction depth with
  | zero =>
    refine ⟨fun s => hguarded 0 s, fun _ _ _ h => ?_, fun _ _ _ _ h => ?_⟩
    · cases h
    · cases h
  | succ depth ih =>
    refine ⟨fun s => hguarded (depth + 1) s, fun hs hprovides ha h => ?_, fun hs hprovides ha hw h => ?_⟩
    · exact ih.queryStep hclosed hown hs hprovides ha h
    · exact ih.expressionStep hclosed hown hacyclic hs hprovides ha hw h

end SqlTyping
