import SqlTyping.Proofs.Scope.WithItems
import SqlTyping.Proofs.Session.Linking

namespace SqlTyping

/-!
# WITH items as subqueries

A WITH item that is neither recursive nor has a column list stands for its query: `WITH t AS (q) SELECT ..
FROM t` comes to the same as `SELECT .. FROM (q) AS t`. The two forms register different row sources and
open different scopes, so two renumberings are needed:

* `Tree.TwoForms` — a SELECT over a query under a name, in both forms over the same nodes;
* `Session.insideForms` — how numbers correspond while the query is validated; the first form has
  registered its item by then, the second one has opened the scope of its SELECT;
* `Session.behindForms` — how they correspond behind it: in the first form there is one scope more around
  the SELECT, which shows the item and hides nothing that the SELECT does not hide itself;
* `Session.Queried` — both forms have validated the query; `Queried.firstForm`, `Queried.secondForm` — what
  is left then is what follows the FROM list;
* `Session.Reached.withItem_eq_subquery` — so both forms come to the same.
-/

/-- A SELECT over a query under a name, in two forms: `WITH name AS (query) SELECT .. FROM name`, and
    `SELECT .. FROM (query) AS name`. -/
structure Tree.TwoForms (t : Tree) where
  name : String
  query : NodeId
  items : List SelectItem
  condition : Option NodeId
  /-- The first form, its item, the SELECT behind it, and the entry of that. -/
  withQuery : NodeId
  item : NodeId
  body : NodeId
  table : NodeId
  /-- The second form, and its entry. -/
  select : NodeId
  subquery : NodeId
  withQuery_eq : t.node? withQuery = some (.withQuery [item] body)
  item_eq : t.node? item =
    some (.withItem { name := [name], columns := none, query, recursive := false })
  body_eq : t.node? body = some (.select { items, sources := [table], condition })
  table_eq : t.node? table = some (.tableRef [name] none)
  select_eq : t.node? select = some (.select { items, sources := [subquery], condition })
  subquery_eq : t.node? subquery = some (.subqueryRef query name)

namespace Tree.TwoForms

variable {t : Tree} (f : t.TwoForms)

/-- What follows the FROM list. -/
def tail : List NodeId := f.condition.toList ++ f.items.flatMap Node.itemChild

/-- The nodes of both forms: the query, what follows the FROM list, and everything below. -/
def Shared (id : NodeId) : Prop := ∃ part ∈ f.query :: f.tail, Relation.ReflTransGen t.Child part id

theorem shared_query : f.Shared f.query := ⟨_, List.mem_cons_self .., .refl⟩

theorem shared_of_mem_tail {part : NodeId} (h : part ∈ f.tail) : f.Shared part :=
  ⟨part, List.mem_cons_of_mem _ h, .refl⟩

theorem child_item : t.Child f.withQuery f.item := ⟨_, f.withQuery_eq, by simp [Node.children]⟩

theorem child_body : t.Child f.withQuery f.body := ⟨_, f.withQuery_eq, by simp [Node.children]⟩

theorem child_query : t.Child f.item f.query := ⟨_, f.item_eq, by simp [Node.children]⟩

theorem child_of_mem_tail {part : NodeId} (h : part ∈ f.tail) : t.Child f.body part := by
  refine ⟨_, f.body_eq, ?_⟩
  rcases List.mem_append.mp h with h | h
  · exact List.mem_append_right _ h
  · exact List.mem_append_left _ (List.mem_append_left _ h)

/-- Everything that the forms have in common is below the first one. -/
theorem below_of_shared {id : NodeId} (h : f.Shared id) :
    Relation.ReflTransGen t.Child f.withQuery id := by
  obtain ⟨part, hpart, hid⟩ := h
  rcases List.mem_cons.mp hpart with rfl | hpart
  · exact (Relation.ReflTransGen.single f.child_item).trans (.head f.child_query hid)
  · exact (Relation.ReflTransGen.single f.child_body).trans (.head (f.child_of_mem_tail hpart) hid)

theorem isClosed_shared (hclosed : t.NoDangling) : t.IsClosed f.Shared := by
  have hlt : f.withQuery.index < t.size := isSome_node?_iff.mp (by rw [f.withQuery_eq]; rfl)
  refine ⟨fun id hid => (hclosed.isClosed_reach hlt).lt_size id (f.below_of_shared hid), ?_⟩
  rintro id c ⟨part, hpart, hid⟩ hc
  exact ⟨part, hpart, hid.tail hc⟩

section

variable {rank : NodeId → Nat} {depth : Nat}
  (hrank : ∀ p c, Relation.ReflTransGen t.Child f.withQuery p → t.Child p c → rank c < rank p)

include hrank

/-- Where the first form has room, its query has one level more than it needs. -/
theorem hasRoom_query (hroom : rank f.withQuery < depth + 1) :
    Tree.HasRoom f.Shared rank (depth + 1) f.query := by
  have hitem := hrank _ _ .refl f.child_item
  have hquery := hrank _ _ (.single f.child_item) f.child_query
  exact ⟨f.shared_query, by omega⟩

/-- What follows the FROM list lies one level deeper in the first form, and has room there. -/
theorem hasRoom_of_mem_tail (hroom : rank f.withQuery < depth + 1) :
    ∀ c ∈ f.tail, Tree.HasRoom f.Shared rank depth c := fun c hc => by
  have hbody := hrank _ _ .refl f.child_body
  have hpart := hrank _ _ (.single f.child_body) (f.child_of_mem_tail hc)
  exact ⟨f.shared_of_mem_tail hc, by omega⟩

/-- Renumberings that move nodes nowhere suit what the forms have in common. -/
theorem suits (hclosed : t.NoDangling)
    (hacyclic : ∀ id, Relation.ReflTransGen t.Child f.withQuery id → ¬ Relation.TransGen t.Child id id)
    {ρ : Renumbering} (hnodes : ρ.nodes.start = t.size) (hitems : ∀ id, f.Shared id → ρ.items id) :
    ρ.Suits t f.Shared rank :=
  ⟨hnodes, hitems, hclosed, f.isClosed_shared hclosed, fun id hid => hacyclic id (f.below_of_shared hid),
    fun p c hp => hrank p c (f.below_of_shared hp)⟩

end

end Tree.TwoForms

/-! ### Numbers -/

/-- While the query is validated the first form has registered its item, and the second one has added the
    scope of its SELECT. Whatever else there was before keeps its number. -/
def Session.insideForms (s : Session) (item : NodeId) : Renumbering where
  nodes := ⟨s.tree.size, 0⟩
  scopes := .kept s.scopes.size (s.scopes.size + 1) (· < s.scopes.size) fun h =>
    ⟨h, Nat.lt_succ_of_lt h⟩
  sources := .kept (s.sources.size + 1) s.sources.size (· < s.sources.size) fun h =>
    ⟨Nat.lt_succ_of_lt h, h⟩
  items := (· ≠ item)
  more := []

/-- Behind the query, when there are `scopes` scopes in the first form and `sources` row sources in the
    second one: the SELECT of the first form has its scope inside that of the item, and the second form
    has registered its query. The scopes of the query itself are out of sight. -/
def Session.behindForms (s : Session) (item subquery : NodeId) (scopes sources : Nat)
    (hscopes : s.scopes.size ≤ scopes) (hsources : s.sources.size ≤ sources) : Renumbering where
  nodes := ⟨s.tree.size, 0⟩
  scopes := {
    left := scopes + 2
    right := scopes + 1
    old := fun i => if i < s.scopes.size then i else s.scopes.size
    known := fun i => i < s.scopes.size ∨ i = scopes + 1
    lt := fun h => by split <;> omega
    inj := fun hi hj heq => by split at heq <;> split at heq <;> omega }
  sources := {
    left := sources + 1
    right := sources + 1
    old := fun i => if i < s.sources.size then i else if i = s.sources.size then sources else i - 1
    known := (· < sources + 1)
    lt := fun h => by split <;> [omega; split <;> omega]
    inj := fun hi hj heq => by
      split at heq <;> split at heq <;>
        first | omega | (split at heq <;> first | omega | (split at heq <;> omega)) }
  items := fun id => id ≠ item ∧ id ≠ subquery
  more := []

/-- The scopes and the row sources of a session keep their numbers, and the items that scopes show are
    among those that correspond. -/
structure Renumbering.Keeps (ρ : Renumbering) (s : Session) : Prop where
  scopes : ∀ i, i < s.scopes.size → ρ.scopes.known i ∧ ρ.scopes.old i = i
  sources : ∀ i, i < s.sources.size → ρ.sources.known i ∧ ρ.sources.old i = i
  shown : ∀ id found, s.scopes.get? id = some found → found.role.ShowsOnly ρ.items
  more : ρ.more = []

namespace Renumbering.Keeps

variable {ρ : Renumbering} {s : Session} (hρ : ρ.Keeps s)

include hρ

theorem scope_eq {id : ScopeId} (h : id.index < s.scopes.size) : ρ.scopes.scope id = id := by
  obtain ⟨hknown, hold⟩ := hρ.scopes id.index h
  exact congrArg ScopeId.mk ((Pairing.apply_of_known hknown).trans hold)

theorem source_eq {id : SourceId} (h : id.index < s.sources.size) : ρ.sources.source id = id := by
  obtain ⟨hknown, hold⟩ := hρ.sources id.index h
  exact congrArg SourceId.mk ((Pairing.apply_of_known hknown).trans hold)

/-- What has been registered before is known under its number. -/
theorem holds {sources : RowSources} (hle : s.sources.size ≤ sources.size) {id : SourceId}
    {e : RowSource} (he : s.sources.get? id = some e) : sources.Holds ρ.sources id := by
  have hlt : id.index < s.sources.size := (Array.getElem?_eq_some_iff.mp he).1
  exact ⟨.inl (hρ.sources id.index hlt).1, Nat.lt_of_lt_of_le hlt hle⟩

theorem isVisible {scopes : ScopeTree} (hle : s.scopes.size ≤ scopes.size) {id : ScopeId}
    (hlt : id.index < s.scopes.size) : scopes.Visible ρ.scopes id :=
  ⟨.inl (hρ.scopes id.index hlt).1, Nat.lt_of_lt_of_le hlt hle⟩

/-- A scope that both sessions have from before corresponds to itself. -/
theorem around (hlinked : s.Linked) (hn : s.scopes.Nested) {t : ScopeTree} (hle : s.scopes.size ≤ t.size)
    {id : ScopeId} {found : Scope} (hs : s.scopes.get? id = some found) : t.Around ρ id found found := by
  have hbindings := (Binding.map_renumber_eq fun b hb => by
    obtain ⟨e, he⟩ := hlinked.bound id found b hs hb
    exact hρ.source_eq (Array.getElem?_eq_some_iff.mp he).1).symm
  have hlt := ScopeTree.lt_size_of_get? hs
  cases hparent : found.parent with
  | none =>
    refine .root (ρ.scopes.lt (hρ.scopes _ hlt).1).1 (hlinked.rooted id found hs hparent) hparent
      hparent ?_
    rw [hρ.more, List.append_nil]
    exact hbindings
  | some parent =>
    obtain ⟨outer, houter, -⟩ := hn id found parent hs hparent
    have hparent' := ScopeTree.lt_size_of_get? houter
    refine .inner (.inl hparent) (hρ.isVisible hle hparent') ?_ hbindings
    rw [hρ.scope_eq hparent']
    exact hparent

end Renumbering.Keeps

/-! ### Scopes of the first form -/

/-- To the scopes `t` one has been added that shows the item, and inside it that of a SELECT, which has
    bound the name of the item. -/
structure ScopeTree.BindsItem (t : ScopeTree) (scope shown block : ScopeId) (item : NodeId)
    (name : String) (node : Option NodeId) (source : SourceId) (u : ScopeTree) : Prop where
  shown_eq : shown.index = t.size
  block_eq : block.index = t.size + 1
  size : u.size = t.size + 2
  nested : t.Nested → u.Nested
  grows : t.Extends u
  get_shown : ∃ depth, u.get? shown = some ⟨some scope, .withItem item name, some item, [], depth⟩
  get_block : ∃ depth, u.get? block = some ⟨some shown, .block, node, [⟨[name], source, false⟩], depth⟩

theorem ScopeTree.BindsItem.of_steps {t u₁ u₂ u : ScopeTree} {scope shown block : ScopeId}
    {item : NodeId} {name : String} {node : Option NodeId} {source : SourceId}
    (hshown : t.newWithItem scope item name = .ok (shown, u₁))
    (hblock : u₁.newBlock shown node = .ok (block, u₂))
    (hbound : u₂.addBinding block ⟨[name], source, false⟩ = .ok u) :
    t.BindsItem scope shown block item name node source u := by
  have hsize := size_newScope hshown
  obtain ⟨hnext, outer, -, hget⟩ := get?_newScope hshown
  obtain ⟨hnext', inner, -, hget'⟩ := get?_newScope hblock
  have hkept : ∀ id found, u₁.get? id = some found → u.get? id = some found := by
    intro id found hs
    rw [get?_addBinding hbound, hnext', if_neg (ne_nextId hs)]
    exact get?_newScope_of_some hblock hs
  refine ⟨congrArg ScopeId.index hnext, (congrArg ScopeId.index hnext').trans hsize, ?_,
    fun hn => ((hn.newScope hshown).newScope hblock).addBinding hbound,
    fun id found hs => hkept id found (get?_newScope_of_some hshown hs),
    ⟨outer.depth + 1, hkept shown _ ((hget shown).trans (if_pos rfl))⟩, ⟨inner.depth + 1, ?_⟩⟩
  · rw [size_addBinding hbound, size_newScope hblock, hsize]
  · rw [get?_addBinding hbound, if_pos rfl, hget', if_pos rfl]
    rfl

/-! ### Inside the query -/

namespace Session

variable {s : Session} {own : NodeId → Prop} {item subquery : NodeId}

theorem insideForms_keeps (hfresh : ∀ id found, s.scopes.get? id = some found →
      found.role.ShowsOnly fun id => id ≠ item ∧ id ≠ subquery) : (s.insideForms item).Keeps s where
  scopes _ h := ⟨h, rfl⟩
  sources _ h := ⟨h, rfl⟩
  shown id found h := (hfresh id found h).imp fun _ hid => hid.1
  more := rfl

/-- The source of the item has no counterpart. -/
theorem mirrors_register (howned : s.sources.Owned) :
    RowSources.Mirrors (s.insideForms item).sources (· ≠ item)
      (s.sources.register item .withItem none).2 s.sources := by
  have hsize := RowSources.size_register s.sources item .withItem none
  have hold : ∀ {id : SourceId} {e : RowSource}, s.sources.get? id = some e →
      (s.sources.register item .withItem none).2.Holds (s.insideForms item).sources id ∧
        (s.insideForms item).sources.source id = id := by
    intro id e he
    have hlt : id.index < s.sources.size := (Array.getElem?_eq_some_iff.mp he).1
    exact ⟨⟨.inl hlt, hsize ▸ Nat.lt_succ_of_lt hlt⟩, congrArg SourceId.mk (if_pos (Nat.lt_succ_of_lt hlt))⟩
  have hsame : ∀ {known : Option SourceId}, (∀ id, known = some id → ∃ e, s.sources.get? id = some e) →
      known = known.map (s.insideForms item).sources.source := fun hknown =>
    (Pairing.map_source_eq fun id hid => (hknown id hid).elim fun _ he => (hold he).2).symm
  refine ⟨Nat.le_of_eq hsize.symm, ?_, fun id hid => ?_, fun node hnode => ?_, fun node _ => ?_⟩
  · rw [hsize]
    exact Nat.add_comm _ _
  · have hlt : id.index < s.sources.size := hid.known.resolve_right fun hle => by
      have hless := hid.lt_size
      rw [hsize] at hless
      exact Nat.not_le_of_lt hless hle
    have he : s.sources.get? id = some _ := Array.getElem?_eq_getElem hlt
    refine ⟨_, _, RowSources.Grows.get?_push_of_some he _, ?_, rfl, rfl⟩
    rw [(hold he).2]
    exact he
  · have hnode' : (s.sources.register item .withItem none).2.ofNode? node = s.sources.ofNode? node :=
      (RowSources.ofNode?_register ..).trans (if_neg hnode)
    have hknown : ∀ id, s.sources.ofNode? node = some id → ∃ e, s.sources.get? id = some e :=
      fun id hid => (howned.item node id hid).imp fun _ => And.left
    rw [hnode']
    exact ⟨hsame hknown, fun id hid => (hknown id hid).elim fun _ he => (hold he).1⟩
  · have hknown : ∀ id, s.sources.selfViewOf? node = some id → ∃ e, s.sources.get? id = some e :=
      fun id hid => (howned.selfView node id hid).imp fun _ => And.left
    exact ⟨hsame hknown, fun id hid => (hknown id hid).elim fun _ he => (hold he).1⟩

/-- As far as the query is concerned, the session with the item registered mirrors the one with the scope
    of the SELECT. -/
theorem mirrors_insideForms (hs : s.Grounded) (hlinked : s.Linked) (hown : s.tree.IsClosed own)
    (hfresh : ∀ id found, s.scopes.get? id = some found →
      found.role.ShowsOnly fun id => id ≠ item ∧ id ≠ subquery) {scope block : ScopeId}
    {node : Option NodeId} {scopes : ScopeTree}
    (hnew : s.scopes.newBlock scope node = .ok (block, scopes)) :
    Session.Mirrors (s.insideForms item) own
      { s with sources := (s.sources.register item .withItem none).2 } { s with scopes } := by
  have hkeeps := insideForms_keeps hfresh
  have hsize := ScopeTree.size_newScope hnew
  refine ⟨rfl, rfl, rfl, .refl hown, fun id _ => by rw [Shift.node_of_distance_zero rfl],
    mirrors_register hs.owned, ⟨Nat.le_refl _, ?_, hs.nested, hs.nested.newScope hnew,
      fun id found hid hget => ?_, fun id found _ hget => hkeeps.shown id found hget,
      fun id found b _ hget hb => ?_⟩⟩
  · show scopes.size + s.scopes.size = s.scopes.size + (s.scopes.size + 1)
    rw [hsize]
    exact Nat.add_comm _ _
  · rw [hkeeps.scope_eq hid.lt_size]
    exact ⟨found, ScopeTree.get?_newScope_of_some hnew hget, rfl,
      hkeeps.around hlinked hs.nested (Nat.le_refl _) hget⟩
  · obtain ⟨e, he⟩ := hlinked.bound id found b hget hb
    exact hkeeps.holds (RowSources.Grows.register _ _ _ _).size_le he

/-- The query has been validated from `s` in both forms, up to `t` in the first one and up to `t'` in the
    second one, whose scope had been added as `opened`. -/
structure Queried (s : Session) (own : NodeId → Prop) (item : NodeId) (opened : ScopeTree)
    (t t' : Session) : Prop where
  confined : s.Confined own own
    { s with sources := (s.sources.register item .withItem none).2 } t
  confined' : s.Confined own own { s with scopes := opened } t'
  grows : (s.sources.register item .withItem none).2.Grows t.sources
  mirrors : Session.Mirrors (s.insideForms item) own t t'

namespace Queried

variable {opened : ScopeTree} {t t' : Session} (h : Queried s own item opened t t')

include h

theorem size_scopes : t'.scopes.size = t.scopes.size + 1 := by
  have hsize : t'.scopes.size + s.scopes.size = t.scopes.size + (s.scopes.size + 1) :=
    h.mirrors.scopes.size
  omega

theorem size_sources : t.sources.size = t'.sources.size + 1 := by
  have hsize : t'.sources.size + (s.sources.size + 1) = t.sources.size + s.sources.size :=
    h.mirrors.sources.size
  omega

theorem scopes_le : s.scopes.size ≤ t.scopes.size := h.confined.scopes.size_le

theorem sources_le : s.sources.size ≤ t'.sources.size := by
  have hle := h.grows.size_le
  rw [h.size_sources, RowSources.size_register] at hle
  exact Nat.le_of_succ_le_succ hle

/-- How numbers correspond now. -/
def renumbering (subquery : NodeId) : Renumbering :=
  s.behindForms item subquery t.scopes.size t'.sources.size h.scopes_le h.sources_le

theorem keeps (hfresh : ∀ id found, s.scopes.get? id = some found →
      found.role.ShowsOnly fun id => id ≠ item ∧ id ≠ subquery) : (h.renumbering subquery).Keeps s where
  scopes _ hlt := ⟨.inl hlt, if_pos hlt⟩
  sources _ hlt := ⟨Nat.lt_succ_of_lt (Nat.lt_of_lt_of_le hlt h.sources_le), if_pos hlt⟩
  shown := hfresh
  more := rfl

/-- The source of the item stands for that of the query. -/
theorem source_item : (h.renumbering subquery).sources.source s.sources.nextId = t'.sources.nextId := by
  have hknown : (h.renumbering subquery).sources.known s.sources.nextId.index :=
    Nat.lt_succ_of_le h.sources_le
  refine congrArg SourceId.mk ((Pairing.apply_of_known hknown).trans ?_)
  exact (if_neg (Nat.lt_irrefl _)).trans (if_pos rfl)

/-- Other sources stand for the same as inside the query. -/
theorem source_eq {id : SourceId} (hid : t.sources.Holds (s.insideForms item).sources id) :
    (h.renumbering subquery).sources.source id = (s.insideForms item).sources.source id := by
  have hlt := hid.lt_size
  rw [h.size_sources] at hlt
  have hne : id.index < s.sources.size ∨ s.sources.size + 1 ≤ id.index := hid.known
  refine congrArg SourceId.mk ((if_pos hlt).trans ?_)
  show (if id.index < s.sources.size then id.index else if id.index = s.sources.size then
    t'.sources.size else id.index - 1) = if id.index < s.sources.size + 1 then id.index else
      s.sources.size + (id.index - (s.sources.size + 1))
  split
  · rw [if_pos (by omega)]
  · rw [if_neg (by omega), if_neg (by omega)]
    omega

/-- The item is registered, and is not a view from inside. -/
theorem get?_item : ∃ e, t.sources.get? s.sources.nextId = some e ∧ e.kind = .withItem := by
  obtain ⟨e, he, -, hkind⟩ := h.grows.source _ _ (RowSources.get?_register_self ..)
  exact ⟨e, he, hkind⟩

/-- Behind the query its rows are known, in both forms. -/
theorem mirrors_setRow {row : DataType} {enclosing : Option NodeId} {sources sources' : RowSources}
    (hset : t.sources.setRow s.sources.nextId row = .ok sources)
    (hset' : (t'.sources.register subquery .query enclosing).2.setRow t'.sources.nextId row =
      .ok sources') :
    RowSources.Mirrors (h.renumbering subquery).sources (h.renumbering subquery).items sources
      sources' := by
  have hsize : sources.size = t'.sources.size + 1 := (RowSources.size_setRow hset).trans h.size_sources
  have hsize' : sources'.size = t'.sources.size + 1 :=
    (RowSources.size_setRow hset').trans (RowSources.size_register _ _ _ _)
  have hholds : ∀ {id}, t.sources.Holds (s.insideForms item).sources id →
      sources.Holds (h.renumbering subquery).sources id := fun hid => by
    have hlt := hid.lt_size
    rw [h.size_sources] at hlt
    exact ⟨.inl hlt, hsize ▸ hlt⟩
  have hsame : ∀ {known known' : Option SourceId},
      known' = known.map (s.insideForms item).sources.source ∧ (∀ id, known = some id →
        t.sources.Holds (s.insideForms item).sources id) →
      known' = known.map (h.renumbering subquery).sources.source ∧ ∀ id, known = some id →
        sources.Holds (h.renumbering subquery).sources id := by
    rintro known known' ⟨rfl, hknown⟩
    refine ⟨?_, fun id hid => hholds (hknown id hid)⟩
    cases known with
    | none => rfl
    | some id => exact congrArg some (h.source_eq (hknown id rfl)).symm
  refine ⟨Nat.le_of_eq hsize.symm, ?_, fun id hid => ?_, fun node hnode => ?_, fun node hnode => ?_⟩
  · rw [hsize, hsize']
    rfl
  · by_cases heq : id = s.sources.nextId
    · obtain ⟨e, he, hkind⟩ := h.get?_item
      have hadded : (t'.sources.register subquery .query enclosing).2.get? t'.sources.nextId = some _ :=
        RowSources.get?_register_self ..
      subst heq
      rw [h.source_item, RowSources.get?_setRow hset, RowSources.get?_setRow hset', if_pos rfl,
        if_pos rfl, he, hadded]
      refine ⟨_, _, rfl, rfl, rfl, ?_⟩
      simp only [RowSource.isSelfReference, hkind]
    · have hheld : t.sources.Holds (s.insideForms item).sources id := by
        have hlt := hid.lt_size
        rw [hsize] at hlt
        refine ⟨?_, h.size_sources ▸ hlt⟩
        have hne : id.index ≠ s.sources.size := fun hi => heq (congrArg SourceId.mk hi)
        show id.index < s.sources.size ∨ s.sources.size + 1 ≤ id.index
        omega
      obtain ⟨e, e', he, he', hrow, hself⟩ := h.mirrors.sources.source id hheld
      refine ⟨e, e', ?_, ?_, hrow, hself⟩
      · rw [RowSources.get?_setRow hset, if_neg heq]
        exact he
      · rw [h.source_eq hheld, RowSources.get?_setRow hset', if_neg (RowSources.Grows.ne_nextId he')]
        exact RowSources.Grows.get?_push_of_some he' _
  · rw [RowSources.ofNode?_of_setRow hset, RowSources.ofNode?_of_setRow hset',
      RowSources.ofNode?_register, if_neg hnode.2]
    exact hsame (h.mirrors.sources.item node hnode.1)
  · rw [RowSources.selfViewOf?_of_setRow hset, RowSources.selfViewOf?_of_setRow hset']
    exact hsame (h.mirrors.sources.selfView node hnode.1)

section

variable {scope shown block block' : ScopeId} {name : String} {node node' : Option NodeId}
  {scopes scopes' : ScopeTree}

variable (subquery) in
/-- The scope of the SELECT in the first form stands for that in the second one. -/
theorem scope_block
    (hitem : t.scopes.BindsItem scope shown block item name node s.sources.nextId scopes)
    (hopened : s.scopes.newBlock scope node' = .ok (block', opened)) :
    (h.renumbering subquery).scopes.known block.index ∧
      (h.renumbering subquery).scopes.scope block = block' := by
  obtain ⟨rfl, -⟩ := ScopeTree.get?_newScope hopened
  have hknown : (h.renumbering subquery).scopes.known block.index := .inr hitem.block_eq
  refine ⟨hknown, congrArg ScopeId.mk ((Pairing.apply_of_known hknown).trans (if_neg ?_))⟩
  have hle := h.scopes_le
  rw [hitem.block_eq]
  omega

variable (subquery) in
/-- The scope of the item has no counterpart. -/
theorem not_knows_shown
    (hitem : t.scopes.BindsItem scope shown block item name node s.sources.nextId scopes) :
    ¬ (h.renumbering subquery).scopes.Knows shown.index := by
  have hle := h.scopes_le
  show ¬ ((shown.index < s.scopes.size ∨ shown.index = t.scopes.size + 1) ∨
    t.scopes.size + 2 ≤ shown.index)
  rw [hitem.shown_eq]
  omega

/-- Only scopes from before, and that of the SELECT, are in sight. -/
theorem scope_of_visible
    (hitem : t.scopes.BindsItem scope shown block item name node s.sources.nextId scopes)
    {id : ScopeId} {found : Scope} (hvisible : scopes.Visible (h.renumbering subquery).scopes id)
    (hget : scopes.get? id = some found) :
    s.scopes.get? id = some found ∨ id = block ∧ ∃ depth,
      found = ⟨some shown, .block, node, [⟨[name], s.sources.nextId, false⟩], depth⟩ := by
  have hknown : (id.index < s.scopes.size ∨ id.index = t.scopes.size + 1) ∨
      t.scopes.size + 2 ≤ id.index := hvisible.known
  have hlt := hvisible.lt_size
  have hsize := hitem.size
  rcases hknown.resolve_right (by omega) with hlt | heq
  · have hs : s.scopes.get? id = some _ := Array.getElem?_eq_getElem hlt
    rw [hitem.grows id _ (h.confined.scopes id _ hs)] at hget
    exact .inl (hget ▸ hs)
  · obtain rfl : id = block := congrArg ScopeId.mk (heq.trans hitem.block_eq.symm)
    obtain ⟨depth, hblock⟩ := hitem.get_block
    rw [hblock] at hget
    exact .inr ⟨rfl, depth, (Option.some.inj hget).symm⟩

/-- In the second form the scopes from before are as they were, and that of the SELECT binds the query. -/
theorem get?_bound (hopened : s.scopes.newBlock scope node' = .ok (block', opened))
    (hbound' : t'.scopes.addBinding block' ⟨[name], t'.sources.nextId, false⟩ = .ok scopes') :
    (∀ id found, s.scopes.get? id = some found → scopes'.get? id = some found) ∧
      ∃ depth, scopes'.get? block' =
        some ⟨some scope, .block, node', [⟨[name], t'.sources.nextId, false⟩], depth⟩ := by
  obtain ⟨rfl, around, haround, hgetOpened⟩ := ScopeTree.get?_newScope hopened
  refine ⟨fun id found hget => ?_, around.depth + 1, ?_⟩
  · rw [ScopeTree.get?_addBinding hbound', if_neg (ScopeTree.ne_nextId hget)]
    exact h.confined'.scopes id found (ScopeTree.get?_newScope_of_some hopened hget)
  · have hkept := h.confined'.scopes _ _ ((hgetOpened s.scopes.nextId).trans (if_pos rfl))
    rw [ScopeTree.get?_addBinding hbound', if_pos rfl, hkept]
    rfl

/-- Behind the query the scopes from before and those of the SELECTs are in sight. In the first form the
    scope of the item is between the SELECT and what is around it, and hides nothing. -/
theorem mirrors_bind (hs : s.Grounded) (hlinked : s.Linked)
    (hfresh : ∀ id found, s.scopes.get? id = some found →
      found.role.ShowsOnly fun id => id ≠ item ∧ id ≠ subquery) {sources : RowSources}
    (hsources : sources.size = t'.sources.size + 1)
    (hitem : t.scopes.BindsItem scope shown block item name node s.sources.nextId scopes)
    (hopened : s.scopes.newBlock scope node' = .ok (block', opened))
    (hbound' : t'.scopes.addBinding block' ⟨[name], t'.sources.nextId, false⟩ = .ok scopes') :
    ScopeTree.Mirrors (h.renumbering subquery) sources scopes scopes' := by
  have hkeeps := h.keeps hfresh
  have hscopes := h.scopes_le
  have hsize := hitem.size
  have hsize' : scopes'.size = t.scopes.size + 1 :=
    (ScopeTree.size_addBinding hbound').trans h.size_scopes
  obtain ⟨-, hsame⟩ := h.scope_block subquery hitem hopened
  obtain ⟨hold, depth', hblock'⟩ := h.get?_bound hopened hbound'
  obtain ⟨-, around, haround, -⟩ := ScopeTree.get?_newScope hopened
  obtain ⟨depth, hshown⟩ := hitem.get_shown
  refine ⟨Nat.le_of_eq hsize.symm, ?_, hitem.nested (h.confined.nested hs.nested),
    (h.confined'.nested (hs.nested.newScope hopened)).addBinding hbound',
    fun id found hvisible hget => ?_, fun id found hvisible hget => ?_,
    fun id found b hvisible hget hb => ?_⟩
  · show scopes'.size + (t.scopes.size + 2) = scopes.size + (t.scopes.size + 1)
    omega
  · rcases h.scope_of_visible hitem hvisible hget with hget | ⟨rfl, depth, rfl⟩
    · rw [hkeeps.scope_eq (ScopeTree.lt_size_of_get? hget)]
      exact ⟨found, hold id found hget, rfl, hkeeps.around hlinked hs.nested (by omega) hget⟩
    · have houter := ScopeTree.lt_size_of_get? haround
      rw [hsame]
      refine ⟨_, hblock', rfl, .inner (.inr ⟨shown, _, item, name, _, rfl, h.not_knows_shown subquery hitem,
        hshown, rfl, rfl, rfl, List.mem_singleton_self _, rfl⟩)
        (hkeeps.isVisible (by omega) houter) ?_ ?_⟩
      · rw [hkeeps.scope_eq houter]
      · simp only [List.map_cons, List.map_nil, Binding.renumber, h.source_item]
  · rcases h.scope_of_visible hitem hvisible hget with hget | ⟨-, depth, rfl⟩
    · exact hkeeps.shown id found hget
    · trivial
  · have hle := h.sources_le
    rcases h.scope_of_visible hitem hvisible hget with hget | ⟨-, depth, rfl⟩
    · obtain ⟨e, he⟩ := hlinked.bound id found b hget hb
      exact hkeeps.holds (by omega) he
    · obtain rfl := List.mem_singleton.mp hb
      exact ⟨.inl (Nat.lt_succ_of_le hle), hsources ▸ Nat.lt_succ_of_le hle⟩

end

/-- As far as what follows the FROM list is concerned, the first form mirrors the second one. -/
theorem mirrors_behind (hs : s.Grounded) (hlinked : s.Linked)
    (hfresh : ∀ id found, s.scopes.get? id = some found →
      found.role.ShowsOnly fun id => id ≠ item ∧ id ≠ subquery)
    {table : NodeId} (hapart : ∀ id, own id ∨ s.tree.size ≤ id.index →
      id ≠ item ∧ id ≠ table ∧ id ≠ subquery)
    {scope shown block block' : ScopeId} {name : String} {node node' enclosing : Option NodeId}
    {scopes scopes' : ScopeTree} {sources sources' : RowSources} {row : DataType}
    {references : List (NodeId × SourceId)}
    (hset : t.sources.setRow s.sources.nextId row = .ok sources)
    (hitem : t.scopes.BindsItem scope shown block item name node s.sources.nextId scopes)
    (hopened : s.scopes.newBlock scope node' = .ok (block', opened))
    (hset' : (t'.sources.register subquery .query enclosing).2.setRow t'.sources.nextId row =
      .ok sources')
    (hbound' : t'.scopes.addBinding block' ⟨[name], t'.sources.nextId, false⟩ = .ok scopes') :
    Session.Mirrors (h.renumbering subquery) own
      { t with
        sources, scopes
        types := (t.types.put item row).put table row
        selfReferences := references }
      { t' with sources := sources', scopes := scopes', types := t'.types.put subquery row } where
  settings := h.mirrors.settings
  operators := h.mirrors.operators
  engine := h.mirrors.engine
  tree := h.mirrors.tree
  types id hid := by
    obtain ⟨hitem, htable, hsubquery⟩ := hapart id hid
    have hsame := h.mirrors.types id hid
    rw [Shift.node_of_distance_zero rfl] at hsame ⊢
    rw [OrderedMap.get?_put, OrderedMap.get?_put, OrderedMap.get?_put, if_neg hsubquery,
      if_neg htable, if_neg hitem]
    exact hsame
  sources := h.mirrors_setRow hset hset'
  scopes := h.mirrors_bind hs hlinked hfresh
    ((RowSources.size_setRow hset).trans h.size_sources) hitem hopened hbound'

end Queried

end Session

/-! ### Steps -/

section

open Checking

variable {v : Visit} {s t : Session} {scope : ScopeId} {id : NodeId}

/-- A SELECT with a single entry in its FROM list opens its scope and binds the entry first. -/
theorem selectRow_single {items : List SelectItem} {entry : NodeId} {condition : Option NodeId}
    {block : ScopeId} {opened : ScopeTree}
    (hopened : s.scopes.newBlock scope (some id) = .ok (block, opened)) :
    selectRow v scope id { items, sources := [entry], condition } s =
      (bindSource v scope block id entry >>= fun _ =>
        selectTail v block { items, sources := [entry], condition }) { s with scopes := opened } := by
  have hopen : Validation.onScopes (·.newBlock scope (some id)) s =
      (.ok block, { s with scopes := opened }) := by
    simp only [Validation.onScopes, hopened]
  have hlist : List.forM [entry] (bindSource v scope block id) = bindSource v scope block id entry :=
    bind_pure_unit
  rw [selectRow_eq, bind_of_ok hopen, hlist]

/-- An entry that names the item shown around its SELECT is bound to the row source of that. -/
theorem bindSource_of_shown (id : NodeId) {table item : NodeId} {name : String} {shown block : ScopeId}
    {source : SourceId} {row : DataType} {found : Scope} {scopes : ScopeTree}
    (htable : s.tree.node? table = some (.tableRef [name] none)) (hn : s.scopes.Nested)
    (hs : s.scopes.get? shown = some found) (hparent : found.parent = some scope)
    (hrole : found.role = .withItem item name) (hsource : s.sources.ofNode? item = some source)
    (hrow : s.sources.row? source = some row)
    (hbound : s.scopes.addBinding block ⟨[name], source, false⟩ = .ok scopes) :
    ∃ references, bindSource v shown block id table s = (.ok (), { s with
      scopes, selfReferences := references, types := s.types.put table row }) := by
  have hmatch : ScopeTree.itemMatch found [name] s.sources = .ok (some source) := by
    rw [ScopeTree.itemMatch_of_withItem hrole, hsource, ScopeTree.itemNamed_self]
  obtain ⟨found, hlooked, rfl, hremaining, -⟩ :=
    ScopeTree.lookupTable_of_shown hn hs hparent hmatch s.settings.matching .empty
  have hfound : s.scopes.requireTable shown [name] s.settings.matching s.sources = .ok found :=
    ScopeTree.requireTable_eq_ok_iff.mpr hlooked
  have hexposed : exposedName? [name] none = some name := rfl
  refine ⟨s.listing table found.source, ?_⟩
  unfold bindSource
  rw [Host.lift_self, bind_of_ok (node_of_some htable)]
  refine (bindTable_of_found hfound hremaining hexposed).trans ?_
  rw [hrow]
  simp only [Validation.bindName, Validation.onScopes, hbound, Except.map]
  rfl

theorem bindSource_of_subquery {entry query : NodeId} {label : String} {block : ScopeId}
    (hentry : s.tree.node? entry = some (.subqueryRef query label)) :
    bindSource v scope block id entry s = bindSubquery v scope block id entry query label s := by
  unfold bindSource
  rw [Host.lift_self, bind_of_ok (node_of_some hentry)]

/-- An entry that is a query is bound to a row source of its own. -/
theorem bindSource_of_query {entry query : NodeId} {label : String} {block : ScopeId} {row : DataType}
    {sources : RowSources} {scopes : ScopeTree}
    (hentry : s.tree.node? entry = some (.subqueryRef query label))
    (hquery : v.query scope query s = (.ok row, t))
    (hset : (t.sources.register entry .query (some id)).2.setRow t.sources.nextId row = .ok sources)
    (hbound : t.scopes.addBinding block ⟨[label], t.sources.nextId, false⟩ = .ok scopes) :
    bindSource v scope block id entry s = (.ok (), { t with
      sources, scopes, types := t.types.put entry row }) := by
  refine (bindSource_of_subquery hentry).trans ((bind_of_ok hquery _).trans ?_)
  have hregister : Validation.register entry .query (some id) t =
    (.ok t.sources.nextId, { t with sources := (t.sources.register entry .query (some id)).2 }) := rfl
  rw [Host.lift_self]
  refine (bind_of_ok hregister _).trans ?_
  have hrow : Validation.setRow t.sources.nextId row
      { t with sources := (t.sources.register entry .query (some id)).2 } = (.ok (), { t with sources }) := by
    simp only [Validation.setRow, hset]
  rw [bind_of_ok hrow]
  show Validation.bindName block label t.sources.nextId _ = _
  simp only [Validation.bindName, Validation.onScopes, hbound, Except.map]

/-- An item that is neither recursive nor has a column list shows the rows of its query, or is refused
    with it. -/
theorem bindWithItem_of_plain {names : List String} {query : NodeId}
    (hn : s.tree.node? id =
      some (.withItem { name := names, columns := none, query, recursive := false })) :
    bindWithItem v scope id s = (v.query scope query >>= fun row => do
      Validation.setRow s.sources.nextId row
      Validation.record id row
      Validation.onScopes (·.newWithItem scope id (qualifiedName names)))
        { s with sources := (s.sources.register id .withItem none).2 } := by
  unfold bindWithItem
  rw [Host.lift_self, bind_of_ok (node_of_some hn)]
  rfl

theorem bindWithItem_of_query {names : List String} {query : NodeId} {row : DataType}
    {sources : RowSources} {shown : ScopeId} {u : ScopeTree}
    (hn : s.tree.node? id =
      some (.withItem { name := names, columns := none, query, recursive := false }))
    (hquery : v.query scope query { s with sources := (s.sources.register id .withItem none).2 } =
      (.ok row, t)) (hset : t.sources.setRow s.sources.nextId row = .ok sources)
    (hshown : t.scopes.newWithItem scope id (qualifiedName names) = .ok (shown, u)) :
    bindWithItem v scope id s =
      (.ok shown, { t with sources, scopes := u, types := t.types.put id row }) := by
  have hrow : Validation.setRow s.sources.nextId row t = (.ok (), { t with sources }) := by
    simp only [Validation.setRow, hset]
  rw [bindWithItem_of_plain hn, bind_of_ok hquery, bind_of_ok hrow]
  show Validation.onScopes _ _ = _
  simp only [Validation.onScopes, hshown]

/-! ### Both forms -/

namespace Session.Queried

variable {s t t' : Session} {f : s.tree.TwoForms} {opened : ScopeTree} {v v' : Visit} {scope : ScopeId}
  {row : DataType} (h : Queried s f.Shared f.item opened t t') (hscope : scope.index < s.scopes.size)

include h hscope

variable (v') in
/-- With its query validated, the first form comes to what follows the FROM list. -/
theorem firstForm (hs : s.Grounded) (hapart : ¬ f.Shared f.item)
    (hquery : v.query scope f.query { s with sources := (s.sources.register f.item .withItem none).2 } =
      (.ok row, t)) :
    ∃ shown block sources scopes references, t.sources.setRow s.sources.nextId row = .ok sources ∧
      t.scopes.BindsItem scope shown block f.item f.name (some f.body) s.sources.nextId scopes ∧
      ((bindWithItem v scope f.item >>= fun shown => queryStep v' shown f.body) s).1 =
        (selectTail v' block { items := f.items, sources := [f.table], condition := f.condition }
          { t with
            sources, scopes
            types := (t.types.put f.item row).put f.table row
            selfReferences := references }).1 := by
  have hscopes := h.scopes_le
  obtain ⟨sources, hset⟩ : ∃ sources, t.sources.setRow s.sources.nextId row = .ok sources :=
    ⟨_, if_pos (by rw [h.size_sources]; exact Nat.lt_succ_of_le h.sources_le)⟩
  obtain ⟨u, hshown⟩ := ScopeTree.exists_newScope (Nat.lt_of_lt_of_le hscope hscopes)
    (.withItem f.item f.name) (some f.item)
  have hinner : t.scopes.nextId.index < u.size := by
    rw [ScopeTree.size_newScope hshown]
    exact Nat.lt_succ_self _
  obtain ⟨u', hblock⟩ := ScopeTree.exists_newScope hinner .block (some f.body)
  obtain ⟨scopes, hbound⟩ : ∃ scopes, u'.addBinding u.nextId ⟨[f.name], s.sources.nextId, false⟩ =
      .ok scopes :=
    ⟨_, if_pos (by rw [ScopeTree.size_newScope hblock]; exact Nat.lt_succ_self _)⟩
  have hwritten := h.confined.continues.rewrites.rewritten.other
  have hnested : t.scopes.Nested := h.confined.nested hs.nested
  obtain ⟨-, outer, -, hget⟩ := ScopeTree.get?_newScope hshown
  have hfound := ScopeTree.get?_newScope_of_some hblock ((hget t.scopes.nextId).trans (if_pos rfl))
  have hrow : sources.row? s.sources.nextId = some row := by
    obtain ⟨e, he, -⟩ := h.get?_item
    refine RowSources.row?_of_get? (e := { e with row }) ?_
    rw [RowSources.get?_setRow hset, if_pos rfl, he]
    rfl
  have hregistered : sources.ofNode? f.item = some s.sources.nextId := by
    rw [RowSources.ofNode?_of_setRow hset, h.confined.item f.item hapart]
    exact (RowSources.ofNode?_register ..).trans (if_pos rfl)
  have hitem := bindWithItem_of_query f.item_eq hquery hset hshown
  obtain ⟨references, hentry⟩ := bindSource_of_shown (v := v')
    (s := { t with sources, scopes := u', types := t.types.put f.item row }) f.body
    (hwritten _ _ f.table_eq rfl) ((hnested.newScope hshown).newScope hblock) hfound rfl rfl
    hregistered hrow hbound
  refine ⟨_, _, sources, scopes, references, hset, .of_steps hshown hblock hbound, ?_⟩
  rw [bind_of_ok hitem]
  refine (answer_queryStep (v := v') (s := { t with sources, scopes := u, types := t.types.put f.item row })
    (hwritten _ _ f.body_eq rfl)).trans ?_
  show (selectRow v' t.scopes.nextId f.body _ _).1 = _
  rw [selectRow_single (s := { t with sources, scopes := u, types := t.types.put f.item row }) hblock,
    bind_of_ok hentry]

omit hscope in
/-- So does the second one. -/
theorem secondForm (hquery : v.query scope f.query { s with scopes := opened } = (.ok row, t')) :
    ∃ sources scopes, (t'.sources.register f.subquery .query (some f.select)).2.setRow
        t'.sources.nextId row = .ok sources ∧
      t'.scopes.addBinding s.scopes.nextId ⟨[f.name], t'.sources.nextId, false⟩ = .ok scopes ∧
      bindSource v scope s.scopes.nextId f.select f.subquery { s with scopes := opened } =
        (.ok (), { t' with sources, scopes, types := t'.types.put f.subquery row }) := by
  obtain ⟨sources, hset⟩ : ∃ sources, (t'.sources.register f.subquery .query (some f.select)).2.setRow
      t'.sources.nextId row = .ok sources :=
    ⟨_, if_pos (by rw [RowSources.size_register]; exact Nat.lt_succ_self _)⟩
  obtain ⟨scopes, hbound⟩ : ∃ scopes, t'.scopes.addBinding s.scopes.nextId
      ⟨[f.name], t'.sources.nextId, false⟩ = .ok scopes :=
    ⟨_, if_pos (by rw [h.size_scopes]; exact Nat.lt_succ_of_le h.scopes_le)⟩
  exact ⟨sources, scopes, hset, hbound,
    bindSource_of_query (s := { s with scopes := opened }) f.subquery_eq hquery hset hbound⟩

omit hscope in
/-- What follows the FROM list comes to the same behind the query, also one level deeper. -/
theorem answer_selectTail (hs : s.Grounded) (hlinked : s.Linked) {rank : NodeId → Nat} {depth : Nat}
    (hsuits : (h.renumbering f.subquery).Suits s.tree f.Shared rank)
    (hroom : ∀ c ∈ f.tail, Tree.HasRoom f.Shared rank depth c)
    (hapart : ∀ id, f.Shared id → id ≠ f.item ∧ id ≠ f.table ∧ id ≠ f.subquery)
    (hfresh : ∀ id found, s.scopes.get? id = some found →
      found.role.ShowsOnly fun id => id ≠ f.item ∧ id ≠ f.subquery)
    {shown block : ScopeId} {node node' enclosing : Option NodeId} {scopes scopes' : ScopeTree}
    {sources sources' : RowSources} {references : List (NodeId × SourceId)}
    (hset : t.sources.setRow s.sources.nextId row = .ok sources)
    (hbinds : t.scopes.BindsItem scope shown block f.item f.name node s.sources.nextId scopes)
    (hopened : s.scopes.newBlock scope node' = .ok (s.scopes.nextId, opened))
    (hset' : (t'.sources.register f.subquery .query enclosing).2.setRow t'.sources.nextId row =
      .ok sources')
    (hbound' : t'.scopes.addBinding s.scopes.nextId ⟨[f.name], t'.sources.nextId, false⟩ = .ok scopes') :
    (selectTail (visitAt depth) block { items := f.items, sources := [f.table], condition := f.condition }
        { t with
          sources, scopes
          types := (t.types.put f.item row).put f.table row
          selfReferences := references }).1 =
      (selectTail (visitAt (depth + 1)) s.scopes.nextId
        { items := f.items, sources := [f.subquery], condition := f.condition }
        { t' with sources := sources', scopes := scopes', types := t'.types.put f.subquery row }).1 := by
  have hadded : ∀ id, f.Shared id ∨ s.tree.size ≤ id.index →
      id ≠ f.item ∧ id ≠ f.table ∧ id ≠ f.subquery := by
    rintro id (hid | hnew)
    · exact hapart id hid
    · have hold : ∀ {x n}, s.tree.node? x = some n → id ≠ x := fun hn heq =>
        Nat.not_lt_of_le hnew (heq ▸ Tree.lt_size_of_node? hn)
      exact ⟨hold f.item_eq, hold f.table_eq, hold f.subquery_eq⟩
  obtain ⟨hknown, hblock⟩ := h.scope_block f.subquery hbinds hopened
  have hrewrites := h.confined.continues.rewrites
  have hlt : block.index < scopes.size := by
    rw [hbinds.block_eq, hbinds.size]
    exact Nat.lt_succ_self _
  rw [← hblock]
  refine (Checking.Follows.answer_eq (M := Session.Mirrors (h.renumbering f.subquery) f.Shared) ?_).symm
  exact (visitAt_mirrors (N := ⟨s.tree, [], s.settings.matching⟩) hsuits depth 1).selectTail
    (s := { t with
      sources, scopes
      types := (t.types.put f.item row).put f.table row
      selfReferences := references })
    hsuits ⟨.refl ⟨hrewrites.1, hrewrites.2⟩, h.confined.owned.of_setRow hset⟩
    (h.mirrors_behind hs hlinked hfresh hadded hset hbinds hopened hset' hbound')
    ⟨.inl hknown, hlt⟩ (.inl rfl) hroom fun _ _ => .inl rfl

end Session.Queried

end

section

open Checking

variable {s : Session} (f : s.tree.TwoForms) {scope : ScopeId} {depth : Nat} {opened : ScopeTree}

/-- The first form binds its item. The SELECT behind it is validated one level deeper. -/
theorem Session.answer_withQuery (hdepth : s.tree.size = depth + 1) :
    (Session.validateQueryIn scope f.withQuery s).1 =
      ((bindWithItem (visitAt (depth + 1)) scope f.item >>= fun shown =>
        queryStep (visitAt depth) shown f.body) s).1 := by
  show ((visitAt (s.tree.size + 1)).query scope f.withQuery s).1 = _
  rw [hdepth]
  exact answer_queryStep f.withQuery_eq

/-- The second form binds its entry, and goes on with what follows the FROM list. -/
theorem Session.answer_select (hdepth : s.tree.size = depth + 1)
    (hopened : s.scopes.newBlock scope (some f.select) = .ok (s.scopes.nextId, opened)) :
    (Session.validateQueryIn scope f.select s).1 =
      ((bindSource (visitAt (depth + 1)) scope s.scopes.nextId f.select f.subquery >>= fun _ =>
        selectTail (visitAt (depth + 1)) s.scopes.nextId ⟨f.items, [f.subquery], f.condition⟩)
          { s with scopes := opened }).1 := by
  show ((visitAt (s.tree.size + 1)).query scope f.select s).1 = _
  rw [hdepth, ← selectRow_single hopened]
  exact answer_queryStep f.select_eq

/-- The query comes to the same inside both forms. -/
theorem Session.Grounded.exists_queried (hs : s.Grounded) (hlinked : s.Linked) {rank : NodeId → Nat}
    {node : Option NodeId} (hscope : scope.index < s.scopes.size)
    (hsuits : (s.insideForms f.item).Suits s.tree f.Shared rank)
    (hroom : Tree.HasRoom f.Shared rank depth f.query)
    (hfresh : ∀ id found, s.scopes.get? id = some found →
      found.role.ShowsOnly fun id => id ≠ f.item ∧ id ≠ f.subquery)
    (hopened : s.scopes.newBlock scope node = .ok (s.scopes.nextId, opened)) :
    (∃ row t t', (visitAt depth).query scope f.query
          { s with sources := (s.sources.register f.item .withItem none).2 } = (.ok row, t) ∧
        (visitAt depth).query scope f.query { s with scopes := opened } = (.ok row, t') ∧
          s.Queried f.Shared f.item opened t t') ∨
      ∃ e t t', (visitAt depth).query scope f.query
          { s with sources := (s.sources.register f.item .withItem none).2 } = (.error e, t) ∧
        (visitAt depth).query scope f.query { s with scopes := opened } = (.error e, t') := by
  have hown := hsuits.isClosed
  let inside : Session := { s with sources := (s.sources.register f.item .withItem none).2 }
  have hcontinues : s.Continues inside :=
    ⟨⟨hs.continues.rewrites.1, hs.continues.rewrites.2⟩, rfl, rfl, rfl, hs.recorded⟩
  have howned : inside.sources.Owned := hs.owned.register f.item .withItem none
  have hend := (visitAt_mirrors (N := ⟨s.tree, [], s.settings.matching⟩) hsuits depth 0).query
    (s := inside) ⟨.refl hcontinues.rewrites, howned⟩
    (Session.mirrors_insideForms hs hlinked hown hfresh hopened) hroom ⟨.inl hscope, hscope⟩ (.inl rfl)
  rw [(Session.insideForms_keeps hfresh).scope_eq hscope, Nat.add_zero] at hend
  rcases hend.ends with ⟨row, _, t, t', hquery, hquery', rfl, hm⟩ | ⟨e, t, t', hquery, hquery', -⟩
  · have hgoes := ((visitAt_confined hs.closed hown.lt_size hown.child depth).query
      (s := inside) ⟨.refl hcontinues.rewrites, .refl hcontinues howned⟩ f.shared_query hscope).rel
    have hconfined : s.Confined f.Shared f.Shared { s with scopes := opened }
        ((visitAt depth).query scope f.query { s with scopes := opened }).2 :=
      confined_query hs.closed hown.lt_size hown.child (s := { s with scopes := opened })
        ⟨⟨hs.continues.rewrites.1, hs.continues.rewrites.2⟩, rfl, rfl, rfl, hs.recorded⟩ hs.owned
        f.shared_query (Nat.lt_of_lt_of_le hscope (ScopeTree.Extends.newScope hopened).size_le)
    rw [hquery] at hgoes
    rw [hquery'] at hconfined
    exact .inl ⟨row, t, t', hquery, hquery', hgoes.2, hconfined, hgoes.1.sources, hm⟩
  · exact .inr ⟨e, t, t', hquery, hquery'⟩

end

section

open Checking

variable {settings : Settings} {tree : Tree} {operators : OperatorTable} {engine : CoercionEngine}
  {s : Session}

/-- A WITH item stands for its query: a SELECT from it comes to the same as the SELECT from the query
    under its name, whatever follows the FROM list, in every scope that there is. -/
theorem Session.Reached.withItem_eq_subquery
    (h : Session.Reached { settings, tree, operators, engine } s) (hclosed : tree.NoDangling)
    (f : s.tree.TwoForms) {scope : ScopeId} (hscope : scope.index < s.scopes.size)
    (hacyclic : ∀ id, Relation.ReflTransGen s.tree.Child f.withQuery id →
      ¬ Relation.TransGen s.tree.Child id id)
    (hapart : ∀ id, f.Shared id → id ≠ f.item ∧ id ≠ f.table ∧ id ≠ f.subquery)
    (hfresh : ∀ id found, s.scopes.get? id = some found →
      found.role.ShowsOnly fun id => id ≠ f.item ∧ id ≠ f.subquery) :
    (Session.validateQueryIn scope f.withQuery s).1 = (Session.validateQueryIn scope f.select s).1 := by
  have hs := h.grounded hclosed
  have hlinked := h.linked hclosed
  obtain ⟨depth, hdepth⟩ : ∃ depth, s.tree.size = depth + 1 :=
    Nat.exists_eq_succ_of_ne_zero (Nat.ne_of_gt (Nat.zero_lt_of_lt (Tree.lt_size_of_node? f.item_eq)))
  obtain ⟨opened, hopened⟩ := ScopeTree.exists_newScope hscope .block (some f.select)
  rw [Session.answer_withQuery f hdepth, Session.answer_select f hdepth hopened]
  -- The query and what follows the FROM list have depth left, in the first form one less.
  obtain ⟨rank, hrank, hbound⟩ :=
    (hs.closed.isClosed_reach (Tree.lt_size_of_node? f.withQuery_eq)).exists_rank hacyclic
  have hroom : rank f.withQuery < depth + 1 := hdepth ▸ hbound f.withQuery .refl
  have hinside : (s.insideForms f.item).Suits s.tree f.Shared rank :=
    f.suits hrank hs.closed hacyclic rfl fun id hid => (hapart id hid).1
  rcases hs.exists_queried f hlinked hscope hinside (f.hasRoom_query hrank hroom) hfresh hopened with
    ⟨row, t, t', hquery, hquery', hq⟩ | ⟨e, t, t', hquery, hquery'⟩
  · obtain ⟨shown, block, sources, scopes, references, hset, hbinds, hfirst⟩ :=
      hq.firstForm (visitAt depth) hscope hs (fun hid => (hapart f.item hid).1 rfl) hquery
    obtain ⟨sources', scopes', hset', hbound', hsecond⟩ := hq.secondForm hquery'
    have hbehind : (hq.renumbering f.subquery).Suits s.tree f.Shared rank :=
      f.suits hrank hs.closed hacyclic rfl fun id hid => ⟨(hapart id hid).1, (hapart id hid).2.2⟩
    rw [hfirst, bind_of_ok hsecond]
    exact hq.answer_selectTail hs hlinked hbehind (f.hasRoom_of_mem_tail hrank hroom) hapart hfresh hset
      hbinds hopened hset' hbound'
  -- When the query is refused, so are both forms.
  · have hitem : bindWithItem (visitAt (depth + 1)) scope f.item s = (.error e, t) :=
      (bindWithItem_of_plain f.item_eq).trans (bind_of_error hquery _)
    have hentry : bindSource (visitAt (depth + 1)) scope s.scopes.nextId f.select f.subquery
        { s with scopes := opened } = (.error e, t') :=
      (bindSource_of_subquery (s := { s with scopes := opened }) f.subquery_eq).trans
        (bind_of_error hquery' _)
    rw [bind_of_error hitem, bind_of_error hentry]

end

/-- `WITH T AS (SELECT 1 AS N) SELECT UPPER(T.N) FROM T`, and `SELECT UPPER(T.N) FROM (SELECT 1 AS N) AS
    T` over the same query and with the same column. -/
def Tree.twoForms : Tree :=
  (((((((((({} : Tree).push (.literal (.integer 1))).push
    (.select { items := [.expression ⟨0⟩ (some "N")], sources := [], condition := none })).push
    (.identifier ["T", "N"])).push (.call "UPPER" [⟨2⟩])).push
    (.withItem { name := ["T"], columns := none, query := ⟨1⟩, recursive := false })).push
    (.tableRef ["T"] none)).push
    (.select { items := [.expression ⟨3⟩ none], sources := [⟨5⟩], condition := none })).push
    (.withQuery [⟨4⟩] ⟨6⟩)).push (.subqueryRef ⟨1⟩ "T")).push
    (.select { items := [.expression ⟨3⟩ none], sources := [⟨8⟩], condition := none })

/-- Both forms get a cast of the column to a text. -/
theorem Session.Reached.withItem_eq_subquery_twoForms :
    let s : Session := { tree := .twoForms }
    (Session.validateQueryIn ScopeTree.rootId ⟨7⟩ s).1 =
        (Session.validateQueryIn ScopeTree.rootId ⟨9⟩ s).1 ∧
      (Session.validateQueryIn ScopeTree.rootId ⟨9⟩ s).1 =
        .ok (.row [("EXPR$0", .notNull .varchar)]) := by
  intro s
  have hacyclic : ∀ id, ¬ Relation.TransGen s.tree.Child id id := Tree.acyclic_of_ordered (by decide)
  let f : s.tree.TwoForms := {
    name := "T", query := ⟨1⟩, items := [.expression ⟨3⟩ none], condition := none
    withQuery := ⟨7⟩, item := ⟨4⟩, body := ⟨6⟩, table := ⟨5⟩, select := ⟨9⟩, subquery := ⟨8⟩
    withQuery_eq := rfl, item_eq := rfl, body_eq := rfl, table_eq := rfl, select_eq := rfl
    subquery_eq := rfl }
  -- The nodes of both forms have numbers up to 3.
  have hshared : ∀ id, f.Shared id → id.index ≤ 3 := by
    have hstep : ∀ p c, s.tree.Child p c → p.index ≤ 3 → c.index ≤ 3 := fun _ _ =>
      Tree.Child.of_entries (R := fun p c => p ≤ 3 → c ≤ 3) (by decide)
    rintro id ⟨part, hpart, hid⟩
    induction hid with
    | refl => exact (show ∀ part ∈ f.query :: f.tail, part.index ≤ 3 by decide) part hpart
    | tail _ hc ih => exact hstep _ _ hc ih
  refine ⟨Session.Reached.withItem_eq_subquery .start (by decide) f (by decide) (fun id _ => hacyclic id)
    (fun id hid => ?_) ?_, by decide +kernel⟩
  · have hle := hshared id hid
    refine ⟨?_, ?_, ?_⟩ <;> rintro rfl <;> exact absurd hle (by decide)
  -- There is no scope but the root.
  · intro id found hfound
    obtain rfl : id = ScopeTree.rootId :=
      congrArg ScopeId.mk (Nat.lt_one_iff.mp (ScopeTree.lt_size_of_get? hfound))
    obtain rfl : Scope.root = found := Option.some.inj hfound
    trivial

end SqlTyping
