import SqlTyping.Proofs.Session.FromLists
import SqlTyping.Proofs.Session.Reordering

namespace SqlTyping

/-!
# The order of a FROM list

A SELECT without a star comes to the same when its FROM list is in another order, as long as no name
matches that of two entries. When its list has been bound in two orders, the two sessions differ twofold:

* `Session.HasBound.reorder` — in the order of the names, which does not matter;
* `Session.Corresponds`, `Session.HasBound.renumbering` — in the numbers of what validating the entries
  has added, of which only their row sources are in sight behind the list;
* `Session.HasBound.selectTail_eq` — with the names in one order, what follows the list comes to the same;
* `Session.TopSelect.selectRow_iff` — so the SELECT comes to the same with both lists;
* `Session.Reached.validateQuery_perm` — and so does the statement, whichever of the lists it has.
-/

open Checking

/-- What follows the FROM list. -/
def SelectBlock.tail (block : SelectBlock) : List NodeId :=
  block.condition.toList ++ block.items.flatMap Node.itemChild

namespace Session.TopSelect

variable {s : Session} {select c : NodeId} {block : SelectBlock} {rank : NodeId → Nat}
  (h : s.TopSelect select block rank)

include h

theorem child_of_mem_tail (hc : c ∈ block.tail) : s.tree.Child select c := by
  refine ⟨_, h.node, ?_⟩
  rcases List.mem_append.mp hc with hc | hc
  · exact List.mem_append_right _ hc
  · exact List.mem_append_left _ (List.mem_append_left _ hc)

theorem isClosed_tail : s.tree.IsClosed (s.Under block.tail) :=
  Journal.isClosed_under h.isClosed fun _ hc => .single (h.child_of_mem_tail hc)

/-- What follows the FROM list has no node in common with its entries. -/
theorem tail_apart {done : List NodeId} (hdone : done ⊆ block.sources) {x : NodeId}
    (hx : s.Under block.tail x) : ¬ s.Under done x := by
  obtain ⟨c, hc, hcx⟩ := hx
  rintro ⟨d, hd, hdx⟩
  refine h.isTree.siblings_apart h.isClosed .refl (h.child_of_mem_tail hc)
    (h.child_of_mem (hdone hd)) ?_ hcx hdx
  rintro rfl
  have hnodup := h.isTree.nodup select _ .refl h.node
  simp only [Node.children, List.nodup_append] at hnodup
  rcases List.mem_append.mp hc with hc | hc
  · exact hnodup.2.2 c (List.mem_append_right _ (hdone hd)) c hc rfl
  · exact hnodup.1.2.2 c hc c (hdone hd) rfl

end Session.TopSelect

/-! ### Another order of the names -/

/-- An entry stands for one thing only. -/
theorem Session.Yields.unique {s : Session} {entry : NodeId} {item item' : FromItem}
    (h : s.Yields entry item) (h' : s.Yields entry item') : item = item' := by
  cases h with
  | table hn hfound _ hexposed =>
    cases h' with
    | table hn' hfound' _ hexposed' =>
      cases hn.symm.trans hn'
      cases hfound.symm.trans hfound'
      cases hexposed.symm.trans hexposed'
      rfl
    | query hn' _ => cases hn.symm.trans hn'
  | query hn hquery =>
    cases h' with
    | table hn' _ _ _ => cases hn.symm.trans hn'
    | query hn' hquery' =>
      cases hn.symm.trans hn'
      cases hquery.symm.trans hquery'
      rfl

/-- No name matches those of two entries. -/
def Naming.DistinctNames (N : Naming) (entries : List NodeId) : Prop :=
  entries.Pairwise fun a b => ∀ x y, N.exposed? a = some x → N.exposed? b = some y →
    N.matching.same x y = false

namespace Session.HasBound

variable {s t t' : Session} {select : NodeId} {block : SelectBlock} {rank : NodeId → Nat}
  {done done' : List NodeId}

/-- No name is led by two of the bindings then. -/
theorem distinct {bindings : List Binding}
    (hnames : Naming.DistinctNames ⟨s.tree, [], s.settings.matching⟩ done)
    (hbindings : List.Forall₂ (s.BindsEntry t) done bindings) :
    Binding.Distinct s.settings.matching bindings := by
  obtain ⟨hlength, hbound⟩ := List.forall₂_iff_get.mp hbindings
  -- Two places of the list bind names that do not match.
  have happart : ∀ i j (hi : i < bindings.length) (hj : j < bindings.length), i < j → ∀ names,
      s.settings.matching.leads bindings[i].names names = true →
        s.settings.matching.leads bindings[j].names names = true → False := by
    intro i j hi hj hlt names hleads hleads'
    have hi' : i < done.length := hlength ▸ hi
    have hj' : j < done.length := hlength ▸ hj
    obtain ⟨item, hitem, hb⟩ := hbound i hi' hi
    obtain ⟨item', hitem', hb'⟩ := hbound j hj' hj
    have hfalse := List.pairwise_iff_getElem.mp hnames i j hi' hj' hlt _ _ (hitem.exposed [] _)
      (hitem'.exposed [] _)
    have hnames := hb.names_eq
    have hnames' := hb'.names_eq
    simp only [List.get_eq_getElem] at hnames hnames'
    rw [hnames] at hleads
    rw [hnames'] at hleads'
    have hsame := NameMatching.same_of_leads s.settings.caseSensitive hleads hleads'
    exact Bool.false_ne_true (hfalse.symm.trans hsame)
  intro names b hb c hc hleads hleads'
  obtain ⟨i, hi, rfl⟩ := List.getElem_of_mem hb
  obtain ⟨j, hj, rfl⟩ := List.getElem_of_mem hc
  rcases Nat.lt_trichotomy i j with hlt | rfl | hlt
  · exact (happart i j hi hj hlt names hleads hleads').elim
  · rfl
  · exact (happart j i hj hi hlt names hleads' hleads).elim

/-- The names of a list may be put in another order. -/
theorem reorder (h : s.HasBound select done t) (hperm : done.Perm done')
    (hnames : Naming.DistinctNames ⟨s.tree, [], s.settings.matching⟩ done) :
    ∃ scopes, Session.Reorders s.scopes.nextId t { t with scopes } ∧
      s.HasBound select done' { t with scopes } := by
  obtain ⟨bindings, depth, hget, hbindings⟩ := h.shows
  obtain ⟨bindings', hbindings', hperm'⟩ := List.perm_comp_forall₂ hperm.symm hbindings
  have hreorders := ScopeTree.reorders_withBindings (m := t.settings.matching) hget rfl hperm'.symm
    (h.confined.continues.settings ▸ distinct hnames hbindings)
  refine ⟨_, .of_scopes t _ hreorders, ?_, h.grows, bindings', depth, ?_, ?_⟩
  · have hunder : ∀ x, s.Under done x → s.Under done' x := fun _ hx =>
      hx.mono fun _ hc => hperm.mem_iff.mp hc
    have hc := h.confined.mono hunder hunder
    refine ⟨⟨⟨⟨hc.continues.rewrites.1, hc.continues.rewrites.2⟩, hc.continues.operators,
      hc.continues.engine, hc.continues.settings, hc.continues.recorded⟩, hc.added, hc.node?, hc.types⟩,
      fun id scope hs => ?_, fun hn => hreorders.nested (hc.nested hn), hc.sources, hc.item, hc.selfView,
      hc.owned⟩
    rw [ScopeTree.get?_withBindings, if_neg (ScopeTree.ne_nextId hs)]
    exact hc.scopes id scope hs
  · show (t.scopes.withBindings _ _).get? _ = _
    rw [ScopeTree.get?_withBindings, if_pos rfl, hget]
    rfl
  · refine hbindings'.imp ?_
    rintro entry b ⟨item, hitem, hb⟩
    exact ⟨item, hitem, hb.onScopes _⟩

end Session.HasBound

/-! ### Row sources of entries -/

/-- In `t` and `t'` entries have been bound since `s`. A source that was there and has not changed
    corresponds to itself, and that of an entry to that of the same entry. -/
inductive Session.Corresponds (s t t' : Session) : SourceId → SourceId → Prop
  | kept {id : SourceId} {e : RowSource} (hs : s.sources.get? id = some e)
    (ht : t.sources.get? id = some e) (ht' : t'.sources.get? id = some e) : Corresponds s t t' id id
  | entry {entry : NodeId} {row : DataType} {id id' : SourceId} (h : s.Introduces t entry row id)
    (h' : s.Introduces t' entry row id') : Corresponds s t t' id id'

namespace Session.Corresponds

variable {s t t' : Session} {id id' id'' : SourceId}

theorem symm (h : s.Corresponds t t' id id') : s.Corresponds t' t id' id := by
  cases h with
  | kept hs ht ht' => exact .kept hs ht' ht
  | entry h h' => exact .entry h' h

/-- A source corresponds to one source only. -/
theorem unique (h : s.Corresponds t t' id id') (h' : s.Corresponds t t' id id'') : id' = id'' := by
  have hold : ∀ {e : RowSource}, s.sources.get? id = some e → ¬ s.sources.size ≤ id.index := fun he =>
    Nat.not_le.mpr (Array.getElem?_eq_some_iff.mp he).1
  cases h with
  | kept hs ht ht' =>
    cases h' with
    | kept => rfl
    | entry hd _ => exact (hold hs hd.new).elim
  | entry hd hd' =>
    cases h' with
    | kept hs _ _ => exact (hold hs hd.new).elim
    | entry hc hc' =>
      obtain ⟨_, he⟩ := hd.get?
      obtain ⟨_, he'⟩ := hc.get?
      cases he.symm.trans he'
      exact Option.some.inj (hd'.item.symm.trans hc'.item)

theorem lt_size (h : s.Corresponds t t' id id') : id.index < t.sources.size := by
  cases h with
  | kept _ ht _ => exact (Array.getElem?_eq_some_iff.mp ht).1
  | entry h _ =>
    obtain ⟨_, he⟩ := h.get?
    exact (Array.getElem?_eq_some_iff.mp he).1

/-- The rows are the same. -/
theorem sameRows (h : s.Corresponds t t' id id') : ∃ e e', t.sources.get? id = some e ∧
    t'.sources.get? id' = some e' ∧ e'.row = e.row ∧ e'.isSelfReference = e.isSelfReference := by
  cases h with
  | kept _ ht ht' => exact ⟨_, _, ht, ht', rfl, rfl⟩
  | entry h h' =>
    obtain ⟨_, he⟩ := h.get?
    obtain ⟨_, he'⟩ := h'.get?
    exact ⟨_, _, he, he', rfl, rfl⟩

end Session.Corresponds

open Classical in
/-- The source of `t'` that one of `t` corresponds to. -/
noncomputable def Session.counterpart (s t t' : Session) (i : Nat) : Nat :=
  if h : ∃ id', s.Corresponds t t' ⟨i⟩ id' then h.choose.index else i

theorem Session.Corresponds.counterpart_eq {s t t' : Session} {id id' : SourceId}
    (h : s.Corresponds t t' id id') : s.counterpart t t' id.index = id'.index := by
  have hsome : ∃ id', s.Corresponds t t' ⟨id.index⟩ id' := ⟨id', h⟩
  unfold Session.counterpart
  rw [dif_pos hsome]
  exact congrArg SourceId.index (hsome.choose_spec.unique h)

/-- How the row sources correspond. Those that are added from now on have later numbers. -/
noncomputable def Session.sourcePairing (s t t' : Session) : Pairing where
  left := t.sources.size
  right := t'.sources.size
  old := s.counterpart t t'
  known i := ∃ id', s.Corresponds t t' ⟨i⟩ id'
  lt := by
    rintro i ⟨id', h⟩
    exact ⟨h.lt_size, h.counterpart_eq ▸ h.symm.lt_size⟩
  inj := by
    rintro i j ⟨a, hi⟩ ⟨b, hj⟩ heq
    rw [hi.counterpart_eq, hj.counterpart_eq] at heq
    obtain rfl : a = b := congrArg SourceId.mk heq
    exact congrArg SourceId.index (hi.symm.unique hj.symm)

theorem Session.Corresponds.source_eq {s t t' : Session} {id id' : SourceId}
    (h : s.Corresponds t t' id id') : (s.sourcePairing t t').source id = id' :=
  congrArg SourceId.mk ((if_pos h.lt_size).trans h.counterpart_eq)

theorem Session.Corresponds.holds {s t t' : Session} {id id' : SourceId}
    (h : s.Corresponds t t' id id') : t.sources.Holds (s.sourcePairing t t') id :=
  ⟨.inl ⟨id', h⟩, h.lt_size⟩

/-! ### Behind the list -/

/-- Names that are bound to the same entries are bound to corresponding row sources. -/
theorem Session.bindings_eq {s t t' : Session} {ρ : Renumbering} {done : List NodeId}
    {bindings bindings' : List Binding} (hsources : ρ.sources = s.sourcePairing t t')
    (h : List.Forall₂ (s.BindsEntry t) done bindings) (h' : List.Forall₂ (s.BindsEntry t') done bindings') :
    bindings' = bindings.map (Binding.renumber ρ) ∧ ∀ b ∈ bindings, t.sources.Holds ρ.sources b.source := by
  induction h generalizing bindings' with
  | nil =>
    cases h'
    exact ⟨rfl, fun b hb => by cases hb⟩
  | @cons entry b entries bindings hone _ ih =>
    cases h' with
    | @cons _ b' _ bindings' hone' hrest' =>
      obtain ⟨item, hyields, hb⟩ := hone
      obtain ⟨item', hyields', hb'⟩ := hone'
      obtain rfl := hyields.unique hyields'
      obtain ⟨rfl, hholds⟩ := ih hrest'
      have hcorresponds : s.Corresponds t t' b.source b'.source ∧ b' = { b with source := b'.source } := by
        cases hb with
        | table he ht _ =>
          cases hb' with
          | table he' ht' _ =>
            cases he.symm.trans he'
            exact ⟨.kept he ht ht', rfl⟩
        | query hd =>
          cases hb' with
          | query hd' => exact ⟨.entry hd hd', rfl⟩
      have hsource : ρ.sources.source b.source = b'.source := hsources ▸ hcorresponds.1.source_eq
      refine ⟨?_, List.forall_mem_cons.mpr ⟨hsources ▸ hcorresponds.1.holds, hholds⟩⟩
      rw [List.map_cons, Binding.renumber, hsource, ← hcorresponds.2]

namespace Session.HasBound

variable {s t t' : Session} {select : NodeId} {block : SelectBlock} {rank : NodeId → Nat}
  {done : List NodeId} (hselect : s.TopSelect select block rank) (h : s.HasBound select done t)
  (h' : s.HasBound select done t')

include h h'

/-- How numbers correspond when the same entries have been bound. Of the scopes only the catalog and that
    of the SELECT are seen. -/
noncomputable def renumbering (hs : s.Grounded) : Renumbering where
  nodes := ⟨t.tree.size, t'.tree.size - t.tree.size⟩
  scopes := .kept t.scopes.size t'.scopes.size
    (fun i => i = ScopeTree.rootId.index ∨ i = s.scopes.nextId.index) fun hknown => by
      rcases hknown with rfl | rfl
      · exact ⟨h.root_lt hs, h'.root_lt hs⟩
      · exact ⟨h.lt_size, h'.lt_size⟩
  sources := s.sourcePairing t t'
  items id := ¬ s.Under done id
  more := []

theorem mirrors_sources (hs : s.Grounded) :
    RowSources.Mirrors (s.sourcePairing t t') (fun id => ¬ s.Under done id) t.sources t'.sources := by
  -- What is registered for a node is its own.
  have hkept : ∀ {known : Option SourceId} {node : NodeId}, ¬ s.Under done node →
      (∀ id, known = some id → ∃ e, s.sources.get? id = some e ∧ e.node = some node) →
        known = known.map (s.sourcePairing t t').source ∧ ∀ id, known = some id →
          t.sources.Holds (s.sourcePairing t t') id := by
    intro known node hnode hknown
    have hself : ∀ id, known = some id → s.Corresponds t t' id id := by
      intro id hid
      obtain ⟨e, he, henode⟩ := hknown id hid
      have hnot : ∀ node', e.node = some node' → ¬ s.Under done node' := fun node' hnode' =>
        Option.some.inj (henode.symm.trans hnode') ▸ hnode
      exact .kept he (h.confined.sources id e he hnot) (h'.confined.sources id e he hnot)
    exact ⟨(Pairing.map_source_eq fun id hid => (hself id hid).source_eq).symm,
      fun id hid => (hself id hid).holds⟩
  refine ⟨Nat.le_refl _, Nat.add_comm _ _, fun id hid => ?_, fun node hnode => ?_, fun node hnode => ?_⟩
  · obtain ⟨id', hid'⟩ := hid.known.resolve_right (Nat.not_le.mpr hid.lt_size)
    have hsource : (s.sourcePairing t t').source id = id' := Session.Corresponds.source_eq hid'
    rw [hsource]
    exact hid'.sameRows
  · rw [h.confined.item node hnode, h'.confined.item node hnode]
    exact hkept hnode fun id hid => hs.owned.item node id hid
  · rw [h.confined.selfView node hnode, h'.confined.selfView node hnode]
    exact hkept hnode fun id hid => hs.owned.selfView node id hid

theorem mirrors_scopes (hs : s.Grounded) :
    ScopeTree.Mirrors (h.renumbering h' hs) t.sources t.scopes t'.scopes := by
  obtain ⟨root, hroot, hrole, hparent, htables⟩ := hs.root
  obtain ⟨bindings, depth, hget, hbindings⟩ := h.shows
  obtain ⟨bindings', depth', hget', hbindings'⟩ := h'.shows
  have hroot₁ := h.confined.scopes _ _ hroot
  have hroot₂ := h'.confined.scopes _ _ hroot
  have hrootId : (h.renumbering h' hs).scopes.scope ScopeTree.rootId = ScopeTree.rootId :=
    congrArg ScopeId.mk (if_pos (h.root_lt hs))
  have hblockId : (h.renumbering h' hs).scopes.scope s.scopes.nextId = s.scopes.nextId :=
    congrArg ScopeId.mk (if_pos h.lt_size)
  have hself : ∀ b ∈ root.bindings, s.Corresponds t t' b.source b.source := by
    intro b hb
    obtain ⟨e, he, hnode⟩ := htables b hb
    exact .kept he (h.confined.table he hnode) (h'.confined.table he hnode)
  obtain ⟨hsame, hholds⟩ : bindings' = bindings.map (Binding.renumber (h.renumbering h' hs)) ∧ _ :=
    Session.bindings_eq rfl hbindings hbindings'
  -- Only the catalog and the scope of the SELECT are seen.
  have hseen : ∀ id scope, t.scopes.Visible (h.renumbering h' hs).scopes id →
      t.scopes.get? id = some scope → id = ScopeTree.rootId ∧ scope = root ∨
        id = s.scopes.nextId ∧ scope = ⟨some ScopeTree.rootId, .block, some select, bindings, depth⟩ := by
    intro id scope hvisible hscope
    have hknown : id.index = ScopeTree.rootId.index ∨ id.index = s.scopes.nextId.index :=
      hvisible.known.resolve_right (Nat.not_le.mpr hvisible.lt_size)
    rcases hknown with heq | heq
    · obtain rfl : id = ScopeTree.rootId := congrArg ScopeId.mk heq
      exact .inl ⟨rfl, Option.some.inj (hscope.symm.trans hroot₁)⟩
    · obtain rfl : id = s.scopes.nextId := congrArg ScopeId.mk heq
      exact .inr ⟨rfl, Option.some.inj (hscope.symm.trans hget)⟩
  refine ⟨Nat.le_refl _, Nat.add_comm _ _, h.confined.nested hs.nested, h'.confined.nested hs.nested,
    fun id scope hvisible hscope => ?_, fun id scope hvisible hscope => ?_,
    fun id scope b hvisible hscope hb => ?_⟩
  · rcases hseen id scope hvisible hscope with ⟨rfl, rfl⟩ | ⟨rfl, rfl⟩
    · rw [hrootId]
      refine ⟨scope, hroot₂, rfl, .root (h.root_lt hs) hrole hparent hparent ?_⟩
      rw [Binding.map_renumber_eq fun b hb => (hself b hb).source_eq]
      exact (List.append_nil _).symm
    · rw [hblockId]
      exact ⟨_, hget', rfl, .inner (.inl rfl) ⟨.inl (.inl rfl), h.root_lt hs⟩ (by rw [hrootId]) hsame⟩
  · rcases hseen id scope hvisible hscope with ⟨rfl, rfl⟩ | ⟨rfl, rfl⟩
    · rw [hrole]
      trivial
    · trivial
  · rcases hseen id scope hvisible hscope with ⟨rfl, rfl⟩ | ⟨rfl, rfl⟩
    · exact (hself b hb).holds
    · exact hholds b hb

include hselect

variable (hdone : done ⊆ block.sources)

include hdone

omit h' in
/-- What follows the FROM list is as it was. -/
theorem node?_tail {x : NodeId} (hx : s.Under block.tail x) : t.tree.node? x = s.tree.node? x :=
  h.confined.node? x (hselect.isClosed_tail.lt_size x hx) (hselect.tail_apart hdone hx)

omit h' in
theorem isClosed_tail : t.tree.IsClosed (s.Under block.tail) := by
  have hown := hselect.isClosed_tail
  refine ⟨fun x hx => Nat.lt_of_lt_of_le (hown.lt_size x hx)
    h.confined.continues.rewrites.rewritten.size_le, fun x c hx hc => ?_⟩
  obtain ⟨n, hn, hmem⟩ := hc
  exact hown.child x c hx ⟨n, (h.node?_tail hselect hdone hx).symm.trans hn, hmem⟩

/-- As far as what follows the FROM list is concerned, one session mirrors the other one. -/
theorem mirrors (hle : t.tree.size ≤ t'.tree.size) :
    Session.Mirrors (h.renumbering h' hselect.grounded) (s.Under block.tail) t t' where
  settings := h'.confined.continues.settings.trans h.confined.continues.settings.symm
  operators := h'.confined.continues.operators.trans h.confined.continues.operators.symm
  engine := h'.confined.continues.engine.trans h.confined.continues.engine.symm
  tree := .of_kept (h.isClosed_tail hselect hdone) hle fun x hx =>
    (h'.node?_tail hselect hdone hx).trans (h.node?_tail hselect hdone hx).symm
  types id hid := by
    rcases hid with hid | hnew
    · have hlt := hselect.isClosed_tail.lt_size id hid
      have hapart := hselect.tail_apart hdone hid
      have hsame : (h.renumbering h' hselect.grounded).nodes.node id = id :=
        Shift.node_of_lt ((h.isClosed_tail hselect hdone).lt_size id hid)
      rw [hsame, h'.confined.types id id hlt hapart .self, h.confined.types id id hlt hapart .self]
    -- Nodes that are not there have no types.
    · have hmoved : ((h.renumbering h' hselect.grounded).nodes.node id).index =
          id.index + (t'.tree.size - t.tree.size) := Shift.apply_of_le hnew
      have hge : t.tree.size ≤ id.index := hnew
      rw [h.confined.continues.types_eq_none hge, h'.confined.continues.types_eq_none (by omega)]
  sources := h.mirrors_sources h' hselect.grounded
  scopes := h.mirrors_scopes h' hselect.grounded

/-- So what follows comes to the same. -/
theorem selectTail_eq_of_le (hle : t.tree.size ≤ t'.tree.size) :
    (selectTail (visitAt s.tree.size) s.scopes.nextId block t').1 =
      (selectTail (visitAt s.tree.size) s.scopes.nextId block t).1 := by
  have ht := hselect.grounded.of_confined h.confined
  have hranked : ∀ p c, s.Under block.tail p → t.tree.Child p c → rank c < rank p := by
    rintro p c ⟨d, hd, hp⟩ ⟨n, hn, hc⟩
    refine hselect.ranked p c (.head (hselect.child_of_mem_tail hd) hp) ⟨n, ?_, hc⟩
    rw [← h.node?_tail hselect hdone ⟨d, hd, hp⟩, hn]
  have hρ : (h.renumbering h' hselect.grounded).Suits t.tree (s.Under block.tail) rank :=
    ⟨rfl, fun _ hx => hselect.tail_apart hdone hx, ht.closed, h.isClosed_tail hselect hdone,
      (h.isClosed_tail hselect hdone).acyclic_of_rank hranked, hranked⟩
  have hroom : ∀ c ∈ block.tail, Tree.HasRoom (s.Under block.tail) rank s.tree.size c := fun c hc => by
    have hless := hselect.ranked _ _ .refl (hselect.child_of_mem_tail hc)
    have hbound := hselect.bound
    exact ⟨Session.under_of_reach hc .refl, by omega⟩
  have hblock : (h.renumbering h' hselect.grounded).scopes.scope s.scopes.nextId = s.scopes.nextId :=
    congrArg ScopeId.mk (if_pos h.lt_size)
  have hvisible : t.scopes.Visible (h.renumbering h' hselect.grounded).scopes s.scopes.nextId :=
    ⟨.inl (.inr rfl), h.lt_size⟩
  have hend := (visitAt_mirrors (N := ⟨t.tree, [], t.settings.matching⟩) hρ s.tree.size 0).selectTail
    hρ ⟨.refl ht.continues.rewrites, ht.owned⟩ (h.mirrors hselect h' hdone hle) hvisible (.inl rfl) hroom
    fun _ _ => .inl rfl
  rw [hblock] at hend
  exact hend.answer_eq

theorem selectTail_eq : (selectTail (visitAt s.tree.size) s.scopes.nextId block t').1 =
    (selectTail (visitAt s.tree.size) s.scopes.nextId block t).1 :=
  (Nat.le_total t.tree.size t'.tree.size).elim (h.selectTail_eq_of_le hselect h' hdone) fun hle =>
    (h'.selectTail_eq_of_le hselect h hdone hle).symm

end Session.HasBound

/-! ### The SELECT -/

/-- The row type of a query is recorded for it last. -/
theorem queryStep_of_ok {v : Visit} {scope : ScopeId} {id : NodeId} {n : Node} {s u : Session}
    {row : DataType} (hn : s.tree.node? id = some n) (hrow : queryRow v scope id n s = (.ok row, u)) :
    queryStep v scope id s = (.ok row, { u with types := u.types.put id row }) := by
  unfold queryStep
  rw [Host.lift_self, bind_of_ok (node_of_some hn), bind_of_ok hrow]
  rfl

namespace Session.TopSelect

variable {s : Session} {select : NodeId} {block : SelectBlock} {rank : NodeId → Nat}
  {entries sources : List NodeId} {row : DataType} (h : s.TopSelect select block rank)

include h

theorem nodup_sources : block.sources.Nodup := by
  have hall := h.isTree.nodup select _ .refl h.node
  simp only [Node.children, List.nodup_append] at hall
  exact hall.1.2.1

/-- With a list of entries that all stand for something, a SELECT comes to what follows the list. -/
theorem exists_hasBound (hentries : entries ⊆ block.sources) (hnodup : entries.Nodup)
    (hyields : ∀ entry ∈ entries, ∃ item, s.Yields entry item) :
    ∃ t, s.HasBound select entries t ∧
      selectRow (visitAt s.tree.size) ScopeTree.rootId select { block with sources := entries } s =
        selectTail (visitAt s.tree.size) s.scopes.nextId block t := by
  obtain ⟨scopes, hnew⟩ := ScopeTree.exists_newScope h.grounded.root_lt .block (some select)
  obtain ⟨-, hnil⟩ := Session.HasBound.nil h.grounded hnew
  obtain ⟨t, hlist, ht⟩ := hnil.bindSources h hentries (List.nil_subset _) hnodup hyields
  refine ⟨t, ht, ?_⟩
  have hopen : Validation.onScopes (·.newBlock ScopeTree.rootId (some select)) s =
      (.ok s.scopes.nextId, { s with scopes }) := by
    simp only [Validation.onScopes, ScopeTree.newBlock, hnew]
  rw [selectRow_eq, bind_of_ok hopen, bind_of_ok hlist]
  rfl

/-- A SELECT has a row type only when all entries of its list stand for something. -/
theorem yields_of_selectRow (hentries : entries ⊆ block.sources) (hnodup : entries.Nodup)
    (hok : (selectRow (visitAt s.tree.size) ScopeTree.rootId select { block with sources := entries }
      s).1 = .ok row) : ∀ entry ∈ entries, ∃ item, s.Yields entry item := by
  obtain ⟨u, hok⟩ : ∃ u, selectRow (visitAt s.tree.size) ScopeTree.rootId select
    { block with sources := entries } s = (.ok row, u) := ⟨_, Prod.ext hok rfl⟩
  rw [selectRow_eq] at hok
  obtain ⟨scope, t, hopen, hok⟩ := bind_eq_ok_iff.mp hok
  obtain ⟨_, t', hlist, -⟩ := bind_eq_ok_iff.mp hok
  obtain ⟨scopes, hnew, rfl⟩ := Validation.onScopes_eq_ok hopen
  obtain ⟨rfl, hnil⟩ := Session.HasBound.nil h.grounded hnew
  exact hnil.yields_of_bindSources h hentries (List.nil_subset _) hnodup hlist

/-- The order of the list does not matter. -/
theorem selectRow_iff (hstar : .star ∉ block.items)
    (hnames : Naming.DistinctNames ⟨s.tree, [], s.settings.matching⟩ block.sources)
    (hperm : block.sources.Perm sources) :
    (selectRow (visitAt s.tree.size) ScopeTree.rootId select block s).1 = .ok row ↔
      (selectRow (visitAt s.tree.size) ScopeTree.rootId select { block with sources } s).1 = .ok row := by
  have hnodup := h.nodup_sources
  have hsub : sources ⊆ block.sources := hperm.symm.subset
  by_cases hyields : ∀ entry ∈ block.sources, ∃ item, s.Yields entry item
  · obtain ⟨t, ht, hrow⟩ := h.exists_hasBound (List.Subset.refl _) hnodup hyields
    obtain ⟨t', ht', hrow'⟩ := h.exists_hasBound hsub (hperm.nodup hnodup)
      fun entry hentry => hyields entry (hsub hentry)
    -- The names are put in the second order first.
    obtain ⟨scopes, hreorders, hbound⟩ := ht.reorder hperm hnames
    have htail := ((visitAt_reorders s.scopes.nextId s.tree.size).selectTail s.scopes.nextId
      (fun hmem => (hstar hmem).elim) _ _ hreorders).answer_eq
    rw [hrow', hbound.selectTail_eq h ht' hsub, htail, ← congrArg Prod.fst hrow]
  · refine ⟨fun hok => (hyields ?_).elim, fun hok => (hyields ?_).elim⟩
    · exact h.yields_of_selectRow (List.Subset.refl _) hnodup hok
    · exact fun entry hentry => h.yields_of_selectRow hsub (hperm.nodup hnodup) hok entry
        (hperm.subset hentry)

/-- A query of the list has the row type that it has by itself. -/
theorem recorded_of_selectRow {u : Session} (hok : selectRow (visitAt s.tree.size) ScopeTree.rootId select
      block s = (.ok row, u)) {entry query : NodeId} {label : String} (hentry : entry ∈ block.sources)
    (hn : s.tree.node? entry = some (.subqueryRef query label)) :
    ∃ r, (Session.validateQuery query s).1 = .ok r ∧ u.types.get? entry = some r := by
  have hnodup := h.nodup_sources
  have hyields := h.yields_of_selectRow (List.Subset.refl _) hnodup (congrArg Prod.fst hok)
  obtain ⟨t, ht, hrow⟩ := h.exists_hasBound (List.Subset.refl _) hnodup hyields
  obtain ⟨bindings, -, -, hbindings⟩ := ht.shows
  obtain ⟨hlength, hbound⟩ := List.forall₂_iff_get.mp hbindings
  obtain ⟨i, hi, rfl⟩ := List.getElem_of_mem hentry
  obtain ⟨item, hitem, hb⟩ := hbound i hi (hlength ▸ hi)
  -- What follows the list leaves the entry alone.
  have hown := h.isClosed_tail
  have hs := ht.confined.continues
  have htail := ((Session.Confined.upholds (b := s) (s := t) (P := s.Under block.tail)
    h.grounded.closed hown.lt_size hown.child).runs_selectTail
    (visitAt_confined h.grounded.closed hown.lt_size hown.child s.tree.size)
    ⟨.refl hs.rewrites, .refl hs ht.confined.owned⟩ ht.lt_size
    fun c hc => Session.under_of_reach hc .refl).rel
  rw [← hrow, show ({ block with sources := block.sources } : SelectBlock) = block from rfl, hok] at htail
  have hkept := htail.2.types _ _ (Tree.lt_size_of_node? hn) ?_ .self
  · cases hitem with
    | table hn' => cases hn.symm.trans hn'
    | query hn' hquery =>
      cases hn.symm.trans hn'
      exact ⟨_, hquery, hkept.trans hb.introduces.type⟩
  · exact fun hunder => h.tail_apart (List.Subset.refl _) hunder ⟨_, hentry, .refl⟩

/-- The order of the list says nothing about which nodes are children. -/
theorem child_of_setNode (hperm : block.sources.Perm sources) {p c : NodeId}
    (hc : (s.tree.setNode select (.select { block with sources })).Child p c) : s.tree.Child p c := by
  obtain ⟨n, hn, hc⟩ := hc
  rw [Tree.node?_setNode] at hn
  split at hn
  · rename_i heq
    subst heq
    rw [h.node] at hn
    cases hn
    refine ⟨_, h.node, ?_⟩
    simp only [Node.children, List.mem_append, hperm.mem_iff] at hc ⊢
    exact hc
  · exact ⟨n, hn, hc⟩

theorem grounded_setNode (hperm : block.sources.Perm sources) :
    Session.Grounded { s with tree := s.tree.setNode select (.select { block with sources }) } := by
  have hs := h.grounded
  refine ⟨fun x n hn c hc => ?_, fun id hid => ?_, hs.owned, hs.nested, hs.root⟩
  · obtain ⟨old, hold, hmem⟩ := h.child_of_setNode hperm ⟨n, hn, hc⟩
    rw [Tree.isSome_node?_iff, Tree.size_setNode]
    exact Tree.isSome_node?_iff.mp (hs.closed x old hold c hmem)
  · show id.index < (s.tree.setNode select _).size
    rw [Tree.size_setNode]
    exact hs.recorded id hid

theorem isClosed_setNode (hperm : block.sources.Perm sources) :
    (s.tree.setNode select (.select { block with sources })).IsClosed (s.Beneath select) := by
  refine ⟨fun x hx => ?_, fun x c hx hc => hx.tail (h.child_of_setNode hperm hc)⟩
  rw [Tree.size_setNode]
  exact h.isClosed.lt_size x hx.to_reflTransGen

/-- Below the SELECT nothing has changed. -/
theorem node?_setNode_of_beneath {node : Node} {x : NodeId} (hx : s.Beneath select x) :
    s.tree.node? x = (s.tree.setNode select node).node? x := by
  rw [Tree.node?_setNode, if_neg]
  rintro rfl
  exact h.isTree.acyclic x .refl hx

/-- The SELECT with its list in another order, validated in the statement that has it so. -/
theorem validateQuery_setNode (hperm : block.sources.Perm sources) :
    (Session.validateQuery select
      { s with tree := s.tree.setNode select (.select { block with sources }) }).1 =
        (selectRow (visitAt s.tree.size) ScopeTree.rootId select { block with sources } s).1 := by
  have hs := h.grounded
  have ht := h.grounded_setNode hperm
  have hbelow := h.isClosed_setNode hperm
  have hchild : ∀ p c, (s.tree.setNode select (.select { block with sources })).Child p c →
      s.tree.Child p c := fun p c hc => h.child_of_setNode hperm hc
  have hkept : ∀ x, s.Beneath select x →
      s.tree.node? x = (s.tree.setNode select (.select { block with sources })).node? x :=
    fun x hx => h.node?_setNode_of_beneath hx
  have hset : (s.tree.setNode select (.select { block with sources })).node? select =
      some (.select { block with sources }) := by
    rw [Tree.node?_setNode, if_pos rfl, h.node]
    rfl
  have hsize : (s.tree.setNode select (.select { block with sources })).size = s.tree.size :=
    Tree.size_setNode ..
  generalize s.tree.setNode select (.select { block with sources }) = other at *
  let t : Session := { s with tree := other }
  have hbeside : t.Beside t (· = ScopeTree.rootId) (s.Beneath select) fun _ => False :=
    ht.beside hbelow (fun _ _ => id) (.refl ht.continues ht.owned) (.refl _)
  have hranked : ∀ p c, s.Beneath select p → other.Child p c → rank c < rank p := fun p c hp hc =>
    h.ranked p c hp.to_reflTransGen (hchild p c hc)
  have hρ := hbeside.suits (hbelow.acyclic_of_rank hranked) hranked
  have htree : Tree.Mirrors hbeside.renumbering.nodes (s.Beneath select) other s.tree := by
    have hmirrors := Tree.Mirrors.of_kept hbelow (Nat.le_of_eq hsize) hkept
    rwa [← hsize] at hmirrors
  have hm : Session.Mirrors hbeside.renumbering (s.Beneath select) t s :=
    { hbeside.mirrors with tree := htree }
  have hroom : ∀ c ∈ (Node.select { block with sources }).children,
      Tree.HasRoom (s.Beneath select) rank s.tree.size c := fun c hc => by
    have hc := hchild select c ⟨_, hset, hc⟩
    have hless := h.ranked _ _ .refl hc
    have hbound := h.bound
    exact ⟨.single hc, by omega⟩
  have hend := (visitAt_mirrors (N := ⟨other, [], s.settings.matching⟩) hρ s.tree.size 0).selectRow hρ
    ⟨.refl ht.continues.rewrites, ht.owned⟩ hm
    (show t.scopes.Visible hbeside.renumbering.scopes ScopeTree.rootId from ⟨.inl rfl, hs.root_lt⟩)
    hset hroom (.inl rfl)
  rw [hbeside.scope_eq hs.root_lt, Nat.add_zero] at hend
  have hrun : (Session.validateQuery select t).1 =
      (selectRow (visitAt s.tree.size) ScopeTree.rootId select { block with sources } t).1 := by
    rw [← hsize]
    exact answer_queryStep (v := visitAt other.size) (s := t) hset
  exact hrun.trans hend.answer_eq.symm

end Session.TopSelect

section

variable {settings : Settings} {tree : Tree} {operators : OperatorTable} {engine : CoercionEngine}
  {s : Session}

/-- The order of a FROM list does not matter. A SELECT over a tree, without a star and with names that do
    not match each other, comes to the same row type as with any other order of its list, or to none as
    well. If it has one, then each query of the list has got the row type that it has by itself, as it
    does not see the other entries. -/
theorem Session.Reached.validateQuery_perm
    (h : Session.Reached { settings, tree, operators, engine } s) (hclosed : tree.NoDangling)
    {select : NodeId} {block : SelectBlock} {sources : List NodeId}
    (hn : s.tree.node? select = some (.select block)) (htree : s.tree.IsTreeAt select)
    (hstar : .star ∉ block.items)
    (hnames : Naming.DistinctNames ⟨s.tree, [], s.settings.matching⟩ block.sources)
    (hperm : block.sources.Perm sources) (row : DataType) :
    let permuted : Session := { s with tree := s.tree.setNode select (.select { block with sources }) }
    ((Session.validateQuery select s).1 = .ok row ↔ (Session.validateQuery select permuted).1 = .ok row) ∧
      ((Session.validateQuery select s).1 = .ok row → ∀ entry ∈ block.sources, ∀ query label,
        s.tree.node? entry = some (.subqueryRef query label) → ∃ r,
          (Session.validateQuery query s).1 = .ok r ∧
            (Session.validateQuery select s).2.types.get? entry = some r) := by
  intro permuted
  have hs := h.grounded hclosed
  have hown := hs.closed.isClosed_reach (Tree.lt_size_of_node? hn)
  obtain ⟨rank, hrank, hbound⟩ := hown.exists_rank htree.acyclic
  have hselect : s.TopSelect select block rank := ⟨hs, htree, hn, hrank, hbound select .refl⟩
  have hrun : Session.validateQuery select s = queryStep (visitAt s.tree.size) ScopeTree.rootId select s :=
    rfl
  have hanswer : (Session.validateQuery select s).1 =
      (selectRow (visitAt s.tree.size) ScopeTree.rootId select block s).1 := answer_queryStep hn
  refine ⟨?_, fun hok entry hentry query label hentry' => ?_⟩
  · rw [hanswer, hselect.validateQuery_setNode hperm]
    exact hselect.selectRow_iff hstar hnames hperm
  · obtain ⟨u, hu⟩ : ∃ u, selectRow (visitAt s.tree.size) ScopeTree.rootId select block s = (.ok row, u) :=
      ⟨_, Prod.ext (hanswer ▸ hok) rfl⟩
    obtain ⟨r, hquery, hrecorded⟩ := hselect.recorded_of_selectRow hu hentry hentry'
    refine ⟨r, hquery, ?_⟩
    have hne : entry ≠ select := by
      rintro rfl
      exact htree.acyclic entry .refl (.single (hselect.child_of_mem hentry))
    rw [hrun, queryStep_of_ok hn hu, OrderedMap.get?_put, if_neg hne]
    exact hrecorded

end

/-- `SELECT N, T.A FROM T, (SELECT UPPER(1) AS N) AS D`. -/
def Tree.tableAndQuery : Tree :=
  (((((((({} : Tree).push (.literal (.integer 1))).push (.call "UPPER" [⟨0⟩])).push
    (.select { items := [.expression ⟨1⟩ (some "N")], sources := [], condition := none })).push
    (.subqueryRef ⟨2⟩ "D")).push (.tableRef ["T"] none)).push (.identifier ["N"])).push
    (.identifier ["T", "A"])).push
    (.select
      { items := [.expression ⟨5⟩ none, .expression ⟨6⟩ none], sources := [⟨4⟩, ⟨3⟩], condition := none })

/-- With a table `T` the query comes to the same when its list is `(SELECT UPPER(1) AS N) AS D, T`. -/
theorem Session.Reached.validateQuery_perm_tableAndQuery :
    let start : Session := { tree := .tableAndQuery }
    let s := ((Session.Request.addTable ["T"] (.row [("A", .notNull .integer)])).perform start).2
    let permuted : Session := { s with tree := s.tree.setNode ⟨7⟩ (.select
      { items := [.expression ⟨5⟩ none, .expression ⟨6⟩ none], sources := [⟨3⟩, ⟨4⟩], condition := none }) }
    let row : DataType := .row [("N", .notNull .varchar), ("A", .notNull .integer)]
    (Session.validateQuery ⟨7⟩ s).1 = .ok row ∧ (Session.validateQuery ⟨7⟩ permuted).1 = .ok row ∧
      (Session.validateQuery ⟨2⟩ s).1 = .ok (.row [("N", .notNull .varchar)]) ∧
        (Session.validateQuery ⟨7⟩ s).2.types.get? ⟨3⟩ = some (.row [("N", .notNull .varchar)]) := by
  intro start s permuted row
  have hforest : Tree.tableAndQuery.IsForest := .of_ordered (by decide) (by decide) (by decide)
  have hreached : Session.Reached start s := .request .start trivial
  have htree : s.tree = .tableAndQuery := by decide +kernel
  have hrow : (Session.validateQuery ⟨7⟩ s).1 = .ok row := by decide +kernel
  have hquery : (Session.validateQuery ⟨2⟩ s).1 = .ok (.row [("N", .notNull .varchar)]) := by
    decide +kernel
  have hnames : Naming.DistinctNames ⟨s.tree, [], s.settings.matching⟩ [⟨4⟩, ⟨3⟩] := by
    refine List.pairwise_pair.mpr fun x y hx hy => ?_
    obtain rfl : "T" = x := Option.some.inj hx
    obtain rfl : "D" = y := Option.some.inj hy
    decide +kernel
  obtain ⟨hiff, hrecorded⟩ := Session.Reached.validateQuery_perm hreached hforest.closed
    (show s.tree.node? ⟨7⟩ = some (.select ⟨[.expression ⟨5⟩ none, .expression ⟨6⟩ none], [⟨4⟩, ⟨3⟩], none⟩)
      from rfl)
    (htree ▸ hforest.isTreeAt ⟨7⟩) (by decide) hnames (.swap (⟨3⟩ : NodeId) ⟨4⟩ []) row
  obtain ⟨r, hr, htype⟩ := hrecorded hrow ⟨3⟩ (by decide) ⟨2⟩ "D" rfl
  obtain rfl := Except.ok.inj (hquery.symm.trans hr)
  exact ⟨hrow, hiff.mp hrow, hquery, htype⟩

end SqlTyping
