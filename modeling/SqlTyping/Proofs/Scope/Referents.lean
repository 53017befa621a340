import SqlTyping.Proofs.Tree.Naming

namespace SqlTyping

/-!
# Row sources of referents

The registry of row sources only grows, and what a source stands for never changes:

* `Referent.IsSource` — a row source stands for a referent;
* `RowSources.Grows` — sources are added and get row types, nothing else about them changes;
* `RowSources.OpenSince` — the sources that get row types: new ones, and views of items registered anew;
* `RowSources.Registered` — the registry has the catalog, WITH items and self-views under their own
  nodes;
* `RowSources.Owned` — what is registered for a node is there, and is the node's own.
-/

/-- What the registry has for a referent: the node that introduces it, and its kind. -/
def Referent.Describes (id : SourceId) (e : RowSource) : Referent → Prop
  | .table source => id = source ∧ ∃ names, e.kind = .table names
  | .query node => e.node = some node ∧ e.kind = .query
  | .item node => e.node = some node ∧ e.kind = .withItem
  | .self node => e.node = some node ∧ ∃ own, e.kind = .selfReference own

/-- A row source stands for a referent. The view of an item from inside its body is the one that is
    kept for the item. -/
structure Referent.IsSource (s : RowSources) (id : SourceId) (r : Referent) : Prop where
  source : ∃ e, s.get? id = some e ∧ r.Describes id e
  selfView : ∀ node, r = .self node → s.selfViewOf? node = some id

namespace RowSources

/-- Sources are added and get row types; what a source stands for stays. -/
structure Grows (s s' : RowSources) : Prop where
  source : ∀ id e, s.get? id = some e →
    ∃ e', s'.get? id = some e' ∧ e'.node = e.node ∧ e'.kind = e.kind
  selfView : ∀ item id, s.selfViewOf? item = some id → s'.selfViewOf? item = some id

/-- Since the registry was `u`, the source has been registered, or it is the view from inside of an item
    that has been registered since. -/
def OpenSince (u s : RowSources) (id : SourceId) : Prop :=
  u.size ≤ id.index ∨ ∃ item own e, s.selfViewOf? item = some id ∧ s.get? own = some e ∧
    e.node = some item ∧ e.kind = .withItem ∧ u.size ≤ own.index

/-- The sources of the catalog are tables; WITH items and their views from inside are registered
    under their nodes. -/
structure Registered (n : Naming) (s : RowSources) : Prop where
  table : ∀ b ∈ n.tables, (Referent.table b.source).IsSource s b.source
  item : ∀ item w id, n.tree.node? item = some (.withItem w) → s.ofNode? item = some id →
    (Referent.item item).IsSource s id
  selfView : ∀ item id, s.selfViewOf? item = some id → (Referent.self item).IsSource s id

/-- What is registered for a node, as a source or as a view from inside, is a source of that node. -/
structure Owned (s : RowSources) : Prop where
  item : ∀ node id, s.ofNode? node = some id → ∃ e, s.get? id = some e ∧ e.node = some node
  selfView : ∀ node id, s.selfViewOf? node = some id → ∃ e, s.get? id = some e ∧ e.node = some node

variable {n : Naming} {s s' : RowSources}

/-! ### Views of items from inside -/

/-- The registry with a view of an item from inside, which is linked to a source of the item. -/
def addView (s : RowSources) (item : NodeId) (own : SourceId) : RowSources :=
  { s.push { node := some item, kind := .selfReference own, row := .emptyRow
             enclosing := (s.get? own).bind (·.enclosing) } with
    selfViews := s.selfViews.put item s.nextId }

theorem get?_addView (s : RowSources) (item : NodeId) (own : SourceId) (id : SourceId) :
    (s.addView item own).get? id =
      if id = s.nextId then
        some { node := some item, kind := .selfReference own, row := .emptyRow
               enclosing := (s.get? own).bind (·.enclosing) }
      else s.get? id :=
  get?_push s _ id

theorem selfViewOf?_addView (s : RowSources) (item other : NodeId) (own : SourceId) :
    (s.addView item own).selfViewOf? other =
      if other = item then some s.nextId else s.selfViewOf? other :=
  OrderedMap.get?_put s.selfViews item other s.nextId

section

variable {item : NodeId} {id view own : SourceId}

theorem selfView_of_known (h : s.selfViewOf? item = some view) : s.selfView item = .ok (view, s) := by
  unfold selfView
  rw [h]

theorem selfView_of_new (hnone : s.selfViewOf? item = none) (hown : s.ofNode? item = some own) :
    s.selfView item = .ok (s.nextId, s.addView item own) := by
  unfold selfView
  rw [hnone, hown]
  rfl

theorem exists_selfView_eq_error (hnone : s.selfViewOf? item = none) (hown : s.ofNode? item = none) :
    ∃ fault, s.selfView item = .error fault := by
  unfold selfView
  rw [hnone, hown]
  exact ⟨_, rfl⟩

/-- A view that is asked for is there, or it is added for the source that the item has. -/
theorem selfView_eq_ok (h : s.selfView item = .ok (id, s')) :
    s.selfViewOf? item = some id ∧ s' = s ∨
      ∃ own, s.selfViewOf? item = none ∧ s.ofNode? item = some own ∧ id = s.nextId ∧
        s' = s.addView item own := by
  cases hview : s.selfViewOf? item with
  | some view =>
    rw [selfView_of_known hview] at h
    cases h
    exact .inl ⟨rfl, rfl⟩
  | none =>
    cases hown : s.ofNode? item with
    | some own =>
      rw [selfView_of_new hview hown] at h
      cases h
      exact .inr ⟨own, rfl, rfl, rfl, rfl⟩
    | none =>
      obtain ⟨fault, hfault⟩ := exists_selfView_eq_error hview hown
      rw [hfault] at h
      cases h

/-- It is there once it has been asked for. -/
theorem selfViewOf?_of_selfView (h : s.selfView item = .ok (id, s')) : s'.selfViewOf? item = some id := by
  rcases selfView_eq_ok h with ⟨hknown, rfl⟩ | ⟨own, -, -, rfl, rfl⟩
  · exact hknown
  · exact (selfViewOf?_addView ..).trans (if_pos rfl)

/-- It is registered beside the item itself. -/
theorem ofNode?_of_selfView (h : s.selfView item = .ok (id, s')) (node : NodeId) :
    s'.ofNode? node = s.ofNode? node := by
  rcases selfView_eq_ok h with ⟨-, rfl⟩ | ⟨own, -, -, -, rfl⟩
  · rfl
  · rfl

end

/-! ### Growing registries -/

theorem ofNode?_register (s : RowSources) (node other : NodeId) (kind : SourceKind)
    (enclosing : Option NodeId) : (s.register node kind enclosing).2.ofNode? other =
      if other = node then some s.nextId else s.ofNode? other :=
  OrderedMap.get?_put s.byNode node other s.nextId

/-- A source that is registered is one more. -/
theorem size_register (s : RowSources) (node : NodeId) (kind : SourceKind)
    (enclosing : Option NodeId) : (s.register node kind enclosing).2.size = s.size + 1 :=
  size_push s _

/-- Setting a row type leaves as many sources as there are. -/
theorem size_setRow {id : SourceId} {row : DataType} (h : s.setRow id row = .ok s') :
    s'.size = s.size := by
  unfold RowSources.setRow at h
  split at h
  · cases h
    simp [RowSources.size]
  · cases h

/-- Setting a row type leaves what is registered for nodes. -/
theorem byNode_of_setRow {id : SourceId} {row : DataType} (h : s.setRow id row = .ok s') :
    s'.byNode = s.byNode ∧ s'.selfViews = s.selfViews := by
  unfold RowSources.setRow at h
  split at h
  · cases h
    exact ⟨rfl, rfl⟩
  · cases h

theorem ofNode?_of_setRow {id : SourceId} {row : DataType} (h : s.setRow id row = .ok s')
    (node : NodeId) : s'.ofNode? node = s.ofNode? node :=
  congrArg (·.get? node) (byNode_of_setRow h).1

theorem selfViewOf?_of_setRow {id : SourceId} {row : DataType} (h : s.setRow id row = .ok s')
    (item : NodeId) : s'.selfViewOf? item = s.selfViewOf? item :=
  congrArg (·.get? item) (byNode_of_setRow h).2

namespace Grows

theorem refl (s : RowSources) : s.Grows s := ⟨fun _ e h => ⟨e, h, rfl, rfl⟩, fun _ _ h => h⟩

theorem trans {s'' : RowSources} (h : s.Grows s') (h' : s'.Grows s'') : s.Grows s'' where
  source id e he := by
    obtain ⟨e', he', hnode, hkind⟩ := h.source id e he
    obtain ⟨e'', he'', hnode', hkind'⟩ := h'.source id e' he'
    exact ⟨e'', he'', hnode'.trans hnode, hkind'.trans hkind⟩
  selfView item id hid := h'.selfView item id (h.selfView item id hid)

/-- A source that is registered is none of those that were there. -/
theorem ne_nextId {id : SourceId} {e : RowSource} (h : s.get? id = some e) : id ≠ s.nextId := by
  rintro rfl
  obtain ⟨hlt, -⟩ := Array.getElem?_eq_some_iff.mp h
  exact Nat.lt_irrefl _ hlt

theorem get?_push_of_some {id : SourceId} {e : RowSource} (h : s.get? id = some e)
    (source : RowSource) : (s.push source).get? id = some e := by
  rw [get?_push, if_neg (ne_nextId h)]
  exact h

theorem registerTable (s : RowSources) (names : List String) (row : DataType) :
    s.Grows (s.registerTable names row).2 where
  source _ e he := ⟨e, get?_push_of_some he _, rfl, rfl⟩
  selfView _ _ hv := hv

theorem register (s : RowSources) (node : NodeId) (kind : SourceKind) (enclosing : Option NodeId) :
    s.Grows (s.register node kind enclosing).2 where
  source _ e he := ⟨e, get?_push_of_some he _, rfl, rfl⟩
  selfView _ _ hv := hv

theorem of_selfView {item : NodeId} {id : SourceId} (h : s.selfView item = .ok (id, s')) :
    s.Grows s' := by
  rcases selfView_eq_ok h with ⟨-, rfl⟩ | ⟨own, hnone, -, -, rfl⟩
  · exact refl s'
  · refine ⟨fun id e he => ⟨e, get?_push_of_some he _, rfl, rfl⟩, fun other id hv => ?_⟩
    have hne : other ≠ item := by
      rintro rfl
      rw [hnone] at hv
      cases hv
    rw [selfViewOf?_addView, if_neg hne]
    exact hv

theorem of_setRow {id : SourceId} {row : DataType} (h : s.setRow id row = .ok s') : s.Grows s' where
  source other e he := by
    rw [get?_setRow h other]
    by_cases hid : other = id
    · subst hid
      rw [if_pos rfl, he]
      exact ⟨_, rfl, rfl, rfl⟩
    · rw [if_neg hid]
      exact ⟨e, he, rfl, rfl⟩
  selfView item _ hv := (selfViewOf?_of_setRow h item).trans hv

/-- A registry that grows does not get smaller. -/
theorem size_le (h : s.Grows s') : s.size ≤ s'.size := by
  cases hsize : s.size with
  | zero => exact Nat.zero_le _
  | succ n =>
    have hlast : s.get? ⟨n⟩ = some _ := Array.getElem?_eq_getElem (by
      show n < s.sources.size
      have : s.sources.size = n + 1 := hsize
      omega)
    obtain ⟨e, he, -⟩ := h.source _ _ hlast
    exact (Array.getElem?_eq_some_iff.mp he).1

end Grows

theorem OpenSince.mono {u : RowSources} {id : SourceId} (h : u.OpenSince s id) (hg : s.Grows s') :
    u.OpenSince s' id := by
  rcases h with hnew | ⟨item, own, e, hview, he, hnode, hkind, hnew⟩
  · exact .inl hnew
  · obtain ⟨e', he', hnode', hkind'⟩ := hg.source own e he
    exact .inr ⟨item, own, e', hg.selfView item id hview, he', hnode'.trans hnode, hkind'.trans hkind,
      hnew⟩

end RowSources

namespace Referent

variable {n : Naming} {s s' : RowSources} {r : Referent} {id : SourceId}

/-- Only the node and the kind of a source matter. -/
theorem Describes.of_eq {e e' : RowSource} (h : r.Describes id e) (hnode : e'.node = e.node)
    (hkind : e'.kind = e.kind) : r.Describes id e' := by
  cases r with
  | table source => exact ⟨h.1, by rw [hkind]; exact h.2⟩
  | query node => exact ⟨hnode.trans h.1, hkind.trans h.2⟩
  | item node => exact ⟨hnode.trans h.1, hkind.trans h.2⟩
  | self node => exact ⟨hnode.trans h.1, by rw [hkind]; exact h.2⟩

/-- What a source stands for stays as the registry grows. -/
theorem IsSource.mono (h : r.IsSource s id) (hg : s.Grows s') : r.IsSource s' id := by
  obtain ⟨⟨e, he, hr⟩, hself⟩ := h
  obtain ⟨e', he', hnode, hkind⟩ := hg.source id e he
  exact ⟨⟨e', he', hr.of_eq hnode hkind⟩, fun node hn => hg.selfView node id (hself node hn)⟩

/-- What the kind and the node of a source say that it stands for. -/
def ofSource? (id : SourceId) (e : RowSource) : Option Referent :=
  match e.kind with
  | .table _ => some (.table id)
  | .query => e.node.map .query
  | .withItem => e.node.map .item
  | .selfReference _ => e.node.map .self

theorem Describes.ofSource? {e : RowSource} (h : r.Describes id e) : ofSource? id e = some r := by
  unfold Referent.ofSource?
  cases r with
  | table source =>
    obtain ⟨rfl, names, hkind⟩ := h
    rw [hkind]
  | query node => rw [h.2, h.1]; rfl
  | item node => rw [h.2, h.1]; rfl
  | self node =>
    obtain ⟨hnode, own, hkind⟩ := h
    rw [hkind, hnode]
    rfl

/-- A source stands for one thing only. -/
theorem IsSource.unique {r' : Referent} (h : r.IsSource s id) (h' : r'.IsSource s id) : r = r' := by
  obtain ⟨e, he, hr⟩ := h.source
  obtain ⟨e', he', hr'⟩ := h'.source
  obtain rfl := Option.some.inj (he.symm.trans he')
  exact Option.some.inj (hr.ofSource?.symm.trans hr'.ofSource?)

/-- A source that stands for the item itself is a self-reference, and no other source is one. -/
theorem IsSource.isSelfReference (h : r.IsSource s id) :
    (s.get? id).any RowSource.isSelfReference = true ↔ ∃ node, r = .self node := by
  obtain ⟨⟨e, he, hr⟩, -⟩ := h
  rw [he]
  show e.isSelfReference = true ↔ _
  unfold RowSource.isSelfReference
  cases r with
  | table source =>
    obtain ⟨-, names, hkind⟩ := hr
    simp [hkind]
  | query node => simp [hr.2]
  | item node => simp [hr.2]
  | self node =>
    obtain ⟨-, own, hkind⟩ := hr
    simp [hkind]

end Referent

namespace RowSources.Registered

variable {n : Naming} {s s' : RowSources}

/-- A source is registered for a node; a WITH item is registered as one. -/
theorem register (h : s.Registered n) {node : NodeId} {kind : SourceKind}
    (enclosing : Option NodeId)
    (hkind : ∀ w, n.tree.node? node = some (.withItem w) → kind = .withItem) :
    (s.register node kind enclosing).2.Registered n where
  table b hb := (h.table b hb).mono (.register s node kind enclosing)
  item item w id hw hid := by
    rw [ofNode?_register] at hid
    split at hid
    · rename_i heq
      cases hid
      subst heq
      refine ⟨⟨_, get?_register_self s item kind enclosing, rfl, hkind w hw⟩, ?_⟩
      rintro _ ⟨⟩
    · exact (h.item item w id hw hid).mono (.register s node kind enclosing)
  selfView item id hid := (h.selfView item id hid).mono (.register s node kind enclosing)

/-- The view of an item from inside its body is registered for the item. -/
theorem of_selfView (h : s.Registered n) {item : NodeId} {id : SourceId}
    (hv : s.selfView item = .ok (id, s')) : s'.Registered n := by
  have hg := Grows.of_selfView hv
  rcases selfView_eq_ok hv with ⟨-, rfl⟩ | ⟨own, -, hown, rfl, rfl⟩
  · exact h
  · refine ⟨fun b hb => (h.table b hb).mono hg,
      fun other w id hw hid => (h.item other w id hw hid).mono hg, fun other id hid => ?_⟩
    have hid' := hid
    rw [selfViewOf?_addView] at hid'
    split at hid'
    · rename_i heq
      cases hid'
      subst heq
      refine ⟨⟨_, (get?_addView ..).trans (if_pos rfl), rfl, own, rfl⟩, ?_⟩
      rintro _ ⟨⟩
      exact hid
    · exact (h.selfView other id hid').mono hg

theorem of_setRow (h : s.Registered n) {id : SourceId} {row : DataType}
    (hr : s.setRow id row = .ok s') : s'.Registered n := by
  have hg := Grows.of_setRow hr
  refine ⟨fun b hb => (h.table b hb).mono hg, fun item w other hw hid => ?_,
    fun item other hid => ?_⟩
  · rw [ofNode?_of_setRow hr] at hid
    exact (h.item item w other hw hid).mono hg
  · rw [selfViewOf?_of_setRow hr] at hid
    exact (h.selfView item other hid).mono hg

end RowSources.Registered

/-! ### Sources of nodes -/

namespace RowSources.Owned

variable {s s' : RowSources} {node : NodeId} {id : SourceId}

/-- What has been registered for a node is there as the registry grows. -/
theorem item_of_grows (h : s.Owned) (hg : s.Grows s') (hid : s.ofNode? node = some id) :
    ∃ e, s'.get? id = some e ∧ e.node = some node := by
  obtain ⟨e, he, hnode⟩ := h.item node id hid
  obtain ⟨e', he', hsame, -⟩ := hg.source id e he
  exact ⟨e', he', hsame.trans hnode⟩

theorem selfView_of_grows (h : s.Owned) (hg : s.Grows s') (hid : s.selfViewOf? node = some id) :
    ∃ e, s'.get? id = some e ∧ e.node = some node := by
  obtain ⟨e, he, hnode⟩ := h.selfView node id hid
  obtain ⟨e', he', hsame, -⟩ := hg.source id e he
  exact ⟨e', he', hsame.trans hnode⟩

/-- The registry grows, and nothing else is registered for nodes. -/
theorem of_grows (h : s.Owned) (hg : s.Grows s') (hitem : s'.byNode = s.byNode)
    (hview : s'.selfViews = s.selfViews) : s'.Owned where
  item node id hid := by
    have hid : s'.byNode.get? node = some id := hid
    rw [hitem] at hid
    exact h.item_of_grows hg hid
  selfView node id hid := by
    have hid : s'.selfViews.get? node = some id := hid
    rw [hview] at hid
    exact h.selfView_of_grows hg hid

theorem register (h : s.Owned) (node : NodeId) (kind : SourceKind) (enclosing : Option NodeId) :
    (s.register node kind enclosing).2.Owned where
  item other id hid := by
    rw [ofNode?_register] at hid
    split at hid
    · rename_i heq
      cases hid
      subst heq
      exact ⟨_, get?_register_self s other kind enclosing, rfl⟩
    · exact h.item_of_grows (.register s node kind enclosing) hid
  selfView other id hid := h.selfView_of_grows (.register s node kind enclosing) hid

theorem of_selfView (h : s.Owned) (hv : s.selfView node = .ok (id, s')) : s'.Owned := by
  have hg := Grows.of_selfView hv
  rcases selfView_eq_ok hv with ⟨-, rfl⟩ | ⟨own, -, -, rfl, rfl⟩
  · exact h
  · refine ⟨fun other id hid => h.item_of_grows hg hid, fun other id hid => ?_⟩
    rw [selfViewOf?_addView] at hid
    split at hid
    · rename_i heq
      cases hid
      subst heq
      exact ⟨_, (get?_addView ..).trans (if_pos rfl), rfl⟩
    · exact h.selfView_of_grows hg hid

theorem of_setRow (h : s.Owned) {row : DataType} (hr : s.setRow id row = .ok s') : s'.Owned :=
  h.of_grows (.of_setRow hr) (byNode_of_setRow hr).1 (byNode_of_setRow hr).2

end RowSources.Owned

end SqlTyping
