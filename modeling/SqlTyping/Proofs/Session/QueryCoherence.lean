import SqlTyping.Proofs.Session.SelectCoherence

namespace SqlTyping

/-!
# Types of queries

A query that validation types is coherent, and its columns are named and as nullable as the text says:

* `Session.Embodied` — the query of a WITH item has been validated; a recursive one shows the item inside
  with the columns of its first input;
* `Visit.Coheres.bindWithItem` — the item then shows to others what it shows by the text;
* `Visit.Coheres.queryStep` — a query with a result is coherent.
-/

open Checking Filter

section

open Session

variable {b s s' : Session} {v : Visit} {view : Outlook} {scope : ScopeId} {a : NodeId} {row : DataType}
  (hv : v.Coheres b) (hforest : b.tree.IsForest)

include hv hforest

/-! ### Set operations -/

/-- A set operation that has got a row type; its first input is as nullable as the text says. -/
theorem Visit.Coheres.setOperationRow {operation : SetOperation}
    (hs : b.Poised (b.Reach a) s scope view) (hn : b.tree.node? a = some (.setOperation operation))
    (hok : SqlTyping.setOperationRow v scope operation s = (.ok row, s')) :
    b.Confined (b.Reach a) (b.Reach a) s s' ∧
      (∀ c ∈ (Node.setOperation operation).children, b.CoherentFrom s' c) ∧
        s'.Coheres row (.setOperation operation) ∧ b.Outlines view a row.outline ∧
          ∃ left, s'.types.get? operation.left = some left ∧
            b.Outlines view operation.left left.outline := by
  have hleft : b.tree.Child a operation.left := ⟨_, hn, by simp [Node.children]⟩
  have hright : b.tree.Child a operation.right := ⟨_, hn, by simp [Node.children]⟩
  have hnot : operation.left ∉ [operation.right] := by
    have hnodup := hforest.nodup_children hn
    exact (List.nodup_cons.mp hnodup).1
  have hrights : ∀ x ∈ [operation.right], b.tree.Child a x := by
    intro x hx
    obtain rfl := List.mem_singleton.mp hx
    exact hright
  obtain ⟨left, right, s₁, hleftRun, hrightRun, hrow⟩ := setOperationRow_eq_ok hok
  have hp₁ : b.Poised (b.Reach operation.left) s scope view := hs.mono fun _ hx => .head hleft hx
  have hc₁ := hv.confinedQuery hp₁ (hforest.lt_size_of_child hleft)
  rw [hleftRun] at hc₁
  obtain ⟨hcoherent₁, htype₁, houtlines₁⟩ :=
    hv.query hp₁ (hforest.lt_size_of_child hleft) hleftRun
  have hp₂ : b.Poised (b.Reach operation.right) s₁ scope view :=
    hs.confined hc₁ (fun _ hx => .head hleft hx) fun _ hx => .head hright hx
  have hc₂ := hv.confinedQuery hp₂ (hforest.lt_size_of_child hright)
  rw [hrightRun] at hc₂
  obtain ⟨hcoherent₂, htype₂, houtlines₂⟩ :=
    hv.query hp₂ (hforest.lt_size_of_child hright) hrightRun
  have hrightOnly : b.Confined (b.Under [operation.right]) (b.Under [operation.right]) s₁ s' :=
    hc₂.mono (fun _ hx => under_of_reach (List.mem_singleton_self _) hx)
      fun _ hx => under_of_reach (List.mem_singleton_self _) hx
  have htype₁' := (hrightOnly.type_beside hforest hleft hrights hnot).trans htype₁
  obtain ⟨houtline, -⟩ := outline_of_unionRow hrow
  refine ⟨(hc₁.mono (fun _ hx => .head hleft hx) fun _ hx => .head hleft hx).trans
    (hc₂.mono (fun _ hx => .head hright hx) fun _ hx => .head hright hx), fun c hc => ?_,
    ⟨left, right, htype₁', htype₂, hrow⟩, .of_step ?_, left, htype₁', houtlines₁⟩
  · rcases List.mem_cons.mp hc with rfl | hc
    · exact hcoherent₁.beside hforest hc₁.continues hc₁.owned hleft hrights hnot hrightOnly
    · obtain rfl := List.mem_singleton.mp hc
      exact hcoherent₂
  · filter_upwards [houtlines₁, houtlines₂] with depth hd₁ hd₂
    simp only [outlineStep, hn, hd₁, hd₂, houtline]

end

/-! ### WITH items -/

/-- The query of the WITH item `id` has been validated, and the row source of the item has no row type
    yet. -/
structure Session.Embodied (b : Session) (view : Outlook) (id : NodeId) (item : WithItem)
    (source : SourceId) (body : DataType) (s : Session) : Prop where
  coherent : b.CoherentFrom s item.query
  recorded : s.types.get? item.query = some body
  own : s.sources.ofNode? id = some source
  entry : ∃ e, s.sources.get? source = some e ∧ e.node = some id
  /-- The view from inside is another source. -/
  selfView : item.recursive = true → ∃ operation inside e left,
    s.tree.node? item.query = some (.setOperation operation) ∧ inside ≠ source ∧
      s.sources.selfViewOf? id = some inside ∧ s.sources.get? inside = some e ∧
        s.types.get? operation.left = some left ∧
          (¬ b.tree.Spells operation.left (qualifiedName item.name) →
            e.row.outline = left.outline.renamed item.columns)
  outlines : ∀ᶠ depth in atTop, b.bodyOutline (b.outlineAt depth) view id item = body.outline

section

open Session

variable {b s s' : Session} {v : Visit} {view : Outlook} {parent : ScopeId} {id : NodeId}
  {item : WithItem} {source : SourceId} {body : DataType} (hv : v.Coheres b)
  (hforest : b.tree.IsForest)

/-- A query that is validated leaves the row sources of the item that it is part of. -/
theorem Session.Confined.entry {c : NodeId} {e : RowSource}
    (hc : b.Confined (b.Reach c) (b.Reach c) s s') (hnot : ¬ b.Reach c id)
    (he : s.sources.get? source = some e) (hnode : e.node = some id) :
    s'.sources.get? source = some e := by
  refine hc.sources source e he fun node hn => ?_
  obtain rfl := Option.some.inj (hnode.symm.trans hn)
  exact hnot

/-- The item `id` has a row source of its own, which is not its view from inside. -/
structure Session.OwnSource (s : Session) (id : NodeId) (source : SourceId) : Prop where
  own : s.sources.ofNode? id = some source
  entry : ∃ e, s.sources.get? source = some e ∧ e.node = some id
  apart : ∀ inside, s.sources.selfViewOf? id = some inside → inside ≠ source

/-- The item `id` has a view from inside as well, with the entry `e`. -/
structure Session.InnerSource (s : Session) (id : NodeId) (source inside : SourceId) (e : RowSource) :
    Prop extends s.OwnSource id source where
  selfView : s.sources.selfViewOf? id = some inside
  inner : s.sources.get? inside = some e
  node : e.node = some id

section

variable {inside : SourceId} {e : RowSource} {sources : RowSources} {c : NodeId}

/-- An item that is registered has a new source, which is no view that there is. -/
theorem Session.OwnSource.of_register (howned : s.sources.Owned) (id : NodeId) :
    OwnSource { s with sources := (s.sources.register id .withItem none).2 } id s.sources.nextId where
  own := (RowSources.ofNode?_register ..).trans (if_pos rfl)
  entry := ⟨_, RowSources.get?_register_self _ _ _ _, rfl⟩
  apart inside hinside := by
    obtain ⟨e, he, -⟩ := howned.selfView id inside hinside
    exact RowSources.Grows.ne_nextId he

theorem Session.OwnSource.confined (h : s.OwnSource id source)
    (hc : b.Confined (b.Reach c) (b.Reach c) s s') (hnot : ¬ b.Reach c id) :
    s'.OwnSource id source := by
  obtain ⟨e, he, hnode⟩ := h.entry
  exact ⟨(hc.item id hnot).trans h.own, ⟨e, hc.entry hnot he hnode, hnode⟩, fun inside hinside =>
    h.apart inside ((hc.selfView id hnot).symm.trans hinside)⟩

theorem Session.InnerSource.confined (h : s.InnerSource id source inside e)
    (hc : b.Confined (b.Reach c) (b.Reach c) s s') (hnot : ¬ b.Reach c id) :
    s'.InnerSource id source inside e :=
  ⟨h.toOwnSource.confined hc hnot, (hc.selfView id hnot).trans h.selfView, hc.entry hnot h.inner h.node,
    h.node⟩

/-- The view from inside is found or made. -/
theorem Session.OwnSource.viewed (h : s.OwnSource id source) (hs : b.Continues s)
    (howned : s.sources.Owned) (hview : s.sources.selfView id = .ok (inside, sources)) :
    b.Confined (· = id) (fun _ => False) s { s with sources } ∧
      ∃ e, InnerSource { s with sources } id source inside e := by
  obtain ⟨hc, hself, ⟨e, he, hnode⟩, hitem, hkept, hfresh⟩ := hs.selfView howned hview
  obtain ⟨own, hown, hownNode⟩ := h.entry
  refine ⟨hc, e, ⟨(hitem id).trans h.own, ⟨own, hkept source own hown, hownNode⟩, ?_⟩, hself, he, hnode⟩
  intro other hother
  obtain rfl := Option.some.inj (hself.symm.trans hother)
  rcases hfresh with hknown | hnone
  · exact h.apart inside hknown
  · rintro rfl
    cases hnone.symm.trans hown

/-- It gets a row type. -/
theorem Session.InnerSource.setRow (h : s.InnerSource id source inside e) (hs : b.Continues s)
    (howned : s.sources.Owned) {row : DataType} (hset : s.sources.setRow inside row = .ok sources) :
    b.Confined (· = id) (fun _ => False) s { s with sources } ∧
      InnerSource { s with sources } id source inside { e with row } := by
  obtain ⟨hc, he, hkept⟩ := hs.setRow howned h.inner h.node hset
  obtain ⟨own, hown, hownNode⟩ := h.entry
  have hne : source ≠ inside := (h.apart inside h.selfView).symm
  exact ⟨hc, ⟨(RowSources.ofNode?_of_setRow hset id).trans h.own,
    ⟨own, (hkept source hne).trans hown, hownNode⟩, fun other hother =>
      h.apart other ((RowSources.selfViewOf?_of_setRow hset id).symm.trans hother)⟩,
    (RowSources.selfViewOf?_of_setRow hset id).trans h.selfView, he, h.node⟩

end

include hv hforest

/-- The query of an item that is not recursive is validated from the scope around it. -/
theorem Visit.Coheres.embodied (hs : b.Poised (b.Reach id) s parent view)
    (hn : b.tree.node? id = some (.withItem item)) (hrecursive : item.recursive = false)
    (hsource : s.OwnSource id source) (hok : v.query parent item.query s = (.ok body, s')) :
    b.Confined (b.Reach id) (b.Reach id) s s' ∧ b.Embodied view id item source body s' := by
  have hchild : b.tree.Child id item.query := ⟨_, hn, by simp [Node.children]⟩
  have hp : b.Poised (b.Reach item.query) s parent view := hs.mono fun _ hx => .head hchild hx
  have hsize := hforest.lt_size_of_child hchild
  have hc := hv.confinedQuery hp hsize
  rw [hok] at hc
  obtain ⟨hcoherent, hrecorded, houtlines⟩ := hv.query hp hsize hok
  have hsource' := hsource.confined hc (hforest.not_above_parent hchild)
  refine ⟨hc.mono (fun _ hx => .head hchild hx) fun _ hx => .head hchild hx, hcoherent, hrecorded,
    hsource'.own, hsource'.entry, fun hrec => ?_, houtlines.mono fun depth hd => ?_⟩
  · rw [hrecursive] at hrec
    cases hrec
  · unfold bodyOutline
    rw [if_neg (by simp [hrecursive])]
    exact hd

omit hforest in
/-- The first input of a recursive item is validated from the scope around the item, and gives the view from
    inside its columns. -/
theorem Visit.Coheres.anchored (hs : b.Poised (b.Reach id) s parent view)
    (hsource : s.OwnSource id source) {first : NodeId} (hsize : first.index < b.tree.size)
    (hbelow : ∀ x, b.Reach first x → b.Reach id x) (hnot : ¬ b.Reach first id)
    {inside : SourceId} {sources sources' : RowSources} {anchor shown : DataType} {u : Session}
    (hview : s.sources.selfView id = .ok (inside, sources))
    (hanchor : v.query parent first { s with sources } = (.ok anchor, u))
    (hset : u.sources.setRow inside shown = .ok sources') :
    b.Confined (b.Reach id) (b.Reach id) s { u with sources := sources' } ∧
      b.Outlines view first anchor.outline ∧ ∃ e, e.row = shown ∧
        InnerSource { u with sources := sources' } id source inside e := by
  have hself : ∀ x, x = id → b.Reach id x := by
    rintro _ rfl
    exact .refl
  obtain ⟨hc₁, e, hinner₁⟩ := hsource.viewed hs.continues hs.owned hview
  have hfrom₁ : b.Confined (b.Reach id) (b.Reach id) s { s with sources } :=
    hc₁.mono hself fun _ h => h.elim
  have hp : b.Poised (b.Reach first) { s with sources } parent view :=
    hs.confined hfrom₁ (fun _ h => h) hbelow
  have hc₂ := hv.confinedQuery hp hsize
  rw [hanchor] at hc₂
  obtain ⟨-, -, houtlines⟩ := hv.query hp hsize hanchor
  obtain ⟨hc₃, hinner₃⟩ := (hinner₁.confined hc₂ hnot).setRow hc₂.continues hc₂.owned hset
  exact ⟨(hfrom₁.trans (hc₂.mono hbelow hbelow)).trans (hc₃.mono hself fun _ h => h.elim), houtlines, _,
    rfl, hinner₃⟩

/-- The query of a recursive item is validated from a scope that shows the item with the columns of the
    first input. -/
theorem Visit.Coheres.embodied_recursive (hs : b.Poised (b.Reach id) s parent view)
    (hn : b.tree.node? id = some (.withItem item)) (hrecursive : item.recursive = true)
    (hsource : s.OwnSource id source)
    (hok : recursiveRow v parent id (qualifiedName item.name) item s = (.ok body, s')) :
    b.Confined (b.Reach id) (b.Reach id) s s' ∧ b.Embodied view id item source body s' := by
  obtain ⟨operation, inside, sources, anchor, u, shown, sources', scope, scopes, hquery, hview, hanchor,
    hshown, hset, hnew, hbody⟩ := recursiveRow_eq_ok hok
  have hwritten := hs.continues.rewrites.node?_of_isClause hquery rfl
  have hchild : b.tree.Child id item.query := ⟨_, hn, by simp [Node.children]⟩
  have hleft : b.tree.Child item.query operation.left := ⟨_, hwritten, by simp [Node.children]⟩
  have hbelow : ∀ x, b.Reach item.query x → b.Reach id x := fun _ hx => .head hchild hx
  have hnot : ¬ b.Reach item.query id := hforest.not_above_parent hchild
  obtain ⟨hfrom, houtlines₁, e, rfl, hinner⟩ := hv.anchored hs hsource
    (hforest.lt_size_of_child hleft) (fun _ hx => hbelow _ (.head hleft hx))
    (fun hx => hnot (.head hleft hx)) hview hanchor hset
  have hcolumns := outline_of_renamed hshown
  -- The whole body, from a scope that shows the view.
  have hp := hs.confined hfrom (fun _ h => h) hbelow
  have hp' := hp.newItem hnew (.inr ⟨rfl, hinner.selfView⟩) hinner.inner hinner.node hnot
  have hsize := hforest.lt_size_of_child hchild
  have hc := hv.confinedQuery hp' hsize
  rw [hbody] at hc
  obtain ⟨hcoherent, hrecorded, houtlines⟩ := hv.query hp' hsize hbody
  obtain ⟨left, hleftType, houtlines₂⟩ := hv.input hp' hsize hwritten hbody
  have hwhole : b.Confined (b.Reach item.query) (b.Reach item.query) { u with sources := sources' } s' :=
    ((hp.newScope hnew).1.mono (fun _ h => h.elim) fun _ h => h.elim).trans hc
  have hinner' := hinner.confined hwhole hnot
  refine ⟨hfrom.trans (hwhole.mono hbelow hbelow), hcoherent, hrecorded, hinner'.own, hinner'.entry,
    fun _ => ?_, ?_⟩
  · refine ⟨operation, inside, e, left, hc.continues.rewrites.rewritten.other _ _ hwritten rfl,
      hinner'.apart inside hinner'.selfView, hinner'.selfView, hinner'.inner, hleftType, fun hspells => ?_⟩
    -- Seen from inside, the first input has the columns it had before.
    have hleftOutline : b.Outlines ([] ++ view) operation.left left.outline :=
      Outlines.skip houtlines₂ hspells
    rw [hcolumns, houtlines₁.unique hleftOutline]
  · filter_upwards [houtlines₁, houtlines] with depth hd₁ hd₂
    unfold bodyOutline
    rw [if_pos hrecursive]
    simp only [hwritten, hd₁, ← hcolumns]
    exact hd₂

omit hv in
/-- The row source of an item gets the row type of its query under the names of the item, and so does the
    item. -/
theorem Session.Embodied.introduced (h : b.Embodied view id item source body s) (hs : b.Continues s)
    (howned : s.sources.Owned) (hn : b.tree.node? id = some (.withItem item)) {row : DataType}
    (hrow : renamed (qualifiedName item.name) item.columns body = .ok row) {sources : RowSources}
    (hset : s.sources.setRow source row = .ok sources) :
    b.Confined (b.Reach id) (b.Reach id) s { s with sources, types := s.types.put id row } ∧
      b.CoherentFrom { s with sources, types := s.types.put id row } id ∧
        sources.ofNode? id = some source ∧
          ∃ e, sources.get? source = some e ∧ e.node = some id ∧ e.row = row := by
  have hid := Tree.lt_size_of_node? hn
  have hchild : b.tree.Child id item.query := ⟨_, hn, by simp [Node.children]⟩
  obtain ⟨e, he, hnode⟩ := h.entry
  obtain ⟨hc, he', hkept⟩ := hs.setRow howned he hnode hset
  have hown : sources.ofNode? id = some source := (RowSources.ofNode?_of_setRow hset id).trans h.own
  have hcoherent := h.coherent.of_parent hforest hs howned hchild hc
  have hjudged : b.Judged { s with sources } id (.withItem item) row := by
    refine ⟨hc.continues.rewrites.rewritten.other id _ hn rfl, ⟨body, h.recorded, hrow⟩, ?_⟩
    rintro _ ⟨⟩ hrec
    obtain ⟨operation, inside, e', left, hop, hne, hinside, hentry, hleft, houtline⟩ := h.selfView hrec
    exact ⟨operation, hop, ⟨source, _, hown, he', rfl⟩, inside, e', left,
      (RowSources.selfViewOf?_of_setRow hset id).trans hinside, (hkept inside hne).trans hentry, hleft,
      houtline⟩
  refine ⟨(hc.mono ?_ fun _ h => h.elim).trans (.record hc.continues hc.owned row
    (Tree.lt_size_of_node? hjudged.found) fun a _ hw => ?_),
    hjudged.record hc.continues hc.owned (fun c hc => ?_) fun c hmem => ?_, hown, _, he', hnode, rfl⟩
  · rintro _ rfl
    exact .refl
  · rw [hw.eq_of_lt hid]
  · obtain rfl := List.mem_singleton.mp hc
    exact hcoherent
  · obtain rfl := List.mem_singleton.mp hmem
    exact hc.continues.not_below_child hforest hid .self ⟨_, hjudged.found, by simp [Node.children]⟩

/-- A WITH item that has been validated, and the scope that shows it. -/
theorem Visit.Coheres.bindWithItem {own own' : NodeId → Prop} {inner : ScopeId}
    (hs : b.Poised own s parent view) (hid : id.index < b.tree.size) (hown : ∀ x, b.Reach id x → own x)
    (hown' : ∀ x, own' x → own x) (hnot : ¬ own' id)
    (hok : SqlTyping.bindWithItem v parent id s = (.ok inner, s')) :
    b.Confined (b.Reach id) (b.Reach id) s s' ∧ b.CoherentFrom s' id ∧
      ∃ level, b.Poised own' s' inner (level :: view) ∧
        ∀ᶠ depth in atTop, b.itemLevel (b.outlineAt depth) view id = level := by
  obtain ⟨item, body, u, row, sources, scopes, hfound, hbody, hrow, hset, hnew, rfl⟩ :=
    bindWithItem_eq_ok hok
  have hn := hs.continues.rewrites.node?_of_isClause hfound rfl
  have hregistered : b.Confined (b.Reach id) (b.Reach id) s
      { s with sources := (s.sources.register id .withItem none).2 } :=
    (hs.continues.register hs.owned .withItem none).mono (by rintro _ rfl; exact .refl) fun _ h => h.elim
  have hp := hs.confined hregistered hown hown
  have hsource := Session.OwnSource.of_register hs.owned id
  obtain ⟨hc, hembodied⟩ : b.Confined (b.Reach id) (b.Reach id) _ u ∧
      b.Embodied view id item s.sources.nextId body u := by
    cases hrecursive : item.recursive with
    | false =>
      rw [if_neg (by simp [hrecursive])] at hbody
      exact hv.embodied hforest hp hn hrecursive hsource hbody
    | true =>
      rw [if_pos hrecursive] at hbody
      exact hv.embodied_recursive hforest hp hn hrecursive hsource hbody
  obtain ⟨hset', hcoherent, hown₁, e, he, hnode, hsame⟩ :=
    hembodied.introduced hforest hc.continues hc.owned hn hrow hset
  have hfrom := hregistered.trans (hc.trans hset')
  have hp' := hs.confined hfrom hown hown'
  refine ⟨hfrom.trans ((hp'.newScope hnew).1.mono (fun _ h => h.elim) fun _ h => h.elim),
    hcoherent.onScopes hset'.continues hset'.owned scopes, _,
    hp'.newItem hnew (.inl ⟨rfl, hown₁⟩) he hnode hnot, hembodied.outlines.mono fun depth hd => ?_⟩
  rw [hsame]
  unfold itemLevel
  simp only [hn, hd, ← outline_of_renamed hrow]

/-- The items of a WITH query, each of which sees the ones before it, and its body. -/
theorem Visit.Coheres.withRow {p queryBody : NodeId} {items : List NodeId} {row : DataType}
    (hs : b.Poised (b.Under (items ++ [queryBody])) s parent view)
    (hchild : ∀ c ∈ items ++ [queryBody], b.tree.Child p c) (hnodup : (items ++ [queryBody]).Nodup)
    (hok : SqlTyping.withRow v parent queryBody items s = (.ok row, s')) :
    b.Confined (b.Under (items ++ [queryBody])) (b.Under (items ++ [queryBody])) s s' ∧
      (∀ c ∈ items ++ [queryBody], b.CoherentFrom s' c) ∧ s'.types.get? queryBody = some row ∧
        ∀ᶠ depth in atTop, b.withOutline (b.outlineAt depth) queryBody view items = row.outline := by
  induction items generalizing s parent view with
  | nil =>
    have hbelow : ∀ x, b.Reach queryBody x → b.Under [queryBody] x :=
      fun _ hx => under_of_reach (List.mem_singleton_self _) hx
    have hp := hs.mono hbelow
    have hsize := hforest.lt_size_of_child (hchild queryBody (by simp))
    have hc := hv.confinedQuery hp hsize
    have hok : v.query parent queryBody s = (.ok row, s') := hok
    rw [hok] at hc
    obtain ⟨hcoherent, hrecorded, houtlines⟩ := hv.query hp hsize hok
    refine ⟨hc.mono hbelow hbelow, fun c hmem => ?_, hrecorded, houtlines⟩
    obtain rfl := List.mem_singleton.mp hmem
    exact hcoherent
  | cons item rest ih =>
    rw [List.cons_append] at hs hchild hnodup ⊢
    obtain ⟨hnot, hnodup'⟩ := List.nodup_cons.mp hnodup
    unfold SqlTyping.withRow at hok
    obtain ⟨inner, s₁, hitem, hrest⟩ := bind_eq_ok_iff.mp hok
    have hmem : item ∈ item :: (rest ++ [queryBody]) := List.mem_cons_self ..
    have hbelow : ∀ x, b.Reach item x → b.Under (item :: (rest ++ [queryBody])) x :=
      fun _ hx => under_of_reach hmem hx
    have hlater : ∀ x, b.Under (rest ++ [queryBody]) x → b.Under (item :: (rest ++ [queryBody])) x :=
      fun _ hx => hx.mono fun c hc => List.mem_cons_of_mem _ hc
    have hrestChild : ∀ c ∈ rest ++ [queryBody], b.tree.Child p c :=
      fun c hc => hchild c (List.mem_cons_of_mem _ hc)
    obtain ⟨hc₁, hcoherent₁, level, hp₁, hlevel⟩ := hv.bindWithItem hforest hs
      (hforest.lt_size_of_child (hchild item hmem)) hbelow hlater
      (not_under hforest (hchild item hmem) hrestChild hnot .refl) hitem
    obtain ⟨hc₂, hcoherent₂, hrecorded, houtline⟩ := ih hp₁ hrestChild hnodup' hrest
    refine ⟨(hc₁.mono hbelow hbelow).trans (hc₂.mono hlater hlater), fun c hc => ?_, hrecorded, ?_⟩
    · rcases List.mem_cons.mp hc with rfl | hc
      · exact hcoherent₁.beside hforest hc₁.continues hc₁.owned (hchild c hmem) hrestChild hnot hc₂
      · exact hcoherent₂ c hc
    · filter_upwards [hlevel, houtline] with depth hd₁ hd₂
      unfold withOutline
      rw [hd₁]
      exact hd₂

end

/-! ### Queries -/

section

open Session

variable {b s s' : Session} {v : Visit} {view : Outlook} {scope : ScopeId} {a : NodeId} {node : Node}
  {row : DataType} (hv : v.Coheres b) (hforest : b.tree.IsForest)

include hv hforest

/-- A query that has got a row type. -/
theorem Visit.Coheres.queryRow (hs : b.Poised (b.Reach a) s scope view)
    (hn : s.tree.node? a = some node) (hok : SqlTyping.queryRow v scope a node s = (.ok row, s')) :
    b.Continues s' ∧ s'.sources.Owned ∧ b.Judged s' a node row ∧
      (∀ c ∈ node.visited b.operators, b.CoherentFrom s' c) ∧ b.Outlines view a row.outline ∧
        ∀ operation, node = .setOperation operation → ∃ left,
          s'.types.get? operation.left = some left ∧ b.Outlines view operation.left left.outline := by
  have hstays : ∀ {n}, b.Confined (b.Reach a) (b.Reach a) s s' → node = n → n.isClause = true →
      s'.tree.node? a = some n := by
    rintro n hc rfl hclause
    have hwritten := hs.continues.rewrites.node?_of_isClause hn hclause
    cases node with
    | call => cases hclause
    | _ => exact hc.continues.rewrites.rewritten.other a _ hwritten rfl
  cases node with
  | select block =>
    obtain ⟨hc, hcoherent, hcoheres, houtlines⟩ := hv.selectRow hforest hs
      (hs.continues.rewrites.node?_of_isClause hn rfl) hok
    exact ⟨hc.continues, hc.owned, ⟨hstays hc rfl rfl, hcoheres, nofun⟩, hcoherent, houtlines, nofun⟩
  | setOperation operation =>
    obtain ⟨hc, hcoherent, hcoheres, houtlines, hleft⟩ := hv.setOperationRow hforest hs
      (hs.continues.rewrites.node?_of_isClause hn rfl) hok
    refine ⟨hc.continues, hc.owned, ⟨hstays hc rfl rfl, hcoheres, nofun⟩, hcoherent, houtlines, ?_⟩
    rintro _ ⟨⟩
    exact hleft
  | withQuery items body =>
    have hwritten := hs.continues.rewrites.node?_of_isClause hn rfl
    have hchild : ∀ c ∈ items ++ [body], b.tree.Child a c := fun c hc => ⟨_, hwritten, hc⟩
    obtain ⟨hc, hcoherent, hrecorded, houtline⟩ := hv.withRow hforest
      (hs.mono fun _ hx => reach_of_under hchild hx) hchild (hforest.nodup_children hwritten) hok
    have hc' := hc.mono (fun _ hx => reach_of_under hchild hx) fun _ hx => reach_of_under hchild hx
    refine ⟨hc.continues, hc.owned, ⟨hstays hc' rfl rfl, hrecorded, nofun⟩, hcoherent, .of_step ?_, nofun⟩
    filter_upwards [houtline] with depth hd
    simp only [outlineStep, hwritten, hd]
  | _ => cases hok

/-- A query that has been validated with a result. -/
theorem Visit.Coheres.queryStep (hs : b.Poised (b.Reach a) s scope view) (ha : a.index < b.tree.size)
    (hok : SqlTyping.queryStep v scope a s = (.ok row, s')) :
    b.CoherentFrom s' a ∧ s'.types.get? a = some row ∧ b.Outlines view a row.outline ∧
      ∀ operation, b.tree.node? a = some (.setOperation operation) → ∃ left,
        s'.types.get? operation.left = some left ∧ b.Outlines view operation.left left.outline := by
  obtain ⟨node, s₁, hn, hrow, rfl⟩ := queryStep_eq_ok hok
  obtain ⟨hcontinues, howned, hjudged, hcoherent, houtlines, hleft⟩ := hv.queryRow hforest hs hn hrow
  have hnot : ∀ c ∈ node.visited b.operators, ¬ s₁.tree.Below b.operators c a := fun c hc =>
    hcontinues.not_below_child hforest ha .self ⟨_, hjudged.found, Node.mem_children_of_visited hc⟩
  refine ⟨hjudged.record hcontinues howned hcoherent hnot,
    (OrderedMap.get?_put _ _ _ _).trans (if_pos rfl), houtlines, fun operation hop => ?_⟩
  have hsame := hs.continues.rewrites.rewritten.other a _ hop rfl
  obtain rfl := Option.some.inj (hn.symm.trans hsame)
  obtain ⟨left, htype, hleft⟩ := hleft operation rfl
  have hne : operation.left ≠ a := by
    intro heq
    exact hnot operation.left (by simp [Node.visited, Node.children]) (heq ▸ .refl)
  exact ⟨left, (OrderedMap.get?_put _ _ _ _).trans ((if_neg hne).trans htype), hleft⟩

end

end SqlTyping
