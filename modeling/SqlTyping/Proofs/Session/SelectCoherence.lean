import SqlTyping.Proofs.Session.ExpressionCoherence
import SqlTyping.Proofs.Session.Results

namespace SqlTyping

/-!
# Types of SELECT queries

A SELECT that validation types is coherent, and its columns are named and as nullable as the text says:

* `Session.Under` — what is below some of the children of a node, so what validating these can touch;
* `Session.Lists` — the scope of a SELECT shows what the entries of its FROM list show by the text;
* `Session.Lists.bindSource` — one more entry is bound, a table or a query;
* `Visit.Coheres.selectColumns` — the columns are those of the SELECT list;
* `Visit.Coheres.selectRow` — so a SELECT with a result is coherent, given its row type.
-/

open Checking Filter

namespace Session

/-- The nodes below one of several, in the statement as it was written. -/
def Under (b : Session) (cs : List NodeId) (x : NodeId) : Prop := ∃ c ∈ cs, b.Reach c x

variable {b s s' : Session} {own own' : NodeId → Prop} {view : Outlook} {scope : ScopeId}
  {p c x id : NodeId} {cs ds : List NodeId}

theorem Under.mono (h : b.Under cs x) (hsub : ∀ c ∈ cs, c ∈ ds) : b.Under ds x := by
  obtain ⟨c, hc, hx⟩ := h
  exact ⟨c, hsub c hc, hx⟩

theorem under_of_reach (hc : c ∈ cs) (hx : b.Reach c x) : b.Under cs x := ⟨c, hc, hx⟩

theorem reach_of_under (hcs : ∀ c ∈ cs, b.tree.Child p c) (hx : b.Under cs x) : b.Reach p x := by
  obtain ⟨c, hc, hx⟩ := hx
  exact .head (hcs c hc) hx

/-! ### Parts of a query -/

section

variable (hforest : b.tree.IsForest)

include hforest

/-- What is below a child is not below others. -/
theorem not_under (hchild : b.tree.Child p c) (hcs : ∀ x ∈ cs, b.tree.Child p x) (hnot : c ∉ cs)
    (hx : b.Reach c x) : ¬ b.Under cs x := by
  rintro ⟨d, hd, hdx⟩
  refine hforest.siblings_apart hchild (hcs d hd) ?_ hx hdx
  rintro rfl
  exact hnot hd

theorem lt_size_of_under (hcs : ∀ x ∈ cs, b.tree.Child p x) (hx : b.Under cs x) :
    x.index < b.tree.size := by
  obtain ⟨d, hd, hdx⟩ := hx
  exact hforest.lt_size_of_reach (hforest.lt_size_of_child (hcs d hd)) hdx

/-- A child stays coherent while others are validated. -/
theorem CoherentFrom.beside (h : b.CoherentFrom s c) (hs : b.Continues s) (howned : s.sources.Owned)
    (hchild : b.tree.Child p c) (hcs : ∀ x ∈ cs, b.tree.Child p x) (hnot : c ∉ cs)
    (hc : b.Confined (b.Under cs) (b.Under cs) s s') : b.CoherentFrom s' c :=
  h.confined hs howned hforest.closed (hforest.lt_size_of_child hchild) .self hc
    (fun _ hx => lt_size_of_under hforest hcs hx) fun _ hx =>
      ⟨not_under hforest hchild hcs hnot hx, not_under hforest hchild hcs hnot hx⟩

/-- So does its type. -/
theorem Confined.type_beside (hc : b.Confined (b.Under cs) (b.Under cs) s s')
    (hchild : b.tree.Child p c) (hcs : ∀ x ∈ cs, b.tree.Child p x) (hnot : c ∉ cs) :
    s'.types.get? c = s.types.get? c :=
  hc.types c c (hforest.lt_size_of_child hchild) (not_under hforest hchild hcs hnot .refl) .self

/-- A child stays coherent when its parent gets a row source. -/
theorem CoherentFrom.of_parent (h : b.CoherentFrom s c) (hs : b.Continues s)
    (howned : s.sources.Owned) (hchild : b.tree.Child p c)
    (hc : b.Confined (· = p) (fun _ => False) s s') : b.CoherentFrom s' c := by
  refine h.confined hs howned hforest.closed (hforest.lt_size_of_child hchild) .self hc ?_ fun y hy => ?_
  · rintro _ rfl
    obtain ⟨node, hn, -⟩ := hchild
    exact Tree.lt_size_of_node? hn
  · refine ⟨?_, fun hr => hr⟩
    rintro rfl
    exact hforest.not_above_parent hchild hy

end

/-- What is coherent does not depend on scopes. -/
theorem CoherentFrom.onScopes (h : b.CoherentFrom s c) (hs : b.Continues s) (howned : s.sources.Owned)
    (scopes : ScopeTree) : b.CoherentFrom { s with scopes } c :=
  h.kept hs ⟨⟨hs.rewrites.1, hs.rewrites.2⟩, hs.operators, hs.engine, hs.settings, hs.recorded⟩ howned
    fun _ _ => ⟨rfl, rfl, rfl, rfl, fun _ _ he _ => he⟩

/-- A node gets a row source of its own. -/
theorem Continues.register (hs : b.Continues s) (howned : s.sources.Owned) (kind : SourceKind)
    (enclosing : Option NodeId) : b.Confined (· = id) (fun _ => False) s
      { s with sources := (s.sources.register id kind enclosing).2 } := by
  have hc : b.Confined (id = ·) (fun _ => False) s
      { s with sources := (s.sources.register id kind enclosing).2 } :=
    .register hs howned rfl kind enclosing
  exact hc.mono (fun _ h => h.symm) fun _ h => h

/-- The row type of a source of one's own is set. -/
theorem Continues.setRow (hs : b.Continues s) (howned : s.sources.Owned) {source : SourceId}
    {e : RowSource} (he : s.sources.get? source = some e) (hnode : e.node = some id) {row : DataType}
    {sources : RowSources} (hset : s.sources.setRow source row = .ok sources) :
    b.Confined (· = id) (fun _ => False) s { s with sources } ∧
      sources.get? source = some { e with row } ∧
        ∀ other, other ≠ source → sources.get? other = s.sources.get? other := by
  have hc : b.Confined (id = ·) (fun _ => False) s { s with sources } :=
    .setRow hs howned rfl he hnode hset
  refine ⟨hc.mono (fun _ h => h.symm) fun _ h => h, ?_, fun other hne => ?_⟩
  · rw [RowSources.get?_setRow hset, if_pos rfl, he]
    rfl
  · rw [RowSources.get?_setRow hset, if_neg hne]

/-- The view of an item from inside is found or made. -/
theorem Continues.selfView (hs : b.Continues s) (howned : s.sources.Owned) {inside : SourceId}
    {sources : RowSources} (hview : s.sources.selfView id = .ok (inside, sources)) :
    b.Confined (· = id) (fun _ => False) s { s with sources } ∧
      sources.selfViewOf? id = some inside ∧
        (∃ e, sources.get? inside = some e ∧ e.node = some id) ∧
          (∀ node, sources.ofNode? node = s.sources.ofNode? node) ∧
            (∀ other e, s.sources.get? other = some e → sources.get? other = some e) ∧
              (s.sources.selfViewOf? id = some inside ∨ s.sources.get? inside = none) := by
  have hc : b.Confined (id = ·) (fun _ => False) s { s with sources } :=
    .selfViewed hs howned rfl hview
  refine ⟨hc.mono (fun _ h => h.symm) fun _ h => h, ?_⟩
  rcases RowSources.selfView_eq_ok hview with ⟨hknown, rfl⟩ | ⟨own, -, -, rfl, rfl⟩
  · exact ⟨hknown, howned.selfView id inside hknown, fun _ => rfl, fun _ _ h => h, .inl hknown⟩
  · exact ⟨(RowSources.selfViewOf?_addView ..).trans (if_pos rfl),
      ⟨_, (RowSources.get?_addView ..).trans (if_pos rfl), rfl⟩, fun _ => rfl,
      fun _ _ h => RowSources.Grows.get?_push_of_some h _, .inr s.sources.get?_nextId⟩

/-- A scope is added below one with an outlook. -/
theorem Poised.newScope (h : b.Poised own s scope view) {role : ScopeRole} {node : Option NodeId}
    {inner : ScopeId} {scopes : ScopeTree}
    (hnew : s.scopes.newScope scope role node = .ok (inner, scopes)) :
    b.Confined (fun _ => False) (fun _ => False) s { s with scopes } ∧
      b.Poised own { s with scopes } scope view ∧ s.scopes.size ≤ inner.index ∧
        ∃ around, scopes.get? scope = some around ∧
          scopes.get? inner = some ⟨some scope, role, node, [], around.depth + 1⟩ := by
  have hc : b.Confined (fun _ => False) (fun _ => False) s { s with scopes } :=
    .of_same h.continues rfl rfl rfl rfl rfl (.newScope hnew) (·.newScope hnew) (fun _ _ he _ => he)
      (fun _ _ => rfl) (fun _ _ => rfl) h.owned
  obtain ⟨rfl, around, haround, hget⟩ := ScopeTree.get?_newScope hnew
  exact ⟨hc, h.confined hc (fun _ hx => hx.elim) fun _ hx => hx, Nat.le_refl _, around,
    hc.scopes _ _ haround, (hget _).trans (if_pos rfl)⟩

/-- A scope that shows a WITH item is added. -/
theorem Poised.newItem (h : b.Poised own s scope view) {role : ScopeRole} {inner : ScopeId}
    {scopes : ScopeTree} {name : String} {source : SourceId} {e : RowSource}
    (hnew : s.scopes.newScope scope role (some id) = .ok (inner, scopes))
    (hrole : role = .withItem id name ∧ s.sources.ofNode? id = some source ∨
      role = .recursiveItem id name ∧ s.sources.selfViewOf? id = some source)
    (he : s.sources.get? source = some e) (hnode : e.node = some id) (hnot : ¬ own id) :
    b.Poised own { s with scopes } inner (.item id name e.row.outline :: view) := by
  obtain ⟨-, hp, -, around, haround, hinner⟩ := h.newScope hnew
  exact ⟨hp.continues, hp.owned, .inner hinner rfl haround rfl
    (.item hrole rfl he hnode rfl hnot) hp.overlooks⟩

/-! ### FROM lists -/

/-- Since `start` the scope of a SELECT has been added and its entries `done` have been bound; nothing in
    sight belongs to what is below the children `rest`. -/
structure Lists (b start : Session) (block : NodeId) (parent scope : ScopeId) (view : Outlook)
    (done rest : List NodeId) (s : Session) : Prop where
  confined : b.Confined (b.Reach block) (b.Reach block) start s
  new : start.scopes.size ≤ scope.index
  shows : ∃ found around entries, s.scopes.get? scope = some found ∧ found.role = .block ∧
    found.parent = some parent ∧ s.scopes.get? parent = some around ∧ found.depth = around.depth + 1 ∧
      List.Forall₂ (Binding.Outlined (b.Under rest) s.sources) found.bindings entries ∧
        ∀ᶠ depth in atTop, done.map (b.sourceEntry (b.outlineAt depth) view) = entries
  coherent : ∀ e ∈ done, b.CoherentFrom s e

section

variable {start : Session} {block entry : NodeId} {parent : ScopeId} {done rest : List NodeId}
  {v : Visit}

/-- What is in sight from the scope. -/
theorem Lists.poised (h : b.Lists start block parent scope view done rest s)
    (hstart : b.Poised (b.Reach block) start parent view)
    (hchild : ∀ c ∈ rest, b.tree.Child block c) :
    ∃ entries, (∀ᶠ depth in atTop, done.map (b.sourceEntry (b.outlineAt depth) view) = entries) ∧
      b.Poised (b.Under rest) s scope (.block entries :: view) := by
  obtain ⟨found, around, entries, hs, hrole, hparent, haround, hdepth, hbindings, hentries⟩ := h.shows
  have hp : b.Poised (b.Under rest) s parent view :=
    hstart.confined h.confined (fun _ hx => hx) fun _ hx => reach_of_under hchild hx
  exact ⟨entries, hentries, hp.continues, hp.owned, .inner hs hparent haround hdepth
    (.block hrole hbindings) hp.overlooks⟩

section

variable (hforest : b.tree.IsForest)

include hforest

/-- Being confined to what is below a node survives a binding in a scope that has been added since. -/
theorem Confined.addBinding {binding : Binding} {scopes : ScopeTree}
    (hc : b.Confined (b.Reach block) (b.Reach block) start s) (hblock : block.index < b.tree.size)
    (hnew : start.scopes.size ≤ scope.index) {e : RowSource}
    (he : s.sources.get? binding.source = some e)
    (hadd : s.scopes.addBinding scope binding = .ok scopes) :
    b.Confined (b.Reach block) (b.Reach block) start { s with scopes } := by
  have hupholds := Confined.upholds (b := b) (s := start) hforest.closed
    (fun a ha => hforest.lt_size_of_reach hblock ha) fun a c (ha : b.Reach block a) hc => ha.tail hc
  refine hupholds.addBinding hc hnew (.inl ?_) hadd
  rw [he]
  rfl

/-- One more entry has been dealt with, and its table is bound. -/
theorem Lists.bindName (h : b.Lists start block parent scope view done (entry :: rest) s)
    (hchild : ∀ c ∈ done ++ entry :: rest, b.tree.Child block c) (hnodup : (done ++ entry :: rest).Nodup)
    (hc : b.Confined (b.Reach entry) (b.Reach entry) s s') (hentry : b.CoherentFrom s' entry)
    {name : String} {source : SourceId} {e : RowSource} (he : s'.sources.get? source = some e)
    (hnot : ∀ node, e.node = some node → ¬ b.Under rest node)
    (houtline : ∀ᶠ depth in atTop, b.sourceEntry (b.outlineAt depth) view entry =
      ⟨[name], false, e.row.outline⟩) {scopes : ScopeTree}
    (hadd : s'.scopes.addBinding scope { names := [name], source, nullable := false } = .ok scopes) :
    b.Lists start block parent scope view (done ++ [entry]) rest { s' with scopes } := by
  have hblock : b.tree.Child block entry := hchild entry (by simp)
  have hbelow : ∀ x, b.Reach entry x → b.Reach block x := fun _ hx => .head hblock hx
  obtain ⟨found, around, entries, hs, hrole, hparent, haround, hdepth, hbindings, hentries⟩ := h.shows
  have hget := ScopeTree.get?_addBinding hadd
  refine ⟨?_, h.new, ⟨{ found with bindings := found.bindings ++
    [{ names := [name], source, nullable := false }] }, around,
    entries ++ [⟨[name], false, e.row.outline⟩], ?_, hrole, hparent, ?_, hdepth, ?_, ?_⟩, fun c hmem => ?_⟩
  · have hsize : block.index < b.tree.size := by
      obtain ⟨node, hn, -⟩ := hblock
      exact Tree.lt_size_of_node? hn
    exact Confined.addBinding hforest (h.confined.trans (hc.mono hbelow hbelow)) hsize h.new he hadd
  · show scopes.get? scope = _
    rw [hget, if_pos rfl, hc.scopes _ _ hs]
    rfl
  · -- The scope is not around itself.
    have hne : parent ≠ scope := by
      rintro rfl
      obtain rfl := Option.some.inj (hs.symm.trans haround)
      omega
    show scopes.get? parent = _
    rw [hget, if_neg hne]
    exact hc.scopes _ _ haround
  · refine List.rel_append (hbindings.imp fun _ _ hb => hb.kept (fun id y hy hnot => ?_) fun x hx =>
      hx.mono fun c hc => List.mem_cons_of_mem _ hc) (.cons ⟨rfl, rfl, e, he, rfl, hnot⟩ .nil)
    exact hc.sources id y hy fun node hn hr => hnot node hn (under_of_reach (List.mem_cons_self ..) hr)
  · filter_upwards [hentries, houtline] with depth hd hone
    rw [List.map_append, hd, List.map_singleton, hone]
  · refine CoherentFrom.onScopes ?_ hc.continues hc.owned scopes
    rcases List.mem_append.mp hmem with hdone | hlast
    · have hother : c ∉ [entry] := by
        intro hc
        obtain rfl := List.mem_singleton.mp hc
        exact (List.nodup_append.mp hnodup).2.2 c hdone c (List.mem_cons_self ..) rfl
      have hone : ∀ x, b.Reach entry x → b.Under [entry] x :=
        fun _ hx => under_of_reach (List.mem_singleton_self _) hx
      refine (h.coherent c hdone).beside hforest h.confined.continues h.confined.owned
        (hchild c (List.mem_append_left _ hdone)) ?_ hother (hc.mono hone hone)
      intro x hx
      obtain rfl := List.mem_singleton.mp hx
      exact hblock
    · obtain rfl := List.mem_singleton.mp hlast
      exact hentry

variable (hstart : b.Poised (b.Reach block) start parent view)

include hstart

/-- A table is bound. -/
theorem Lists.bindTable (h : b.Lists start block parent scope view done (entry :: rest) s)
    (hchild : ∀ c ∈ done ++ entry :: rest, b.tree.Child block c) (hnodup : (done ++ entry :: rest).Nodup)
    {name : List String} {label : Option String} (hn : s.tree.node? entry = some (.tableRef name label))
    (hok : SqlTyping.bindTable parent scope entry name label s = (.ok (), s')) :
    b.Lists start block parent scope view (done ++ [entry]) rest s' := by
  have hs := h.confined.continues
  have hp : b.Poised (b.Reach block) s parent view :=
    hstart.confined h.confined (fun _ hx => hx) fun _ hx => hx
  rcases bindTable_cases parent scope entry name label s with
    ⟨e, he⟩ | ⟨found, hfound, hremaining, ⟨-, -, e, he⟩ | ⟨exposed, -, hexposed, -⟩⟩
  · rw [he] at hok
    cases hok
  · rw [hok] at he
    cases he
  rw [SqlTyping.bindTable_of_found hfound hremaining hexposed] at hok
  obtain ⟨scopes, hadd, rfl⟩ := Validation.bindName_eq_ok hok
  obtain ⟨seen, hseen, hmeans⟩ := hp.overlooks.requireTable hfound
  obtain ⟨e, he, hcolumns, hnot⟩ := hmeans.source
  have hrow : s.sources.row? found.source = some e.row := RowSources.row?_of_get? he
  let listed : Session := { s with selfReferences := s.listing entry found.source }
  have hlisted : b.Confined (b.Reach entry) (b.Reach entry) s listed :=
    .of_same hs rfl rfl rfl rfl rfl (.refl _) id (fun _ _ he _ => he) (fun _ _ => rfl)
      (fun _ _ => rfl) h.confined.owned
  have hsize : entry.index < s.tree.size := Tree.lt_size_of_node? hn
  have hentry : entry.index < b.tree.size := hforest.lt_size_of_child (hchild entry (by simp))
  have hc : b.Confined (b.Reach entry) (b.Reach entry) s
      { listed with types := s.types.put entry e.row } := by
    refine hlisted.trans (.record hlisted.continues hlisted.owned e.row hsize fun a _ hw => ?_)
    rw [hw.eq_of_lt hentry]
  have hjudged : b.Judged listed entry (.tableRef name label) e.row := ⟨hn, trivial, by rintro _ ⟨⟩⟩
  have hwritten := hs.rewrites.node?_of_isClause hn rfl
  rw [hrow]
  refine h.bindName hforest hchild hnodup hc ?_ he (fun node hnode hunder => ?_) (.of_forall fun depth => ?_)
    hadd
  · exact hjudged.record hlisted.continues hlisted.owned (fun c hc => by cases hc) fun c hc => by cases hc
  · exact hnot node hnode (reach_of_under (fun c hc => hchild c (by simp [hc])) hunder)
  · rw [hs.settings] at hseen
    unfold sourceEntry
    simp only [hwritten, hexposed, hseen, Option.toList_some, Option.map_some, Option.getD_some, hcolumns]

variable (hv : v.Coheres b)

include hv

/-- A query of the FROM list is validated from the scope around the SELECT, and bound. -/
theorem Lists.bindSubquery (h : b.Lists start block parent scope view done (entry :: rest) s)
    (hchild : ∀ c ∈ done ++ entry :: rest, b.tree.Child block c) (hnodup : (done ++ entry :: rest).Nodup)
    {query : NodeId} {label : String} (hn : s.tree.node? entry = some (.subqueryRef query label))
    (hok : SqlTyping.bindSubquery v parent scope block entry query label s = (.ok (), s')) :
    b.Lists start block parent scope view (done ++ [entry]) rest s' := by
  have hs := h.confined.continues
  have hentry : b.tree.Child block entry := hchild entry (by simp)
  have hwritten := hs.rewrites.node?_of_isClause hn rfl
  have hquery : b.tree.Child entry query := ⟨_, hwritten, by simp [Node.children]⟩
  have hp : b.Poised (b.Reach query) s parent view :=
    hstart.confined h.confined (fun _ hx => hx) fun _ hx => .head hentry (.head hquery hx)
  have hsize := hforest.lt_size_of_child hquery
  obtain ⟨row, s₁, sources, hrow, hset, hrest⟩ := bindSubquery_eq_ok hok
  have hc₁ := hv.confinedQuery hp hsize
  rw [hrow] at hc₁
  obtain ⟨hcoherent, hrecorded, houtlines⟩ := hv.query hp hsize hrow
  -- The entry gets a row source and the type of the query.
  have hself := RowSources.get?_register_self s₁.sources entry .query (some block)
  have hregistered : b.Confined (· = entry) (fun _ => False) s₁ _ :=
    hc₁.continues.register hc₁.owned .query (some block)
  obtain ⟨hsets, he, -⟩ := hregistered.continues.setRow hregistered.owned hself rfl hset
  have hc₂ := hregistered.trans hsets
  have hcoherent₂ := hcoherent.of_parent hforest hc₁.continues hc₁.owned hquery hc₂
  have hjudged : b.Judged { s₁ with sources } entry (.subqueryRef query label) row :=
    ⟨hc₁.continues.rewrites.rewritten.other entry _ hwritten rfl, hrecorded, by rintro _ ⟨⟩⟩
  obtain ⟨scopes, hadd, rfl⟩ := Validation.bindName_eq_ok hrest
  have hbelow : ∀ x, b.Reach query x → b.Reach entry x := fun _ hx => .head hquery hx
  have hc : b.Confined (b.Reach entry) (b.Reach entry) s
      { s₁ with sources, types := s₁.types.put entry row } := by
    refine (hc₁.mono hbelow hbelow).trans ((hc₂.mono ?_ fun _ h => h.elim).trans
      (.record hc₂.continues hc₂.owned row (Tree.lt_size_of_node? hjudged.found) fun a _ hw => ?_))
    · rintro _ rfl
      exact .refl
    · rw [hw.eq_of_lt (hforest.lt_size_of_child hentry)]
  refine h.bindName hforest hchild hnodup hc ?_ he ?_ (houtlines.mono fun depth hd => ?_) hadd
  · refine hjudged.record hc₂.continues hc₂.owned (fun c hc => ?_) fun c hc => ?_
    · obtain rfl := List.mem_singleton.mp hc
      exact hcoherent₂
    · obtain rfl := List.mem_singleton.mp hc
      exact hc₂.continues.not_below_child hforest (hforest.lt_size_of_child hentry) .self
        ⟨_, hjudged.found, by simp [Node.children]⟩
  · rintro node ⟨⟩
    exact not_under hforest hentry (fun c hc => hchild c (by simp [hc]))
      (List.nodup_cons.mp (List.nodup_append.mp hnodup).2.1).1 .refl
  · unfold sourceEntry
    simp only [hwritten, hd]

/-- One entry of the FROM list is bound. -/
theorem Lists.bindSource (h : b.Lists start block parent scope view done (entry :: rest) s)
    (hchild : ∀ c ∈ done ++ entry :: rest, b.tree.Child block c) (hnodup : (done ++ entry :: rest).Nodup)
    (hok : SqlTyping.bindSource v parent scope block entry s = (.ok (), s')) :
    b.Lists start block parent scope view (done ++ [entry]) rest s' := by
  unfold SqlTyping.bindSource at hok
  obtain ⟨node, s₁, hnode, hok⟩ := bind_eq_ok_iff.mp hok
  obtain ⟨rfl, hn⟩ := node_eq_ok hnode
  cases node with
  | tableRef name label => exact h.bindTable hforest hstart hchild hnodup hn hok
  | subqueryRef query label => exact h.bindSubquery hforest hstart hv hchild hnodup hn hok
  | _ => cases hok

/-- All of them are. -/
theorem Lists.bindSources {entries : List NodeId}
    (h : b.Lists start block parent scope view done (entries ++ rest) s)
    (hchild : ∀ c ∈ done ++ (entries ++ rest), b.tree.Child block c)
    (hnodup : (done ++ (entries ++ rest)).Nodup)
    (hok : entries.forM (SqlTyping.bindSource v parent scope block) s = (.ok (), s')) :
    b.Lists start block parent scope view (done ++ entries) rest s' := by
  induction entries generalizing done s with
  | nil =>
    cases hok
    rwa [List.append_nil]
  | cons entry entries ih =>
    have hok : (SqlTyping.bindSource v parent scope block entry >>= fun _ =>
      entries.forM (SqlTyping.bindSource v parent scope block)) s = (.ok (), s') := hok
    obtain ⟨_, s₁, hone, hok⟩ := bind_eq_ok_iff.mp hok
    have hnext := h.bindSource hforest hstart hv hchild hnodup hone
    have happend : done ++ [entry] ++ (entries ++ rest) = done ++ (entry :: entries ++ rest) := by simp
    have hall := ih hnext (by rwa [happend]) (by rwa [happend]) hok
    rwa [List.append_assoc, List.singleton_append] at hall

end

end

end Session

/-! ### SELECT -/

/-- The columns so far stay when those of a table are added. -/
theorem Columns.prefix_addRow (columns : Columns) (row : DataType) (nullable : Bool) :
    columns <+: columns.addRow row nullable := by
  unfold Columns.addRow
  induction row.fields generalizing columns with
  | nil => exact List.prefix_rfl
  | cons f rest ih =>
    rw [List.foldl_cons]
    exact (List.prefix_append ..).trans (ih _)

theorem Columns.prefix_addBindings (columns : Columns) (sources : RowSources) (bindings : List Binding) :
    columns <+: columns.addBindings sources bindings := by
  unfold Columns.addBindings
  induction bindings generalizing columns with
  | nil => exact List.prefix_rfl
  | cons x rest ih =>
    rw [List.foldl_cons]
    exact (columns.prefix_addRow ..).trans (ih _)

/-- The types of the columns of a row type. -/
theorem DataType.types_row (columns : Columns) :
    (DataType.row columns).fields.map (·.type) = columns.map (·.2) := by
  have hall : ∀ start, (numbered start columns).map (·.type) = columns.map (·.2) := by
    induction columns with
    | nil => exact fun _ => rfl
    | cons c rest ih => exact fun start => congrArg _ (ih (start + 1))
  exact hall 0

section

open Session

variable {b s s' : Session} {v : Visit} {view : Outlook} {scope parent : ScopeId} {p a : NodeId}
  {row : DataType} {columns result : Columns} {place : Nat}
  {entries : List Outlook.Entry} (hv : v.Coheres b) (hforest : b.tree.IsForest)

include hv

/-- One entry of a SELECT list. -/
theorem Visit.Coheres.itemColumns {item : SelectItem}
    (hs : b.Poised (b.Under (Node.itemChild item)) s scope (.block entries :: view))
    (hsize : ∀ c ∈ Node.itemChild item, c.index < b.tree.size)
    (hok : SqlTyping.itemColumns v scope columns place item s = (.ok result, s')) :
    b.Confined (b.Under (Node.itemChild item)) (b.Under (Node.itemChild item)) s s' ∧
      (∀ c ∈ Node.itemChild item, b.CoherentFrom s' c) ∧
        (∃ types, List.Forall₂ (fun c t => s'.types.get? c = some t) (Node.itemChild item) types ∧
          (columns.map (·.2) ++ types).Sublist (result.map (·.2))) ∧
            ∀ᶠ depth in atTop, b.itemOutline (b.outlineAt depth) (.block entries :: view) entries
              columns.outline place item = result.outline := by
  cases item with
  | star =>
    obtain ⟨found, hfound, hbindings⟩ : ∃ found, s.scopes.get? scope = some found ∧
        List.Forall₂ (Binding.Outlined (b.Under (Node.itemChild .star)) s.sources) found.bindings
          entries := by
      cases hs.overlooks with
      | inner hfound _ _ _ hlevel _ =>
        cases hlevel with
        | block _ hbindings => exact ⟨_, hfound, hbindings⟩
      | root hfound _ hlevel =>
        cases hlevel with
        | block _ hbindings => exact ⟨_, hfound, hbindings⟩
    have hresult : (Except.ok (columns.addBindings s.sources
        (((s.scopes.get? scope).map (·.bindings)).getD [])), s) = (.ok result, s') := hok
    rw [hfound] at hresult
    cases hresult
    refine ⟨.refl hs.continues hs.owned, nofun, ⟨[], .nil, ?_⟩, .of_forall fun depth => ?_⟩
    · rw [List.append_nil]
      exact ((columns.prefix_addBindings ..).map _).sublist
    · exact (Columns.outline_addBindings hbindings columns).symm
  | expression id label =>
    have hid : id ∈ Node.itemChild (.expression id label) := List.mem_singleton_self _
    have hp : b.Poised (b.Reach id) s scope (.block entries :: view) :=
      hs.mono fun _ hx => under_of_reach hid hx
    unfold SqlTyping.itemColumns at hok
    obtain ⟨type, s₁, htype, hrest⟩ := bind_eq_ok_iff.mp hok
    obtain ⟨node, s₂, hnode, hcolumns⟩ := bind_eq_ok_iff.mp hrest
    obtain ⟨rfl, hn⟩ := node_eq_ok hnode
    cases hcolumns
    have hc := hv.confinedExpression hp (hsize id hid) .self
    rw [htype] at hc
    obtain ⟨hcoherent, hrecorded, hnull⟩ := hv.expression hp (hsize id hid) .self htype
    obtain ⟨written, hwritten⟩ := Option.isSome_iff_exists.mp (Tree.isSome_node?_iff.mpr (hsize id hid))
    refine ⟨hc.mono (fun _ hx => under_of_reach hid hx) fun _ hx => under_of_reach hid hx,
      fun c hc => ?_, ⟨[type], .cons hrecorded .nil, ?_⟩, hnull.mono fun depth hd => ?_⟩
    · obtain rfl := List.mem_singleton.mp hc
      exact hcoherent
    · unfold Columns.add
      rw [List.map_append]
      rfl
    · have hname := baseName_of_rewrites hc.continues.rewrites hwritten hn label place
      unfold itemOutline
      simp only [hd, Columns.outline_add, hname, hwritten, Option.getD_some]

include hforest

/-- The entries of a SELECT list, one after the other. -/
theorem Visit.Coheres.selectColumns {items : List SelectItem}
    (hs : b.Poised (b.Under (items.flatMap Node.itemChild)) s scope (.block entries :: view))
    (hchild : ∀ c ∈ items.flatMap Node.itemChild, b.tree.Child p c)
    (hnodup : (items.flatMap Node.itemChild).Nodup)
    (hok : SqlTyping.selectColumns v scope columns place items s = (.ok result, s')) :
    b.Confined (b.Under (items.flatMap Node.itemChild)) (b.Under (items.flatMap Node.itemChild)) s s' ∧
      (∀ c ∈ items.flatMap Node.itemChild, b.CoherentFrom s' c) ∧
        (∃ types,
          List.Forall₂ (fun c t => s'.types.get? c = some t) (items.flatMap Node.itemChild) types ∧
            (columns.map (·.2) ++ types).Sublist (result.map (·.2))) ∧
              ∀ᶠ depth in atTop, b.itemsOutline (b.outlineAt depth) (.block entries :: view) entries
                columns.outline place items = result.outline := by
  induction items generalizing s columns place with
  | nil =>
    cases hok
    refine ⟨.refl hs.continues hs.owned, nofun, ⟨[], .nil, ?_⟩, .of_forall fun _ => rfl⟩
    rw [List.append_nil]
  | cons item rest ih =>
    unfold SqlTyping.selectColumns at hok
    obtain ⟨more, s₁, hone, hok⟩ := bind_eq_ok_iff.mp hok
    rw [List.flatMap_cons] at hs hchild hnodup ⊢
    obtain ⟨-, hrest, hapart⟩ := List.nodup_append'.mp hnodup
    have hfirst : ∀ x, b.Under (Node.itemChild item) x →
        b.Under (Node.itemChild item ++ rest.flatMap Node.itemChild) x :=
      fun _ hx => hx.mono fun c hc => List.mem_append_left _ hc
    have hlater : ∀ x, b.Under (rest.flatMap Node.itemChild) x →
        b.Under (Node.itemChild item ++ rest.flatMap Node.itemChild) x :=
      fun _ hx => hx.mono fun c hc => List.mem_append_right _ hc
    obtain ⟨hc₁, hcoherent₁, ⟨types₁, htypes₁, hsub₁⟩, houtline₁⟩ :=
      hv.itemColumns (hs.mono hfirst) (fun c hc =>
        hforest.lt_size_of_child (hchild c (List.mem_append_left _ hc))) hone
    obtain ⟨hc₂, hcoherent₂, ⟨types₂, htypes₂, hsub₂⟩, houtline₂⟩ :=
      ih (hs.confined hc₁ hfirst hlater) (fun c hc => hchild c (List.mem_append_right _ hc)) hrest hok
    -- The children of the first entry are not looked at again.
    have hbeside : ∀ c ∈ Node.itemChild item, b.tree.Child p c ∧ c ∉ rest.flatMap Node.itemChild :=
      fun c hc => ⟨hchild c (List.mem_append_left _ hc), hapart hc⟩
    have hrestChild : ∀ c ∈ rest.flatMap Node.itemChild, b.tree.Child p c :=
      fun c hc => hchild c (List.mem_append_right _ hc)
    refine ⟨(hc₁.mono hfirst hfirst).trans (hc₂.mono hlater hlater), fun c hc => ?_,
      ⟨types₁ ++ types₂, List.rel_append ?_ htypes₂, ?_⟩, ?_⟩
    · rcases List.mem_append.mp hc with hc | hc
      · obtain ⟨hchild, hnot⟩ := hbeside c hc
        exact (hcoherent₁ c hc).beside hforest hc₁.continues hc₁.owned hchild hrestChild hnot hc₂
      · exact hcoherent₂ c hc
    · rw [List.forall₂_iff_get] at htypes₁ ⊢
      refine ⟨htypes₁.1, fun i h₁ h₂ => ?_⟩
      obtain ⟨hchild, hnot⟩ := hbeside _ (List.get_mem (Node.itemChild item) ⟨i, h₁⟩)
      exact (hc₂.type_beside hforest hchild hrestChild hnot).trans (htypes₁.2 i h₁ h₂)
    · rw [← List.append_assoc]
      exact (hsub₁.append_right types₂).trans hsub₂
    · filter_upwards [houtline₁, houtline₂] with depth hd₁ hd₂
      unfold itemsOutline
      rw [hd₁, hd₂]

/-- The condition of a SELECT, if there is one, and its columns. -/
theorem Visit.Coheres.selectTail {block : SelectBlock}
    (hs : b.Poised (b.Under (block.condition.toList ++ block.items.flatMap Node.itemChild)) s scope
      (.block entries :: view))
    (hchild : ∀ c ∈ block.condition.toList ++ block.items.flatMap Node.itemChild, b.tree.Child p c)
    (hnodup : (block.condition.toList ++ block.items.flatMap Node.itemChild).Nodup)
    (hok : SqlTyping.selectTail v scope block s = (.ok row, s')) :
    b.Confined (b.Under (block.condition.toList ++ block.items.flatMap Node.itemChild))
        (b.Under (block.condition.toList ++ block.items.flatMap Node.itemChild)) s s' ∧
      (∀ c ∈ block.condition.toList ++ block.items.flatMap Node.itemChild, b.CoherentFrom s' c) ∧
        s'.Coheres row (.select block) ∧ ∀ᶠ depth in atTop, b.itemsOutline (b.outlineAt depth)
          (.block entries :: view) entries [] 0 block.items = row.outline := by
  obtain ⟨columns, s₁, hfirst, hrun, rfl⟩ := selectTail_eq_ok hok
  have hcoheres : (∃ types, List.Forall₂ (fun c t => s'.types.get? c = some t)
      (block.items.flatMap Node.itemChild) types ∧ types.Sublist (columns.map (·.2))) →
        s'.Coheres (.row columns) (.select block) := by
    rintro ⟨types, htypes, hsub⟩
    refine ⟨types, htypes, ?_⟩
    rw [DataType.types_row]
    exact hsub
  rw [DataType.outline_row]
  cases hcondition : block.condition with
  | none =>
    simp only [hcondition, Option.toList_none, List.nil_append] at hs hchild hnodup hfirst ⊢
    subst hfirst
    obtain ⟨hc, hcoherent, htypes, houtline⟩ := hv.selectColumns hforest hs hchild hnodup hrun
    exact ⟨hc, hcoherent, hcoheres htypes, houtline⟩
  | some condition =>
    simp only [hcondition, Option.toList_some, List.singleton_append] at hs hchild hnodup hfirst ⊢
    obtain ⟨type, htype⟩ := hfirst
    have hmem : condition ∈ condition :: block.items.flatMap Node.itemChild := List.mem_cons_self ..
    have hbelow : ∀ x, b.Reach condition x →
        b.Under (condition :: block.items.flatMap Node.itemChild) x := fun _ hx => under_of_reach hmem hx
    have hlater : ∀ x, b.Under (block.items.flatMap Node.itemChild) x →
        b.Under (condition :: block.items.flatMap Node.itemChild) x :=
      fun _ hx => hx.mono fun c hc => List.mem_cons_of_mem _ hc
    have hp : b.Poised (b.Reach condition) s scope (.block entries :: view) := hs.mono hbelow
    have hsize := hforest.lt_size_of_child (hchild condition hmem)
    have hc₁ := hv.confinedExpression hp hsize .self
    rw [htype] at hc₁
    obtain ⟨hcoherent₁, -⟩ := hv.expression hp hsize .self htype
    have hrestChild : ∀ c ∈ block.items.flatMap Node.itemChild, b.tree.Child p c :=
      fun c hc => hchild c (List.mem_cons_of_mem _ hc)
    obtain ⟨hnot, hnodup'⟩ := List.nodup_cons.mp hnodup
    obtain ⟨hc₂, hcoherent₂, htypes, houtline⟩ :=
      hv.selectColumns hforest (hs.confined hc₁ hbelow hlater) hrestChild hnodup' hrun
    refine ⟨(hc₁.mono hbelow hbelow).trans (hc₂.mono hlater hlater), fun c hc => ?_,
      hcoheres htypes, houtline⟩
    rcases List.mem_cons.mp hc with rfl | hc
    · exact hcoherent₁.beside hforest hc₁.continues hc₁.owned (hchild c hmem) hrestChild hnot hc₂
    · exact hcoherent₂ c hc

/-- A SELECT that has got a row type. -/
theorem Visit.Coheres.selectRow {block : SelectBlock} (hs : b.Poised (b.Reach a) s parent view)
    (hn : b.tree.node? a = some (.select block))
    (hok : SqlTyping.selectRow v parent a block s = (.ok row, s')) :
    b.Confined (b.Reach a) (b.Reach a) s s' ∧
      (∀ c ∈ (Node.select block).children, b.CoherentFrom s' c) ∧ s'.Coheres row (.select block) ∧
        b.Outlines view a row.outline := by
  -- The parts in the order in which they are validated.
  have hperm : (block.sources ++ (block.condition.toList ++ block.items.flatMap Node.itemChild)).Perm
      (Node.select block).children := by
    show List.Perm _ (block.items.flatMap Node.itemChild ++ block.sources ++ block.condition.toList)
    rw [← List.append_assoc, List.append_assoc (block.items.flatMap _)]
    exact List.perm_append_comm
  have hchild : ∀ c ∈ block.sources ++ (block.condition.toList ++ block.items.flatMap Node.itemChild),
      b.tree.Child a c := fun c hc => ⟨_, hn, hperm.mem_iff.mp hc⟩
  have hnodup := hperm.nodup_iff.mpr (hforest.nodup_children hn)
  rw [selectRow_eq] at hok
  obtain ⟨scope, s₁, hscope, hrest⟩ := bind_eq_ok_iff.mp hok
  obtain ⟨_, s₂, hsources, htail⟩ := bind_eq_ok_iff.mp hrest
  obtain ⟨scopes, hnew, rfl⟩ := Validation.onScopes_eq_ok hscope
  obtain ⟨hc₀, -, hfresh, around, haround, hinner⟩ := hs.newScope hnew
  have hopened : b.Lists s a parent scope view [] (block.sources ++
      (block.condition.toList ++ block.items.flatMap Node.itemChild)) { s with scopes } :=
    ⟨hc₀.mono (fun _ h => h.elim) fun _ h => h.elim, hfresh,
      ⟨_, around, [], hinner, rfl, rfl, haround, rfl, .nil, .of_forall fun _ => rfl⟩, nofun⟩
  have hbound := hopened.bindSources hforest hs hv hchild hnodup hsources
  rw [List.nil_append] at hbound
  have htailChild : ∀ c ∈ block.condition.toList ++ block.items.flatMap Node.itemChild,
      b.tree.Child a c := fun c hc => hchild c (List.mem_append_right _ hc)
  obtain ⟨entries, hentries, hp⟩ := hbound.poised hs htailChild
  obtain ⟨-, hnodup', hapart⟩ := List.nodup_append'.mp hnodup
  obtain ⟨hc, hcoherent, hcoheres, houtline⟩ := hv.selectTail hforest hp htailChild hnodup' htail
  have hbelow : ∀ x, b.Under (block.condition.toList ++ block.items.flatMap Node.itemChild) x →
      b.Reach a x := fun _ hx => reach_of_under htailChild hx
  refine ⟨hbound.confined.trans (hc.mono hbelow hbelow), fun c hmem => ?_, hcoheres, .of_step ?_⟩
  · rcases List.mem_append.mp (hperm.mem_iff.mpr hmem) with hsource | hlast
    · exact (hbound.coherent c hsource).beside hforest hp.continues hp.owned
        (hchild c (List.mem_append_left _ hsource)) htailChild (hapart hsource) hc
    · exact hcoherent c hlast
  · filter_upwards [hentries, houtline] with depth hd hitems
    simp only [outlineStep, hn, selectOutline, hd, hitems]

end

end SqlTyping
