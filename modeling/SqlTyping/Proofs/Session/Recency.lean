import SqlTyping.Proofs.Session.Journal
import SqlTyping.Proofs.Session.Linking

namespace SqlTyping

/-!
# Row types that are current

A WITH item is to have the row type of its query, and to be seen from inside its body with that of its first
input, as they have been found last:

* `RowSource.IsCurrent` — a row source has such a row type;
* `Journal.IsCurrent` — whatever has been bound or searched has been current at that time;
* `RowSource.IsApart` — nothing that a row source depends on is among given nodes;
* `Journal.Serves` — all that can be seen from a scope is current, and apart from given nodes;
* `Journal.Serves.later`, `Journal.Serves.newScope`, `Journal.Serves.addBinding` — so it is after these nodes
  have been validated, in new scopes, and with new names;
* `Journal.Serves.root` — and in the catalog, whatever has been asked for before.
-/

/-! ### Current row types -/

/-- A validation takes place outside the body of a recursive item, if it is inside the bodies `inside`. -/
def NodeId.isOutside (item : NodeId) (inside : List NodeId) : Bool := !inside.contains item

/-- A WITH item has the row type that its query has come to last, renamed by its column list. As its body sees
    it, it has that of the first input of the body; there those validations count whose place `counts`. -/
def RowSource.IsCurrent (counts : NodeId → List NodeId → Bool) (t : Tree) (events : List Session.Event)
    (source : RowSource) : Prop :=
  match source.kind with
  | .table _ | .query => True
  | .withItem => ∃ id item body, source.node = some id ∧ t.node? id = some (.withItem item) ∧
      latest? events item.query (fun _ => true) = some body ∧
        renamed (qualifiedName item.name) item.columns body = .ok source.row
  | .selfReference _ => ∃ id item operation anchor, source.node = some id ∧
      t.node? id = some (.withItem item) ∧ t.node? item.query = some (.setOperation operation) ∧
        latest? events operation.left (counts id) = some anchor ∧
          renamed (qualifiedName item.name) item.columns anchor = .ok source.row

/-- What has been bound or searched was current after the events `earlier`. The table that was bound has got
    this row type. -/
def Session.Event.IsCurrent (counts : NodeId → List NodeId → Bool) (t : Tree)
    (earlier : List Session.Event) : Session.Event → Prop
  | .validated .. => True
  | .bound _ source type => type = some source.row ∧ source.IsCurrent counts t earlier
  | .searched source => source.IsCurrent counts t earlier

/-- Everything has been current when it was bound or searched. -/
def Journal.IsCurrent (counts : NodeId → List NodeId → Bool) (t : Tree) (events : List Session.Event) :
    Prop :=
  ∀ earlier event later, events = earlier ++ event :: later → event.IsCurrent counts t earlier

/-- Validating the nodes `own`, inside the bodies `inside`, leaves what a row source depends on. -/
structure RowSource.IsApart (t : Tree) (own : NodeId → Prop) (inside : List NodeId) (source : RowSource) :
    Prop where
  node : ∀ id, source.node = some id → ¬ own id
  query : ∀ id item, source.kind = .withItem → source.node = some id →
    t.node? id = some (.withItem item) → ¬ own item.query
  body : ∀ id item, source.kind = .selfReference item → source.node = some id → id ∈ inside

/-- From `events` to `events'` only nodes `own` have come to row types, inside all the bodies `inside`, and
    everything has been current. -/
structure Journal.Logs (t : Tree) (own : NodeId → Prop) (inside : List NodeId)
    (events events' : List Session.Event) : Prop where
  exists_new : ∃ new, events' = events ++ new ∧ ∀ query row around,
    .validated query row around ∈ new → own query ∧ inside ⊆ around
  current : Journal.IsCurrent NodeId.isOutside t events → Journal.IsCurrent NodeId.isOutside t events'

section

variable {t : Tree} {own own' : NodeId → Prop} {inside inside' : List NodeId}
  {events events' events'' new : List Session.Event} {query : NodeId} {row : DataType}
  {counts : List NodeId → Bool} {source : RowSource}

/-- A query that comes to no row type any more keeps the last one. -/
theorem latest?_append (h : ∀ row inside, .validated query row inside ∈ new → counts inside = false) :
    latest? (events ++ new) query counts = latest? events query counts := by
  have hnone : new.reverse.findSome? (·.row? query counts) = none := by
    refine List.findSome?_eq_none_iff.mpr fun event hevent => ?_
    cases event with
    | validated id row inside =>
      refine if_neg ?_
      rintro ⟨rfl, hcounts⟩
      rw [h row inside (List.mem_reverse.mp hevent)] at hcounts
      cases hcounts
    | _ => rfl
  unfold latest?
  rw [List.reverse_append, List.findSome?_append, hnone, Option.none_or]

/-- A query that has just come to a row type. -/
theorem latest?_concat (hcounts : counts inside = true) :
    latest? (events ++ [.validated query row inside]) query counts = some row := by
  have hrow : Session.Event.row? query counts (.validated query row inside) = some row :=
    if_pos ⟨rfl, hcounts⟩
  unfold latest?
  rw [List.reverse_append, List.findSome?_append, List.reverse_singleton, List.findSome?_singleton, hrow]
  rfl

theorem RowSource.IsApart.mono (h : source.IsApart t own inside) (hown : ∀ id, own' id → own id)
    (hinside : inside ⊆ inside') : source.IsApart t own' inside' where
  node id hn ho := h.node id hn (hown id ho)
  query id item hkind hn hitem ho := h.query id item hkind hn hitem (hown _ ho)
  body id item hkind hn := hinside (h.body id item hkind hn)

/-- What a row source does not depend on does not matter. -/
theorem RowSource.IsCurrent.later (h : source.IsCurrent NodeId.isOutside t events)
    (hapart : source.IsApart t own inside) (hlogs : Journal.Logs t own inside events events') :
    source.IsCurrent NodeId.isOutside t events' := by
  obtain ⟨new, rfl, hnew⟩ := hlogs.exists_new
  unfold RowSource.IsCurrent at h ⊢
  cases hkind : source.kind with
  | table _ | query => trivial
  | withItem =>
    rw [hkind] at h
    obtain ⟨id, item, body, hnode, hitem, hlatest, hrow⟩ := h
    refine ⟨id, item, body, hnode, hitem, (latest?_append fun row around hmem => ?_).trans hlatest, hrow⟩
    exact absurd (hnew _ _ _ hmem).1 (hapart.query id item hkind hnode hitem)
  | selfReference own =>
    rw [hkind] at h
    obtain ⟨id, item, operation, anchor, hnode, hitem, hoperation, hlatest, hrow⟩ := h
    refine ⟨id, item, operation, anchor, hnode, hitem, hoperation,
      (latest?_append fun row around hmem => ?_).trans hlatest, hrow⟩
    -- The first input is validated again, now inside the body.
    simpa [NodeId.isOutside] using (hnew _ _ _ hmem).2 (hapart.body id own hkind hnode)

namespace Journal

theorem IsCurrent.nil {counts : NodeId → List NodeId → Bool} : Journal.IsCurrent counts t [] :=
  fun _ _ _ h => by simp at h

/-- One event more. -/
theorem IsCurrent.concat {counts : NodeId → List NodeId → Bool} {event : Session.Event}
    (h : Journal.IsCurrent counts t events) (hevent : event.IsCurrent counts t events) :
    Journal.IsCurrent counts t (events ++ [event]) := by
  intro earlier other later heq
  rcases List.eq_nil_or_concat later with rfl | ⟨later, last, rfl⟩
  · obtain ⟨rfl, hlast⟩ := List.append_inj' heq rfl
    obtain rfl := List.singleton_inj.mp hlast
    exact hevent
  · refine h earlier other later ?_
    rw [List.concat_eq_append, ← List.cons_append, ← List.append_assoc] at heq
    exact (List.append_inj' heq rfl).1

namespace Logs

theorem refl (events : List Session.Event) : Logs t own inside events events :=
  ⟨⟨[], (List.append_nil _).symm, fun _ _ _ h => by cases h⟩, id⟩

theorem trans (h : Logs t own inside events events') (h' : Logs t own inside events' events'') :
    Logs t own inside events events'' := by
  obtain ⟨new, rfl, hnew⟩ := h.exists_new
  obtain ⟨new', rfl, hnew'⟩ := h'.exists_new
  refine ⟨⟨new ++ new', List.append_assoc .., fun query row around hmem => ?_⟩, h'.current ∘ h.current⟩
  exact (List.mem_append.mp hmem).elim (hnew query row around) (hnew' query row around)

theorem mono (h : Logs t own inside events events') (hown : ∀ id, own id → own' id)
    (hinside : inside' ⊆ inside) : Logs t own' inside' events events' := by
  obtain ⟨new, heq, hnew⟩ := h.exists_new
  refine ⟨⟨new, heq, fun query row around hmem => ?_⟩, h.current⟩
  obtain ⟨hq, haround⟩ := hnew query row around hmem
  exact ⟨hown query hq, List.Subset.trans hinside haround⟩

/-- A query has come to a row type. -/
theorem validated (hq : own query) (row : DataType) (hinside : inside ⊆ inside') :
    Logs t own inside events (events ++ [.validated query row inside']) := by
  refine ⟨⟨_, rfl, fun query row around hmem => ?_⟩, fun h => h.concat trivial⟩
  cases List.mem_singleton.mp hmem
  exact ⟨hq, hinside⟩

/-- A table of a FROM list has been bound to what is current. -/
theorem bound (entry : NodeId) (h : source.IsCurrent NodeId.isOutside t events) :
    Logs t own inside events (events ++ [.bound entry source (some source.row)]) := by
  refine ⟨⟨_, rfl, fun query row around hmem => ?_⟩, fun hc => hc.concat ⟨rfl, h⟩⟩
  cases List.mem_singleton.mp hmem

/-- What has been searched is current. -/
theorem searched {sources : List RowSource}
    (h : ∀ source ∈ sources, source.IsCurrent NodeId.isOutside t events) :
    Logs t own inside events (events ++ sources.map .searched) := by
  induction sources generalizing events with
  | nil =>
    rw [List.map_nil, List.append_nil]
    exact .refl events
  | cons source rest ih =>
    have hone : Logs t (fun _ => False) [] events (events ++ [.searched source]) := by
      refine ⟨⟨_, rfl, fun query row around hmem => ?_⟩, fun hc =>
        hc.concat (h source (List.mem_cons_self ..))⟩
      cases List.mem_singleton.mp hmem
    -- A search does not make anything older.
    have hkept : ∀ other ∈ rest, other.IsCurrent NodeId.isOutside t (events ++ [.searched source]) := by
      intro other hother
      have hcurrent := h other (List.mem_cons_of_mem _ hother)
      unfold RowSource.IsCurrent at hcurrent ⊢
      have hlatest : ∀ query counts, latest? (events ++ [.searched source]) query counts =
          latest? events query counts := fun query counts => latest?_append fun _ _ hmem => by
        cases List.mem_singleton.mp hmem
      simpa only [hlatest] using hcurrent
    have hrest := ih hkept
    rw [List.map_cons, List.append_cons]
    refine trans ⟨?_, hone.current⟩ hrest
    refine ⟨_, rfl, fun query row around hmem => ?_⟩
    cases List.mem_singleton.mp hmem

end Logs

end Journal

end

/-! ### Scopes -/

/-- The row source that a scope of the given role shows. -/
def ScopeRole.source? (sources : RowSources) : ScopeRole → Option SourceId
  | .catalog | .block => none
  | .withItem item _ => sources.ofNode? item
  | .recursiveItem item _ => sources.selfViewOf? item

/-- Names can be looked up in what a scope shows and in what it has bound. -/
def Scope.Holds (sources : RowSources) (scope : Scope) (id : SourceId) : Prop :=
  scope.role.source? sources = some id ∨ ∃ b ∈ scope.bindings, b.source = id

namespace ScopeTree

variable {t t' : ScopeTree} {id : ScopeId}

theorem Extends.widens (h : t.Extends t') : t.Widens t' := fun id scope hs =>
  ⟨scope, h id scope hs, rfl, rfl, List.Subset.refl _⟩

/-- The scopes around a scope stay the same when names are bound and scopes are added. -/
theorem Nested.chain_eq (hn : t.Nested) (hn' : t'.Nested) (hw : t.Widens t') (hlt : id.index < t.size) :
    t'.chain id = t.chain id := by
  obtain ⟨scope, hs⟩ : ∃ scope, t.get? id = some scope := ⟨_, Array.getElem?_eq_getElem hlt⟩
  induction hd : scope.depth generalizing id scope with
  | zero =>
    obtain ⟨scope', hs', -, hparent, -⟩ := hw id scope hs
    cases hp : scope.parent with
    | none => rw [chain_of_root hs hp, chain_of_root hs' (hparent.trans hp)]
    | some parent =>
      obtain ⟨around, -, hdepth⟩ := hn id scope parent hs hp
      omega
  | succ depth ih =>
    obtain ⟨scope', hs', -, hparent, -⟩ := hw id scope hs
    cases hp : scope.parent with
    | none => rw [chain_of_root hs hp, chain_of_root hs' (hparent.trans hp)]
    | some parent =>
      obtain ⟨around, haround, hdepth⟩ := hn id scope parent hs hp
      rw [hn.chain hs hp, hn'.chain hs' (hparent.trans hp),
        ih (lt_size_of_get? haround) around haround (by omega)]

/-- So do the bodies that it is in. -/
theorem Nested.ownBodies_eq (hn : t.Nested) (hn' : t'.Nested) (hw : t.Widens t')
    (hlt : id.index < t.size) : t'.ownBodies id = t.ownBodies id := by
  unfold ownBodies
  rw [hn.chain_eq hn' hw hlt]
  refine List.filterMap_congr fun other hmem => ?_
  obtain ⟨around, haround⟩ := hn.exists_of_mem_chain (Array.getElem?_eq_getElem hlt) hmem
  obtain ⟨around', haround', hrole, -⟩ := hw other around haround
  rw [haround, haround', Option.bind_some, Option.bind_some, hrole]

/-- A scope that is added is followed by the scopes that its parent is followed by. -/
theorem Nested.chain_newScope {parent : ScopeId} {role : ScopeRole} {node : Option NodeId} (hn : t.Nested)
    (hnew : t.newScope parent role node = .ok (id, t')) : t'.chain id = id :: t.chain parent := by
  obtain ⟨rfl, around, haround, hget⟩ := get?_newScope hnew
  have hs := hget t.nextId
  rw [if_pos rfl] at hs
  rw [(hn.newScope hnew).chain hs rfl,
    hn.chain_eq (hn.newScope hnew) (.newScope hnew) (lt_size_of_get? haround)]

theorem Nested.ownBodies_newScope {parent : ScopeId} {role : ScopeRole} {node : Option NodeId}
    (hn : t.Nested) (hnew : t.newScope parent role node = .ok (id, t')) :
    t'.ownBodies id = role.ownBody?.toList ++ t.ownBodies parent := by
  obtain ⟨-, around, haround, hget⟩ := get?_newScope hnew
  have hlt := lt_size_of_get? haround
  have hself : (t'.get? id).bind (·.role.ownBody?) = role.ownBody? := by
    rw [hget, if_pos rfl]
    rfl
  rw [← hn.ownBodies_eq (hn.newScope hnew) (.newScope hnew) hlt]
  unfold ownBodies
  rw [hn.chain_newScope hnew, hn.chain_eq (hn.newScope hnew) (.newScope hnew) hlt, List.filterMap_cons,
    hself]
  cases role.ownBody? with
  | none => rfl
  | some item => rfl

/-- What a scope has for a name is what it holds. -/
theorem holds_of_tableIn {scope : Scope} {names : List String} {m : NameMatching} {path : Path}
    {sources : RowSources} {found : TableMatch}
    (h : tableIn names m path sources id scope = .ok (some found)) : scope.Holds sources found.source := by
  rcases tableIn_eq_some h with ⟨source, hitem, rfl⟩ | ⟨-, leading, hlead, rfl⟩
  · left
    obtain ⟨item, shown, -, ⟨hrole, hsource⟩ | ⟨hrole, hsource⟩⟩ := itemMatch_eq_some hitem
    · rw [hrole]
      exact hsource
    · rw [hrole]
      exact hsource
  · exact .inr ⟨leading.2, Naming.mem_of_leadingBinding? hlead, rfl⟩

/-- A table that is found is held by a scope that is looked through. -/
theorem exists_holds_of_requireTable {scope : ScopeId} {names : List String} {m : NameMatching}
    {sources : RowSources} {found : TableMatch} (h : t.requireTable scope names m sources = .ok found) :
    ∃ id ∈ t.chain scope, ∃ around, t.get? id = some around ∧ around.Holds sources found.source := by
  obtain ⟨id, hmem, around, haround, hanswer⟩ := exists_of_firstAlong (requireTable_eq_ok_iff.mp h)
  exact ⟨id, hmem, around, haround, holds_of_tableIn hanswer⟩

end ScopeTree

/-- A row source is there, it is current, and it is apart from the nodes `own`. -/
def RowSources.Settled (t : Tree) (own : NodeId → Prop) (inside : List NodeId)
    (events : List Session.Event) (sources : RowSources) (id : SourceId) : Prop :=
  ∃ e, sources.get? id = some e ∧ e.IsCurrent NodeId.isOutside t events ∧ e.IsApart t own inside

/-- Names that are looked up from a scope are looked up in what is current, and this does not change when the
    nodes `own` are validated from there. -/
structure Journal.Serves (t : Tree) (own : NodeId → Prop) (scopes : ScopeTree) (sources : RowSources)
    (events : List Session.Event) (scope : ScopeId) : Prop where
  nested : scopes.Nested
  lt_size : scope.index < scopes.size
  hidden : ∀ id ∈ scopes.chain scope, ∀ around, scopes.get? id = some around →
    around.role.ShowsOnly fun item => ¬ own item
  settled : ∀ id ∈ scopes.chain scope, ∀ around source, scopes.get? id = some around →
    around.Holds sources source → sources.Settled t own (scopes.ownBodies scope) events source

namespace Journal.Serves

variable {t : Tree} {own own' : NodeId → Prop} {scopes scopes' : ScopeTree} {sources : RowSources}
  {events events' : List Session.Event} {scope id : ScopeId}

theorem mono (h : Serves t own scopes sources events scope) (hown : ∀ id, own' id → own id) :
    Serves t own' scopes sources events scope where
  nested := h.nested
  lt_size := h.lt_size
  hidden id hmem around haround := (h.hidden id hmem around haround).imp fun _ hnot ho => hnot (hown _ ho)
  settled id hmem around source haround hholds := by
    obtain ⟨e, he, hcurrent, hapart⟩ := h.settled id hmem around source haround hholds
    exact ⟨e, he, hcurrent, hapart.mono hown (List.Subset.refl _)⟩

/-- The bodies that a scope is in are those of other nodes. -/
theorem not_mem_ownBodies (h : Serves t own scopes sources events scope) {item : NodeId}
    (hitem : own item) : item ∉ scopes.ownBodies scope := by
  intro hmem
  obtain ⟨id, hid, hbody⟩ := List.mem_filterMap.mp hmem
  obtain ⟨around, haround, hrole⟩ := Option.bind_eq_some_iff.mp hbody
  have hhidden := h.hidden id hid around haround
  cases hr : around.role with
  | catalog | block | withItem _ _ =>
    rw [hr] at hrole
    cases hrole
  | recursiveItem other name =>
    rw [hr] at hrole hhidden
    cases hrole
    exact hhidden hitem

/-- A table that is found. -/
theorem requireTable (h : Serves t own scopes sources events scope) {names : List String}
    {m : NameMatching} {found : TableMatch}
    (hfound : scopes.requireTable scope names m sources = .ok found) :
    sources.Settled t own (scopes.ownBodies scope) events found.source := by
  obtain ⟨id, hmem, around, haround, hholds⟩ := ScopeTree.exists_holds_of_requireTable hfound
  exact h.settled id hmem around _ haround hholds

/-- Whatever is bound is current. -/
theorem boundSources {s : Session} (h : Serves t own s.scopes s.sources events scope) :
    ∀ source ∈ s.boundSources scope, source.IsCurrent NodeId.isOutside t events := by
  intro source hsource
  obtain ⟨id, hid, hmem⟩ := List.mem_flatMap.mp hsource
  obtain ⟨b, hb, hget⟩ := List.mem_filterMap.mp hmem
  obtain ⟨around, haround⟩ := h.nested.exists_of_mem_chain (Array.getElem?_eq_getElem h.lt_size) hid
  rw [haround] at hb
  obtain ⟨e, he, hcurrent, -⟩ := h.settled id hid around b.source haround (.inr ⟨b, hb, rfl⟩)
  obtain rfl := Option.some.inj (he.symm.trans hget)
  exact hcurrent

/-- More has been noted. -/
theorem noted (h : Serves t own scopes sources events scope)
    (hlogs : Logs t own (scopes.ownBodies scope) events events') :
    Serves t own scopes sources events' scope where
  nested := h.nested
  lt_size := h.lt_size
  hidden := h.hidden
  settled id hmem around source haround hholds := by
    obtain ⟨e, he, hcurrent, hapart⟩ := h.settled id hmem around source haround hholds
    exact ⟨e, he, hcurrent.later hapart hlogs, hapart⟩

/-- Nodes `own` have been validated. -/
theorem later {b s s' : Session} (h : Serves t own s.scopes s.sources events scope)
    (hc : b.Confined own own s s') (hlogs : Logs t own (s.scopes.ownBodies scope) events events') :
    Serves t own s'.scopes s'.sources events' scope := by
  have hn' := hc.nested h.nested
  have hchain := h.nested.chain_eq hn' hc.scopes.widens h.lt_size
  have hsame : ∀ id ∈ s'.scopes.chain scope, ∀ around, s'.scopes.get? id = some around →
      id ∈ s.scopes.chain scope ∧ s.scopes.get? id = some around := by
    intro id hmem around haround
    rw [hchain] at hmem
    obtain ⟨old, hold⟩ := h.nested.exists_of_mem_chain (Array.getElem?_eq_getElem h.lt_size) hmem
    obtain rfl := Option.some.inj ((hc.scopes id old hold).symm.trans haround)
    exact ⟨hmem, hold⟩
  refine ⟨hn', Nat.lt_of_lt_of_le h.lt_size hc.scopes.size_le, fun id hmem around haround => ?_,
    fun id hmem around source haround hholds => ?_⟩
  · obtain ⟨hmem, haround⟩ := hsame id hmem around haround
    exact h.hidden id hmem around haround
  · obtain ⟨hmem, haround⟩ := hsame id hmem around haround
    have hhidden := h.hidden id hmem around haround
    -- The items that are shown are none of the nodes.
    have hshown : around.role.source? s'.sources = around.role.source? s.sources := by
      cases hr : around.role with
      | catalog | block => rfl
      | withItem item name =>
        rw [hr] at hhidden
        exact hc.item item hhidden
      | recursiveItem item name =>
        rw [hr] at hhidden
        exact hc.selfView item hhidden
    unfold Scope.Holds at hholds
    rw [hshown] at hholds
    obtain ⟨e, he, hcurrent, hapart⟩ := h.settled id hmem around source haround hholds
    rw [h.nested.ownBodies_eq hn' hc.scopes.widens h.lt_size]
    exact ⟨e, hc.sources source e he hapart.node, hcurrent.later hapart hlogs, hapart⟩

/-- A scope is added. What it shows is settled, and it is in a body more, or in the same ones. -/
theorem newScope {parent : ScopeId} {role : ScopeRole} {node : Option NodeId}
    (h : Serves t own scopes sources events parent)
    (hnew : scopes.newScope parent role node = .ok (scope, scopes')) (hown : ∀ id, own' id → own id)
    (hrole : role.ShowsOnly fun item => ¬ own' item)
    (hshown : ∀ source, role.source? sources = some source →
      sources.Settled t own' (role.ownBody?.toList ++ scopes.ownBodies parent) events source) :
    Serves t own' scopes' sources events scope := by
  have hchain := h.nested.chain_newScope hnew
  obtain ⟨hid, around, haround, hget⟩ := ScopeTree.get?_newScope hnew
  have hsame : ∀ id ∈ scopes'.chain scope, ∀ other, scopes'.get? id = some other →
      (other.role = role ∧ other.bindings = []) ∨
        (id ∈ scopes.chain parent ∧ scopes.get? id = some other) := by
    intro id hmem other hother
    rw [hchain] at hmem
    rw [hget] at hother
    split at hother
    · cases hother
      exact .inl ⟨rfl, rfl⟩
    · rename_i hne
      exact .inr ⟨(List.mem_cons.mp hmem).resolve_left hne, hother⟩
  refine ⟨h.nested.newScope hnew, ?_, fun id hmem other hother => ?_,
    fun id hmem other source hother hholds => ?_⟩
  · rw [hid, ScopeTree.size_newScope hnew]
    exact Nat.lt_succ_self _
  · rcases hsame id hmem other hother with ⟨hr, -⟩ | ⟨hmem, hother⟩
    · rwa [hr]
    · exact (h.hidden id hmem other hother).imp fun _ hnot ho => hnot (hown _ ho)
  · rw [h.nested.ownBodies_newScope hnew]
    rcases hsame id hmem other hother with ⟨hr, hbindings⟩ | ⟨hmem, hother⟩
    · rcases hholds with hshows | ⟨b, hb, -⟩
      · exact hshown source (hr ▸ hshows)
      · rw [hbindings] at hb
        cases hb
    · obtain ⟨e, he, hcurrent, hapart⟩ := h.settled id hmem other source hother hholds
      exact ⟨e, he, hcurrent, hapart.mono hown (List.subset_append_right _ _)⟩

/-- A name is bound to something that is settled. -/
theorem addBinding {binding : Binding} (h : Serves t own scopes sources events scope)
    (hadd : scopes.addBinding id binding = .ok scopes')
    (hsource : sources.Settled t own (scopes.ownBodies scope) events binding.source) :
    Serves t own scopes' sources events scope := by
  have hn' := h.nested.addBinding hadd
  have hw : scopes.Widens scopes' := .addBinding hadd
  have hchain := h.nested.chain_eq hn' hw h.lt_size
  refine ⟨hn', Nat.lt_of_lt_of_le h.lt_size hw.size_le, fun other hmem around haround => ?_,
    fun other hmem around source haround hholds => ?_⟩
  · rw [hchain] at hmem
    obtain ⟨old, hold, -, hrole, -⟩ := ScopeTree.exists_of_get?_addBinding hadd haround
    exact hrole ▸ h.hidden other hmem old hold
  · rw [hchain] at hmem
    rw [h.nested.ownBodies_eq hn' hw h.lt_size]
    obtain ⟨old, hold, -, hrole, -, hbindings⟩ := ScopeTree.exists_of_get?_addBinding hadd haround
    rcases hholds with hshows | ⟨b, hb, rfl⟩
    · exact h.settled other hmem old source hold (.inl (hrole ▸ hshows))
    · rcases hbindings b hb with hb | rfl
      · exact h.settled other hmem old _ hold (.inr ⟨b, hb, rfl⟩)
      · exact hsource

end Journal.Serves

/-! ### Before the first event -/

/-- What no node introduces is a table of the catalog, and the view of an item from inside its body is
    one. -/
structure RowSources.Sorted (s : RowSources) : Prop where
  table : ∀ id e, s.get? id = some e → e.node = none → ∃ names, e.kind = .table names
  view : ∀ item id, s.selfViewOf? item = some id →
    ∃ e own, s.get? id = some e ∧ e.kind = .selfReference own

namespace RowSources.Sorted

variable {s s' : RowSources}

/-- A source is added that is a table or has a node. -/
theorem push (h : s.Sorted) {source : RowSource}
    (hsource : source.node = none → ∃ names, source.kind = .table names) : (s.push source).Sorted where
  table id e he hnode := by
    rw [get?_push] at he
    split at he
    · cases he
      exact hsource hnode
    · exact h.table id e he hnode
  view item id hid := by
    obtain ⟨e, own, he, hkind⟩ := h.view item id hid
    exact ⟨e, own, Grows.get?_push_of_some he _, hkind⟩

theorem register (h : s.Sorted) (node : NodeId) (kind : SourceKind) (enclosing : Option NodeId) :
    (s.register node kind enclosing).2.Sorted := by
  have hpush : (s.push ⟨some node, kind, .emptyRow, enclosing⟩).Sorted :=
    h.push fun hnone => by cases hnone
  exact ⟨hpush.table, hpush.view⟩

theorem registerTable (h : s.Sorted) (names : List String) (row : DataType) :
    (s.registerTable names row).2.Sorted := h.push fun _ => ⟨names, rfl⟩

theorem of_selfView (h : s.Sorted) {item : NodeId} {id : SourceId} (hview : s.selfView item = .ok (id, s')) :
    s'.Sorted := by
  rcases selfView_eq_ok hview with ⟨-, rfl⟩ | ⟨own, -, -, rfl, rfl⟩
  · exact h
  · have hpush :
        (s.push ⟨some item, .selfReference own, .emptyRow, (s.get? own).bind (·.enclosing)⟩).Sorted :=
      h.push fun hnone => by cases hnone
    refine ⟨hpush.table, fun other view hother => ?_⟩
    rw [selfViewOf?_addView] at hother
    split at hother
    · cases hother
      exact ⟨_, own, (get?_addView ..).trans (if_pos rfl), rfl⟩
    · exact hpush.view other view hother

theorem of_setRow (h : s.Sorted) {id : SourceId} {row : DataType} (hset : s.setRow id row = .ok s') :
    s'.Sorted := by
  have hgrows := Grows.of_setRow hset
  refine ⟨fun other e he hnode => ?_, fun item view hview => ?_⟩
  · rw [get?_setRow hset] at he
    split at he
    · obtain ⟨old, hold, rfl⟩ := Option.map_eq_some_iff.mp he
      exact h.table id old hold hnode
    · exact h.table other e he hnode
  · rw [selfViewOf?_of_setRow hset] at hview
    obtain ⟨e, own, he, hkind⟩ := h.view item view hview
    obtain ⟨e', he', -, hsame⟩ := hgrows.source view e he
    exact ⟨e', own, he', hsame.trans hkind⟩

end RowSources.Sorted

/-- An invariant may say something of row sources besides, which survives what validation does to them. -/
theorem Session.Upholds.and_sources {t₀ : Tree} {part : Nat → NodeId → Prop} {base : Nat}
    {G : Session → Prop} {K : RowSources → Prop} (h : Session.Upholds t₀ part base G)
    (hregister : ∀ s node kind enclosing, K s → K (s.register node kind enclosing).2)
    (hview : ∀ {s item id s'}, K s → s.selfView item = .ok (id, s') → K s')
    (hset : ∀ {s id row s'}, K s → s.setRow id row = .ok s' → K s') :
    Session.Upholds t₀ part base fun s => G s ∧ K s.sources where
  closed := h.closed
  lt_size := h.lt_size
  child := h.child
  below := h.below
  base_le hs := h.base_le hs.1
  view hs := h.view hs.1
  record type hs hsize hid := ⟨h.record type hs.1 hsize hid, hs.2⟩
  newScope hs hrole hnew := ⟨h.newScope hs.1 hrole hnew, hs.2⟩
  addBinding hs hbase hstands hadd := ⟨h.addBinding hs.1 hbase hstands hadd, hs.2⟩
  register kind enclosing hs hp := ⟨h.register kind enclosing hs.1 hp, hregister _ _ _ _ hs.2⟩
  selfView hs hp hrecursive hsome := ⟨h.selfView hs.1 hp hrecursive hsome, hview hs.2 hsome⟩
  setRow hs hp he hnode hsome := ⟨h.setRow hs.1 hp he hnode hsome, hset hs.2 hsome⟩
  selfReference reference hs := ⟨h.selfReference reference hs.1, hs.2⟩
  tree hs hp hrewrites hcast := ⟨h.tree hs.1 hp hrewrites hcast, hs.2⟩
  requests requests hs := ⟨h.requests requests hs.1, hs.2⟩

/-- Whatever has been asked for. -/
theorem Session.Reached.sorted {settings : Settings} {tree : Tree} {operators : OperatorTable}
    {engine : CoercionEngine} {s : Session}
    (h : Session.Reached { settings, tree, operators, engine } s) (hclosed : tree.NoDangling) :
    s.sources.Sorted := by
  induction h with
  | start => exact ⟨nofun, nofun⟩
  | request hreached hr ih =>
    have hs := hreached.grounded hclosed
    have hupholds := (Session.Linked.upholds hs.closed).and_sources (K := RowSources.Sorted)
      (fun _ node kind enclosing h => h.register node kind enclosing) (fun h => h.of_selfView)
      fun h => h.of_setRow
    rcases hs.perform_upholds hupholds ⟨hreached.linked hclosed, ih⟩ hr with ⟨names, row, id, hadd⟩ | hend
    · obtain ⟨scopes, -, heq⟩ := Session.addTable_eq_ok hadd
      rw [heq]
      exact ih.registerTable names row
    · exact hend.2

/-- The tables of the catalog are never replaced. -/
theorem Journal.Serves.root {t : Tree} {own : NodeId → Prop} {s : Session} (h : s.Grounded)
    (hsorted : s.sources.Sorted) (events : List Session.Event) :
    Serves t own s.scopes s.sources events ScopeTree.rootId := by
  obtain ⟨root, hroot, hrole, hparent, htables⟩ := h.root
  have hchain := ScopeTree.chain_of_root hroot hparent
  have honly : ∀ id ∈ s.scopes.chain ScopeTree.rootId, ∀ around, s.scopes.get? id = some around →
      around = root := by
    intro id hmem around haround
    rw [hchain] at hmem
    obtain rfl := List.mem_singleton.mp hmem
    exact Option.some.inj (haround.symm.trans hroot)
  refine ⟨h.nested, h.root_lt, fun id hmem around haround => ?_,
    fun id hmem around source haround hholds => ?_⟩
  · obtain rfl := honly id hmem around haround
    rw [hrole]
    trivial
  · obtain rfl := honly id hmem around haround
    rcases hholds with hshows | ⟨b, hb, rfl⟩
    · rw [hrole] at hshows
      cases hshows
    · obtain ⟨e, he, hnode⟩ := htables b hb
      obtain ⟨names, hkind⟩ := hsorted.table _ e he hnode
      refine ⟨e, he, ?_, ?_, ?_, ?_⟩
      · unfold RowSource.IsCurrent
        rw [hkind]
        trivial
      · intro id hid
        cases hnode.symm.trans hid
      · intro id item hitem
        cases hkind.symm.trans hitem
      · intro id item hitem
        cases hkind.symm.trans hitem

end SqlTyping
