import SqlTyping.Proofs.Session.Recency
import SqlTyping.Proofs.Session.SelectCoherence
import SqlTyping.Proofs.Tree.Pruning

namespace SqlTyping

/-!
# Queries keep row types current

While a query is validated, whatever its parts bind or search is current:

* `Journal.Goes` — validation goes on with given nodes, and everything that it notes is current;
* `Journal.Keeps` — this is so of the visits to the parts of a query, and what a query has come to is noted
  last;
* `Journal.runs_bindSources` — all entries of a FROM list are bound to what is current;
* `Journal.runs_recursiveRow` — inside its body a recursive item shows the row type of its first input;
* `Journal.runs_withRow` — each WITH item shows the row type of its query to what follows;
* `Journal.runs_queryStep` — so a query keeps row types current.
-/

/-- Since `s` only the nodes `own` have been validated. -/
def Session.Upkeep (b : Session) (own : NodeId → Prop) (s s' : Session) : Prop :=
  b.Confined own own s s' ∧ s'.sources.Sorted

theorem Session.Upkeep.upholds {b s : Session} {own : NodeId → Prop} (hclosed : b.tree.NoDangling)
    (hown : b.tree.IsClosed own) :
    Session.Upholds b.tree (fun _ => own) s.scopes.size (b.Upkeep own s) :=
  (Session.Confined.upholds hclosed hown.lt_size hown.child).and_sources
    (fun _ node kind enclosing h => h.register node kind enclosing) (fun h => h.of_selfView)
    fun h => h.of_setRow

namespace Journal

open Checking

/-- Validation of the nodes `own` since `s` goes on from `j` to `j'`, inside the bodies `inside`, and
    everything is current. -/
def Goes (b : Session) (own : NodeId → Prop) (inside : List NodeId) (s : Session) (j j' : Journal) : Prop :=
  Session.Goes b.tree (b.Upkeep own s) j.session j'.session ∧ Logs b.tree own inside j.events j'.events

/-- The statement of `b` is under validation. -/
structure Underway (b s : Session) : Prop where
  continues : b.Continues s
  owned : s.sources.Owned
  sorted : s.sources.Sorted

/-- What can be seen from a scope is current, and apart from the nodes `own`. -/
abbrev ServesAt (t : Tree) (own : NodeId → Prop) (j : Journal) (scope : ScopeId) : Prop :=
  Serves t own j.session.scopes j.session.sources j.events scope

/-- The recursive WITH items inside whose bodies a scope is. -/
abbrev bodies (j : Journal) (scope : ScopeId) : List NodeId := j.session.scopes.ownBodies scope

/-- The nodes `own` below `root` can be validated from a scope. -/
structure Poised (b : Session) (root : NodeId) (own : NodeId → Prop) (j : Journal) (scope : ScopeId) :
    Prop where
  underway : Underway b j.session
  isClosed : b.tree.IsClosed own
  reach : ∀ id, own id → b.Reach root id
  serves : ServesAt b.tree own j scope

/-- The parts of a query are validated so that everything is current. What a query has come to is noted
    last. -/
structure Keeps (b : Session) (root : NodeId) (depth : Nat) (v : Visit.On Journal) : Prop where
  query : ∀ {scope a j}, Poised b root (b.Reach a) j scope →
    Runs (Goes b (b.Reach a) (j.bodies scope) j.session) (fun _ => True) j (v.query scope a)
      fun row j' => ∃ earlier, j'.events = earlier ++ [.validated a row (j.bodies scope)]
  expression : ∀ {scope id j own}, Poised b root own j scope →
    Tree.IsPart b.tree (fun _ => own) depth j.session.tree id →
      Runs (Goes b own (j.bodies scope) j.session) (fun _ => True) j (v.expression scope id)
        fun _ _ => True

section

variable {b s : Session} {root : NodeId} {own own' : NodeId → Prop} {inside inside' : List NodeId}
  {j j' : Journal} {scope : ScopeId} {α : Type}

/-! ### Validation that goes on -/

theorem course : Course (Goes b own inside s) where
  trans h h' := ⟨course_goes.trans h.1 h'.1, h.2.trans h'.2⟩
  stays h := ⟨course_goes.stays h.1, .refl _⟩

theorem Underway.goes (h : Underway b j.session) : Goes b own inside j.session j j :=
  ⟨⟨.refl h.continues.rewrites, .refl h.continues h.owned, h.sorted⟩, .refl _⟩

theorem Goes.confined (h : Goes b own inside s j j') : b.Confined own own s j'.session := h.1.2.1

theorem Goes.underway (h : Goes b own inside s j j') : Underway b j'.session :=
  ⟨h.confined.continues, h.confined.owned, h.1.2.2⟩

/-- Validation of some of the nodes. -/
theorem Goes.widen (hs : Goes b own inside s j j) (h : Goes b own' inside' j.session j j')
    (hown : ∀ id, own' id → own id) (hinside : inside ⊆ inside') : Goes b own inside s j j' :=
  ⟨⟨h.1.1, hs.confined.trans (h.confined.mono hown hown), h.1.2.2⟩, h.2.mono hown hinside⟩

/-- A scope stays in the same bodies. -/
theorem Goes.bodies_eq (h : Goes b own inside s j j') (hserves : ServesAt b.tree own' j scope)
    (hn : j'.session.scopes.Nested) : j'.bodies scope = j.bodies scope :=
  hserves.nested.ownBodies_eq hn h.1.1.widens hserves.lt_size

namespace Poised

theorem goes (h : Poised b root own j scope) : Goes b own (j.bodies scope) j.session j j :=
  h.underway.goes

/-- Each step of a validation of the nodes keeps to them. -/
theorem upholds (h : Poised b root own j scope) (hclosed : b.tree.NoDangling) :
    Session.Upholds b.tree (fun _ => own) j.session.scopes.size (b.Upkeep own j.session) :=
  Session.Upkeep.upholds hclosed h.isClosed

theorem mono (h : Poised b root own j scope) (hown : b.tree.IsClosed own')
    (hsub : ∀ id, own' id → own id) : Poised b root own' j scope :=
  ⟨h.underway, hown, fun id ho => h.reach id (hsub id ho), h.serves.mono hsub⟩

/-- After some of the nodes have been validated, the others can still be. -/
theorem later (h : Poised b root own j scope) (hgoes : Goes b own (j.bodies scope) j.session j j') :
    Poised b root own j' scope :=
  ⟨hgoes.underway, h.isClosed, h.reach, h.serves.later hgoes.confined hgoes.2⟩

/-- The scope is in the same bodies then. -/
theorem bodies_eq (h : Poised b root own j scope) (hgoes : Goes b own (j.bodies scope) j.session j j') :
    j'.bodies scope = j.bodies scope :=
  hgoes.bodies_eq h.serves (h.later hgoes).serves.nested

end Poised

/-- Validation of some of the nodes goes on with the others. -/
theorem runs_widen {x : Checking Journal α} {Q : α → Journal → Prop}
    (h : Runs (Goes b own' inside' j.session) (fun _ => True) j x Q) (hs : Goes b own inside s j j)
    (hown : ∀ id, own' id → own id) (hinside : inside ⊆ inside') :
    Runs (Goes b own inside s) (fun _ => True) j x fun a j' =>
      Q a j' ∧ Goes b own' inside' j.session j j' := by
  refine .of_outcomes (fun a j' hx => ?_) fun e j' hx => ?_
  · obtain ⟨hgoes, hq⟩ := h.of_ok hx
    exact ⟨hs.widen hgoes hown hinside, hq, hgoes⟩
  · exact ⟨hs.widen (h.of_error hx).1 hown hinside, trivial⟩

/-- A step that is not noted. -/
theorem runs_plain {x : Validation α} {Q : α → Session → Prop}
    (h : Runs (Session.Goes b.tree (b.Upkeep own s)) (fun _ => True) j.session x Q) :
    Runs (Goes b own inside s) (fun _ => True) j (plain x) fun a j' =>
      Q a j'.session ∧ j'.events = j.events ∧ x j.session = (.ok a, j'.session) := by
  unfold Runs plain focus
  cases hx : x j.session with
  | mk r s' =>
    cases r with
    | ok a => exact ⟨⟨(h.of_ok hx).1, .refl _⟩, (h.of_ok hx).2, rfl, rfl⟩
    | error e => exact ⟨⟨(h.of_error hx).1, .refl _⟩, trivial⟩

/-- A step that is noted before and after. -/
theorem runs_noting {moment : Moment} {x : Validation α} {Q : α → Session → Prop}
    (h : Runs (Session.Goes b.tree (b.Upkeep own s)) (fun _ => True) j.session x Q)
    (hbegun : Logs b.tree own inside j.events (j.events ++ moment.begun j.session))
    (hdone : ∀ a s', Session.Goes b.tree (b.Upkeep own s) j.session s' → x j.session = (.ok a, s') →
      Logs b.tree own inside (j.events ++ moment.begun j.session)
        (j.events ++ moment.begun j.session ++ moment.done j.session s')) :
    Runs (Goes b own inside s) (fun _ => True) j (Host.noting moment x) fun a j' =>
      x j.session = (.ok a, j'.session) ∧
        j'.events = j.events ++ moment.begun j.session ++ moment.done j.session j'.session := by
  unfold Runs
  cases hx : x j.session with
  | mk r s' =>
    cases r with
    | ok a =>
      have hgoes := (h.of_ok hx).1
      rw [noting_of_ok moment hx]
      exact ⟨⟨hgoes, hbegun.trans (hdone a s' hgoes hx)⟩, rfl, rfl⟩
    | error e =>
      rw [noting_of_error moment hx]
      exact ⟨⟨(h.of_error hx).1, hbegun⟩, trivial⟩

theorem plain_node {id : NodeId} {n : Node} (hn : j.session.tree.node? id = some n) :
    plain (Validation.node id) j = (.ok n, j) := plain_of_ok (node_of_some hn)

/-- A node of the statement is read. -/
theorem runs_node {f : Node → Checking Journal α} {Q : α → Journal → Prop} {id : NodeId}
    (hs : Goes b own inside s j j) (hlt : id.index < b.tree.size)
    (hf : ∀ n, j.session.tree.node? id = some n →
      Runs (Goes b own inside s) (fun _ => True) j (f n) Q) :
    Runs (Goes b own inside s) (fun _ => True) j (plain (Validation.node id) >>= f) Q := by
  have hsize := Nat.lt_of_lt_of_le hlt hs.1.1.rewrites.1.rewritten.size_le
  obtain ⟨n, hn⟩ := Option.isSome_iff_exists.mp (Tree.isSome_node?_iff.mpr hsize)
  exact .bind_ok (plain_node hn) (hf n hn)

/-- Columns are looked up from a scope. -/
theorem runs_searching {x : Validation α} {Q : α → Session → Prop}
    (h : Runs (Session.Goes b.tree (b.Upkeep own s)) (fun _ => True) j.session x Q)
    (hserves : ServesAt b.tree own' j scope) :
    Runs (Goes b own inside s) (fun _ => True) j (Host.noting (.search scope) x) fun _ _ => True := by
  refine (runs_noting h (.searched hserves.boundSources) fun a s' _ _ => ?_).imp fun _ _ _ _ => trivial
  rw [Moment.done, List.append_nil]
  exact .refl _

end

/-! ### FROM lists -/

section

variable {b s : Session} {own own' : NodeId → Prop} {inside : List NodeId} {j : Journal}
  {parent scope : ScopeId} {entry block : NodeId} {label : String} {row : DataType}

/-- What becomes of a query of a FROM list: it is a row source of its own, to which a name is bound. -/
theorem bindDerived_eq_ok {s s' : Session} {x : Unit}
    (h : bindDerived scope block entry label row s = (.ok x, s')) :
    ∃ sources scopes, (s.sources.register entry .query (some block)).2.setRow s.sources.nextId row =
        .ok sources ∧
      s.scopes.addBinding scope { names := [label], source := s.sources.nextId, nullable := false } =
        .ok scopes ∧
      s' = { s with sources, scopes, types := s.types.put entry row } := by
  unfold bindDerived at h
  obtain ⟨source, s₁, hregister, h⟩ := bind_eq_ok_iff.mp h
  cases hregister
  obtain ⟨_, s₂, hrow, h⟩ := bind_eq_ok_iff.mp h
  obtain ⟨sources, hset, rfl⟩ := Validation.setRow_eq_ok hrow
  obtain ⟨_, s₃, hrecord, h⟩ := bind_eq_ok_iff.mp h
  cases hrecord
  obtain ⟨scopes, hadd, rfl⟩ := Validation.bindName_eq_ok h
  exact ⟨sources, scopes, hset, hadd, rfl⟩

/-- A table of a FROM list that is bound has got the row type of what it stands for. -/
theorem bindTable_eq_ok {name : List String} {label : Option String} {s s' : Session} {x : Unit}
    (h : bindTable parent scope entry name label s = (.ok x, s')) :
    ∃ found exposed scopes,
      s.scopes.requireTable parent name s.settings.matching s.sources = .ok found ∧
        s.scopes.addBinding scope { names := [exposed], source := found.source, nullable := false } =
          .ok scopes ∧
        s' = { s with
          scopes, selfReferences := s.listing entry found.source
          types := (s.sources.row? found.source).elim s.types (s.types.put entry ·) } := by
  rcases bindTable_cases parent scope entry name label s with
    ⟨e, he⟩ | ⟨found, hfound, hremaining, ⟨-, -, e, he⟩ | ⟨exposed, _, hexposed, -⟩⟩
  · cases he.symm.trans h
  · rw [h] at he
    cases he
  · rw [bindTable_of_found hfound hremaining hexposed] at h
    obtain ⟨scopes, hadd, rfl⟩ := Validation.bindName_eq_ok h
    exact ⟨found, exposed, scopes, hfound, hadd, rfl⟩

variable (hclosed : b.tree.NoDangling) (hown : b.tree.IsClosed own) (hs : Goes b own inside s j j)
  (hentry : own entry) (hsub : ∀ id, own' id → own id)
  (hblock : ServesAt b.tree own' j scope) (hbodies : j.bodies scope = inside)
  (hbase : s.scopes.size ≤ scope.index)

include hclosed hown hs hentry hsub hblock hbodies hbase

omit hclosed hown hs hentry hbase in
/-- A table that has been bound is noted with something current, and names can be looked up in the block as
    before. -/
theorem serves_bindTable {name : List String} {label : Option String} {s' : Session}
    (hparent : ServesAt b.tree own j parent) (hinside : j.bodies parent = inside)
    (hgoes : Session.Goes b.tree (b.Upkeep own s) j.session s')
    (hok : bindTable parent scope entry name label j.session = (.ok (), s')) :
    Logs b.tree own' inside j.events
        (j.events ++ Moment.done j.session (.binding parent entry name) s') ∧
      ServesAt b.tree own' ⟨s', j.events⟩ scope ∧ s'.scopes.ownBodies scope = inside := by
  obtain ⟨found, exposed, scopes, hfound, hadd, heq⟩ := bindTable_eq_ok hok
  obtain ⟨e, he, hcurrent, hapart⟩ := hparent.requireTable hfound
  have hsource : j.session.tableSource? parent name = some e := by
    unfold Session.tableSource?
    rw [hfound]
    exact he
  have htype : s'.types.get? entry = some e.row := by
    have hrow : j.session.sources.row? found.source = some e.row := RowSources.row?_of_get? he
    rw [heq, hrow]
    exact (OrderedMap.get?_put _ _ _ _).trans (if_pos rfl)
  have hsame : j.session.scopes.ownBodies parent = j.session.scopes.ownBodies scope :=
    hinside.trans hbodies.symm
  have hserves : ServesAt b.tree own' ⟨s', j.events⟩ scope := by
    have hadded := hblock.addBinding hadd
      ⟨e, he, hcurrent, hapart.mono hsub (hsame ▸ List.Subset.refl _)⟩
    unfold ServesAt
    rw [heq]
    exact hadded
  have hj' : Goes b own inside s j ⟨s', j.events⟩ := ⟨hgoes, .refl _⟩
  refine ⟨?_, hserves, (hj'.bodies_eq hblock hserves.nested).trans hbodies⟩
  rw [Moment.done, hsource, htype]
  exact .bound entry hcurrent

/-- A table of a FROM list is bound to something current. -/
theorem runs_bindTable {name : List String} {label : Option String}
    (hn : b.tree.node? entry = some (.tableRef name label))
    (hparent : ServesAt b.tree own j parent)
    (hinside : j.bodies parent = inside) :
    Runs (Goes b own inside s) (fun _ => True) j
      (Host.noting (.binding parent entry name) (bindTable parent scope entry name label))
      fun _ j' => ServesAt b.tree own' j' scope := by
  have hup : Session.Upholds b.tree (fun _ => own) s.scopes.size (b.Upkeep own s) :=
    Session.Upkeep.upholds hclosed hown
  have hbinds := hup.runs_bindTable (d := 0) Session.allows_all hs.1 hentry hn hparent.lt_size hbase
    hblock.lt_size
  refine (runs_noting hbinds ?_ fun _ s' hgoes hok => ?_).imp ?_
  · rw [Moment.begun, List.append_nil]
    exact .refl _
  · rw [Moment.begun, List.append_nil]
    obtain ⟨hlogs, -⟩ := serves_bindTable hsub hblock hbodies hparent hinside hgoes hok
    exact hlogs.mono hsub (List.Subset.refl _)
  · rintro _ j' hj' ⟨hok, hevents⟩
    obtain ⟨hlogs, hserves, hbodies'⟩ :=
      serves_bindTable hsub hblock hbodies hparent hinside hj'.1 hok
    rw [Moment.begun, List.append_nil] at hevents
    unfold ServesAt
    rw [hevents]
    exact hserves.noted (hbodies' ▸ hlogs)

omit hsub hbodies in
/-- A query of a FROM list is bound as a row source of its own. -/
theorem runs_bindDerived {rest : NodeId → Prop} (hentry' : own' entry) (hrest : ∀ id, rest id → own' id)
    (hnot : ¬ rest entry) :
    Runs (Goes b own inside s) (fun _ => True) j (plain (bindDerived scope block entry label row))
      fun _ j' => ServesAt b.tree rest j' scope := by
  have hup : Session.Upholds b.tree (fun _ => own) s.scopes.size (b.Upkeep own s) :=
    Session.Upkeep.upholds hclosed hown
  refine (runs_plain (hup.runs_bindDerived (d := 0) hs.1 hentry hbase hblock.lt_size block label row)).imp ?_
  rintro _ j' - ⟨-, hevents, hok⟩
  obtain ⟨sources, scopes, hset, hadd, heq⟩ := bindDerived_eq_ok hok
  have hcontinues := hs.underway.continues
  have hfound : sources.get? j.session.sources.nextId = some ⟨some entry, .query, row, some block⟩ := by
    rw [RowSources.get?_setRow hset, if_pos rfl]
    exact congrArg (Option.map _) (RowSources.get?_register_self _ _ _ _)
  -- Until the name is bound, only the entry has been touched.
  have hc₁ : b.Confined own' own' j.session
      { j.session with sources := (j.session.sources.register entry .query (some block)).2 } :=
    .register hcontinues hs.underway.owned hentry' .query (some block)
  have hc₂ := hc₁.trans (.setRow hc₁.continues hc₁.owned hentry'
    (RowSources.get?_register_self _ _ _ _) rfl hset)
  have hc₃ := hc₂.trans (.record hc₂.continues hc₂.owned row
    (Nat.lt_of_lt_of_le (hown.lt_size _ hentry) hcontinues.rewrites.rewritten.size_le)
    fun a _ hw => by rwa [hw.eq_of_lt (hown.lt_size _ hentry)])
  have hserves := ((hblock.later hc₃ (.refl _)).mono hrest).addBinding hadd ⟨_, hfound, trivial, ?_⟩
  · unfold ServesAt
    rw [heq, hevents]
    exact hserves
  · refine ⟨fun id hid ho => ?_, nofun, nofun⟩
    cases hid
    exact hnot ho

end

/-! ### Parts -/

section

variable {b : Session} {root : NodeId} {depth : Nat} {v : Visit.On Journal} {own : NodeId → Prop}
  {j₀ j : Journal} {scope : ScopeId} {a id : NodeId} (hv : Keeps b root depth v) (hp : Poised b root own j₀ scope)
  (hgoes : Goes b own (j₀.bodies scope) j₀.session j₀ j)

include hv hp hgoes

/-- One of the nodes is visited, when some of the others have been. -/
theorem Keeps.runs_query (ha : own a) :
    Runs (Goes b own (j₀.bodies scope) j₀.session) (fun _ => True) j (v.query scope a) fun row j' =>
      (∃ earlier, j'.events = earlier ++ [.validated a row (j₀.bodies scope)]) ∧
        Goes b (b.Reach a) (j₀.bodies scope) j.session j j' := by
  have hsub : ∀ id, b.Reach a id → own id := fun id hid => hp.isClosed.of_reach ha hid
  have hrun := hv.query ((hp.later hgoes).mono (hp.isClosed.reach ha) hsub)
  rw [hp.bodies_eq hgoes] at hrun
  exact runs_widen hrun (course.stays hgoes) hsub (List.Subset.refl _)

/-- So is an expression among them. -/
theorem Keeps.runs_expression (hid : Tree.IsPart b.tree (fun _ => own) depth j.session.tree id) :
    Runs (Goes b own (j₀.bodies scope) j₀.session) (fun _ => True) j (v.expression scope id)
      fun _ _ => True := by
  have hrun := hv.expression (hp.later hgoes) hid
  rw [hp.bodies_eq hgoes] at hrun
  exact (runs_widen hrun (course.stays hgoes) (fun _ ho => ho) (List.Subset.refl _)).imp
    fun _ _ _ _ => trivial

end

section

variable {b : Session} {root : NodeId} (htree : b.tree.IsTreeAt root)
  (hroot : b.tree.IsClosed (b.Reach root)) {p c x : NodeId} {cs : List NodeId}

include htree hroot

/-- What is below one child of a node of a tree is not below the others. -/
theorem not_under (hp : b.Reach root p) (hchild : b.tree.Child p c) (hcs : ∀ d ∈ cs, b.tree.Child p d)
    (hnot : c ∉ cs) (hx : b.Reach c x) : ¬ b.Under cs x := by
  rintro ⟨d, hd, hdx⟩
  refine htree.siblings_apart hroot hp hchild (hcs d hd) ?_ hx hdx
  rintro rfl
  exact hnot hd

end

/-- Everything below some children of a node. -/
theorem isClosed_under {b : Session} {own : NodeId → Prop} {cs : List NodeId} (hown : b.tree.IsClosed own)
    (hcs : ∀ c ∈ cs, own c) : b.tree.IsClosed (b.Under cs) := by
  refine ⟨fun x hx => ?_, fun x d hx hd => ?_⟩
  · obtain ⟨c, hc, hcx⟩ := hx
    exact hown.lt_size x (hown.of_reach (hcs c hc) hcx)
  · obtain ⟨c, hc, hcx⟩ := hx
    exact ⟨c, hc, hcx.tail hd⟩

/-! ### SELECT -/

section

variable {b : Session} {root : NodeId} {depth : Nat} {v : Visit.On Journal} {j₀ j : Journal}
  {parent scope : ScopeId} {a entry : NodeId} {cs exprs entries : List NodeId} (hv : Keeps b root depth v)
  (hclosed : b.tree.NoDangling) (htree : b.tree.IsTreeAt root) (hroot : b.tree.IsClosed (b.Reach root))
  (hp : Poised b root (b.Reach a) j₀ parent)

include hv hclosed htree hroot hp

/-- An entry of a FROM list is bound to something current; the others are still to come. -/
theorem runs_bindSource (hgoes : Goes b (b.Reach a) (j₀.bodies parent) j₀.session j₀ j)
    (hchild : ∀ c ∈ entry :: cs, b.tree.Child a c) (hnot : entry ∉ cs)
    (hblock : ServesAt b.tree (b.Under (entry :: cs)) j scope)
    (hbodies : j.bodies scope = j₀.bodies parent)
    (hbase : j₀.session.scopes.size ≤ scope.index) :
    Runs (Goes b (b.Reach a) (j₀.bodies parent) j₀.session) (fun _ => True) j
      (bindSource v parent scope a entry) fun _ j' => ServesAt b.tree (b.Under cs) j' scope := by
  have hentry := hchild entry (List.mem_cons_self ..)
  have hcs : ∀ c ∈ cs, b.tree.Child a c := fun c hc => hchild c (List.mem_cons_of_mem _ hc)
  have hs := course.stays hgoes
  refine runs_node hs (hp.isClosed.lt_size entry (.single hentry)) fun n hn => ?_
  have hrest : ∀ id, b.Under cs id → b.Under (entry :: cs) id := fun id hid =>
    hid.mono fun c hc => List.mem_cons_of_mem _ hc
  have hreach : ∀ id, b.Under (entry :: cs) id → b.Reach a id := fun id hid =>
    Session.reach_of_under hchild hid
  cases n with
  | tableRef name label =>
    have hwritten := hs.1.1.rewrites.1.node?_of_isClause hn rfl
    exact runs_bindTable hclosed hp.isClosed hs (.single hentry)
      (fun id hid => hreach id (hrest id hid)) (hblock.mono hrest) hbodies hbase hwritten
      (hp.later hgoes).serves (hp.bodies_eq hgoes)
  | subqueryRef query label =>
    have hwritten := hs.1.1.rewrites.1.node?_of_isClause hn rfl
    have hquery : b.tree.Child entry query := ⟨_, hwritten, by simp [Node.children]⟩
    refine (hv.runs_query hp hgoes (.head hentry (.single hquery))).bind course ?_
    rintro row j₁ hj₁ ⟨-, hown⟩
    -- The query lies below the entry.
    have hwide : Goes b (b.Under (entry :: cs)) (j₀.bodies parent) j.session j j₁ :=
      hs.underway.goes.widen hown (fun id hid => ⟨entry, List.mem_cons_self .., .head hquery hid⟩)
        (List.Subset.refl _)
    rw [← hbodies] at hwide
    exact runs_bindDerived hclosed hp.isClosed (course.stays hj₁) (.single hentry)
      (hblock.later hwide.confined hwide.2) hbase ⟨entry, List.mem_cons_self .., .refl⟩ hrest
      (not_under htree hroot (hp.reach a .refl) hentry hcs hnot .refl)
  | _ => exact .fail hs trivial

/-- All entries of a FROM list are bound. -/
theorem runs_bindSources (hgoes : Goes b (b.Reach a) (j₀.bodies parent) j₀.session j₀ j)
    (hchild : ∀ c ∈ exprs ++ entries, b.tree.Child a c) (hnodup : (exprs ++ entries).Nodup)
    (hblock : ServesAt b.tree (b.Under (exprs ++ entries)) j scope)
    (hbodies : j.bodies scope = j₀.bodies parent)
    (hbase : j₀.session.scopes.size ≤ scope.index) :
    Runs (Goes b (b.Reach a) (j₀.bodies parent) j₀.session) (fun _ => True) j
      (entries.forM (bindSource v parent scope a)) fun _ j' =>
        ServesAt b.tree (b.Under exprs) j' scope ∧ j'.bodies scope = j₀.bodies parent := by
  induction entries generalizing j with
  | nil =>
    rw [List.append_nil] at hblock
    exact .pure (course.stays hgoes) ⟨hblock, hbodies⟩
  | cons entry rest ih =>
    have hperm : (exprs ++ entry :: rest).Perm (entry :: (exprs ++ rest)) := List.perm_middle
    have hfirst := List.nodup_cons.mp (hperm.nodup_iff.mp hnodup)
    have hblock : ServesAt b.tree (b.Under (entry :: (exprs ++ rest))) j scope :=
      hblock.mono fun id hid => hid.mono fun c hc => hperm.mem_iff.mpr hc
    refine (runs_bindSource hv hclosed htree hroot hp hgoes
      (fun c hc => hchild c (hperm.mem_iff.mpr hc)) hfirst.1 hblock hbodies hbase).bind course ?_
    intro _ j₁ hj₁ hserves
    refine ih (course.trans hgoes hj₁) (fun c hc => ?_) hfirst.2 hserves ?_
    · exact hchild c (hperm.mem_iff.mpr (List.mem_cons_of_mem _ hc))
    · exact (hj₁.bodies_eq hblock hserves.nested).trans hbodies

end

section

variable {b : Session} {root : NodeId} {depth : Nat} {v : Visit.On Journal} {own : NodeId → Prop}
  {j₀ j : Journal} {scope : ScopeId} (hv : Keeps b root depth v) (hp : Poised b root own j₀ scope)

include hv hp

theorem runs_itemColumns (hgoes : Goes b own (j₀.bodies scope) j₀.session j₀ j) (columns : Columns)
    (place : Nat) {item : SelectItem} (hitem : ∀ c ∈ Node.itemChild item, own c) :
    Runs (Goes b own (j₀.bodies scope) j₀.session) (fun _ => True) j
      (itemColumns v scope columns place item) fun _ _ => True := by
  cases item with
  | star =>
    have hstate : Runs (Session.Goes b.tree (b.Upkeep own j₀.session)) (fun _ => True) j.session
        Checking.state fun _ _ => True := ⟨(course.stays hgoes).1, trivial⟩
    exact (runs_searching hstate (hp.later hgoes).serves).bind course fun _ j₁ hj₁ _ =>
      .pure (course.stays hj₁) trivial
  | expression c label =>
    have hc := hitem c (by simp [Node.itemChild])
    refine (hv.runs_expression hp hgoes (.inl ⟨c, hc, .self⟩)).bind course fun type j₁ hj₁ _ => ?_
    exact runs_node (course.stays hj₁) (hp.isClosed.lt_size c hc) fun n _ =>
      .pure (course.stays hj₁) trivial

theorem runs_selectColumns (hgoes : Goes b own (j₀.bodies scope) j₀.session j₀ j) (columns : Columns)
    (place : Nat) {items : List SelectItem} (hitems : ∀ c ∈ items.flatMap Node.itemChild, own c) :
    Runs (Goes b own (j₀.bodies scope) j₀.session) (fun _ => True) j
      (selectColumns v scope columns place items) fun _ _ => True := by
  induction items generalizing j columns place with
  | nil => exact .pure (course.stays hgoes) trivial
  | cons item rest ih =>
    rw [List.flatMap_cons] at hitems
    refine (runs_itemColumns hv hp hgoes columns place fun c hc =>
      hitems c (List.mem_append_left _ hc)).bind course fun columns j₁ hj₁ _ => ?_
    exact ih (course.trans hgoes hj₁) columns (place + 1) fun c hc =>
      hitems c (List.mem_append_right _ hc)

/-- After the FROM list, a SELECT searches what is current. -/
theorem runs_selectTail (block : SelectBlock)
    (hexprs : ∀ c ∈ block.items.flatMap Node.itemChild ++ block.condition.toList, own c) :
    Runs (Goes b own (j₀.bodies scope) j₀.session) (fun _ => True) j₀ (selectTail v scope block)
      fun _ _ => True := by
  have hcolumns : ∀ j, Goes b own (j₀.bodies scope) j₀.session j₀ j →
      Runs (Goes b own (j₀.bodies scope) j₀.session) (fun _ => True) j (do
        let columns ← selectColumns v scope [] 0 block.items
        Pure.pure (DataType.row columns) : Checking Journal DataType) fun _ _ => True := by
    intro j hgoes
    refine (runs_selectColumns hv hp hgoes [] 0 fun c hc =>
      hexprs c (List.mem_append_left _ hc)).bind course fun _ j' hj' _ => ?_
    exact .pure (course.stays hj') trivial
  unfold selectTail
  cases hcondition : block.condition with
  | none => exact hcolumns j₀ hp.goes
  | some condition =>
    have hc := hexprs condition (List.mem_append_right _ (by simp [hcondition]))
    exact (hv.runs_expression hp hp.goes (.inl ⟨_, hc, .self⟩)).bind course fun _ j hj _ => hcolumns j hj

end

section

variable {b : Session} {root : NodeId} {depth : Nat} {v : Visit.On Journal} {j₀ : Journal} {scope : ScopeId}
  {a : NodeId} (hv : Keeps b root depth v) (hclosed : b.tree.NoDangling) (htree : b.tree.IsTreeAt root)
  (hroot : b.tree.IsClosed (b.Reach root)) (hp : Poised b root (b.Reach a) j₀ scope)

include hv hclosed htree hroot hp

theorem runs_selectRow {block : SelectBlock} (hn : b.tree.node? a = some (.select block)) :
    Runs (Goes b (b.Reach a) (j₀.bodies scope) j₀.session) (fun _ => True) j₀ (selectRow v scope a block)
      fun _ _ => True := by
  have hup := hp.upholds hclosed
  obtain ⟨exprs, hexprs⟩ : ∃ exprs, exprs = block.items.flatMap Node.itemChild ++ block.condition.toList :=
    ⟨_, rfl⟩
  have hperm : (Node.select block).children.Perm (exprs ++ block.sources) := by
    rw [hexprs, Node.children, List.append_assoc, List.append_assoc]
    exact List.perm_append_comm.append_left _
  have hchild : ∀ c ∈ exprs ++ block.sources, b.tree.Child a c := fun c hc =>
    ⟨_, hn, hperm.mem_iff.mpr hc⟩
  have hnodup := hperm.nodup_iff.mp (htree.nodup a _ (hp.reach a .refl) hn)
  unfold selectRow
  refine (runs_plain (hup.runs_newScope hp.goes.1 hp.serves.lt_size .block trivial (some a))).bind course ?_
  rintro inner j₁ hj₁ ⟨⟨hnew, -⟩, hevents, hok⟩
  obtain ⟨scopes, hadd, heq⟩ := Validation.onScopes_eq_ok hok
  have hblock : ServesAt b.tree (b.Under (exprs ++ block.sources)) j₁ inner := by
    unfold ServesAt
    rw [heq, hevents]
    exact hp.serves.newScope hadd (fun _ hid => Session.reach_of_under hchild hid) trivial
      fun _ hsource => by cases hsource
  have hbodies : j₁.bodies inner = j₀.bodies scope := by
    unfold bodies
    rw [heq]
    exact hp.serves.nested.ownBodies_newScope hadd
  refine (runs_bindSources hv hclosed htree hroot hp hj₁ hchild hnodup hblock hbodies
    (Nat.le_of_eq hnew.symm)).bind course ?_
  rintro _ j₂ hj₂ ⟨hserves, hbodies₂⟩
  -- What is left are the expressions.
  have hsub : ∀ id, b.Under exprs id → b.Reach a id := fun id hid =>
    Session.reach_of_under (fun c hc => hchild c (List.mem_append_left _ hc)) hid
  have hp₂ : Poised b root (b.Under exprs) j₂ inner :=
    ⟨hj₂.underway, isClosed_under hp.isClosed fun c hc => hsub c (Session.under_of_reach hc .refl),
      fun id hid => hp.reach id (hsub id hid), hserves⟩
  have hrun := runs_selectTail hv hp₂ block fun c hc => Session.under_of_reach (hexprs ▸ hc) .refl
  rw [hbodies₂] at hrun
  exact (runs_widen hrun (course.stays hj₂) hsub (List.Subset.refl _)).imp fun _ _ _ _ => trivial

end

/-! ### WITH items -/

/-- The WITH item `id` has been registered as `source`, and its row type is not known yet. -/
structure Expects (s : Session) (id : NodeId) (source : SourceId) : Prop where
  own : s.sources.ofNode? id = some source
  entry : s.sources.get? source = some ⟨some id, .withItem, .emptyRow, none⟩

/-- It is not known when others have been validated either. -/
theorem Expects.confined {b s s' : Session} {own : NodeId → Prop} {id : NodeId} {source : SourceId}
    (h : Expects s id source) (hc : b.Confined own own s s') (hnot : ¬ own id) : Expects s' id source where
  own := (hc.item id hnot).trans h.own
  entry := hc.sources _ _ h.entry fun node hn => by
    cases hn
    exact hnot

section

variable {t : Tree} {own : NodeId → Prop} {inside : List NodeId} {events : List Session.Event}
  {sources : RowSources} {source : SourceId} {e : RowSource} {id : NodeId} {item : WithItem}
  {body : DataType} (he : sources.get? source = some e) (henode : e.node = some id)
  (hn : t.node? id = some (.withItem item)) (hnot : ¬ own id)
  (hrow : renamed (qualifiedName item.name) item.columns body = .ok e.row)

include he henode hn hnot hrow

/-- An item with the row type of its query, where neither is to be validated. -/
theorem settled_item (hkind : e.kind = .withItem) (hquery : ¬ own item.query)
    (hlatest : latest? events item.query (fun _ => true) = some body) :
    sources.Settled t own inside events source := by
  refine ⟨e, he, ?_, fun node hnode ho => ?_, fun node other _ hnode hother => ?_,
    fun node other hother => ?_⟩
  · unfold RowSource.IsCurrent
    rw [hkind]
    exact ⟨id, item, body, henode, hn, hlatest, hrow⟩
  · obtain rfl := Option.some.inj (henode.symm.trans hnode)
    exact hnot ho
  · obtain rfl := Option.some.inj (henode.symm.trans hnode)
    cases hn.symm.trans hother
    exact hquery
  · cases hkind.symm.trans hother

/-- A recursive item as its body sees it, with the row type of its first input, inside the body. -/
theorem settled_selfView {view : SourceId} {operation : SetOperation} (hkind : e.kind = .selfReference view)
    (hinside : id ∈ inside) (hoperation : t.node? item.query = some (.setOperation operation))
    (hlatest : latest? events operation.left id.isOutside = some body) :
    sources.Settled t own inside events source := by
  refine ⟨e, he, ?_, fun node hnode ho => ?_, fun node other hother => ?_, fun node other _ hnode => ?_⟩
  · unfold RowSource.IsCurrent
    rw [hkind]
    exact ⟨id, item, operation, body, henode, hn, hoperation, hlatest, hrow⟩
  · obtain rfl := Option.some.inj (henode.symm.trans hnode)
    exact hnot ho
  · cases hkind.symm.trans hother
  · obtain rfl := Option.some.inj (henode.symm.trans hnode)
    exact hinside

end

/-- What becomes of an item whose query has come to a row type. -/
theorem showItem_eq_ok {parent scope : ScopeId} {id : NodeId} {item : WithItem} {source : SourceId}
    {body : DataType} {s s' : Session} (h : showItem parent id item source body s = (.ok scope, s')) :
    ∃ row sources scopes, renamed (qualifiedName item.name) item.columns body = .ok row ∧
      s.sources.setRow source row = .ok sources ∧
        s.scopes.newWithItem parent id (qualifiedName item.name) = .ok (scope, scopes) ∧
          s' = { s with sources, scopes, types := s.types.put id row } := by
  unfold showItem at h
  obtain ⟨row, s₁, hrenamed, h⟩ := bind_eq_ok_iff.mp h
  obtain ⟨hrow, rfl⟩ : renamed (qualifiedName item.name) item.columns body = .ok row ∧ s = s₁ :=
    Prod.mk.inj hrenamed
  obtain ⟨_, s₂, hsetRow, h⟩ := bind_eq_ok_iff.mp h
  obtain ⟨sources, hset, rfl⟩ := Validation.setRow_eq_ok hsetRow
  obtain ⟨_, s₃, hrecord, h⟩ := bind_eq_ok_iff.mp h
  cases hrecord
  obtain ⟨scopes, hnew, rfl⟩ := Validation.onScopes_eq_ok h
  exact ⟨row, sources, scopes, hrow, hset, hnew, rfl⟩

section

variable {b : Session} {root : NodeId} {depth : Nat} {v : Visit.On Journal} {own own' : NodeId → Prop}
  {j₀ j : Journal} {parent : ScopeId} {id : NodeId} {item : WithItem} {source : SourceId}
  (hv : Keeps b root depth v) (hclosed : b.tree.NoDangling) (hp : Poised b root own j₀ parent)
  (hgoes : Goes b own (j₀.bodies parent) j₀.session j₀ j) (hid : own id)
  (hn : b.tree.node? id = some (.withItem item)) (hexpects : Expects j.session id source)

include hp hgoes hexpects

include hclosed hid hn in
/-- The row type that a recursive item is seen with inside its body is that of its first input. -/
theorem runs_setAnchor {view : SourceId} {e : RowSource} {own₁ : SourceId} {operation : SetOperation}
    {anchor row : DataType} {earlier : List Session.Event}
    (hself : j.session.sources.selfViewOf? id = some view) (he : j.session.sources.get? view = some e)
    (henode : e.node = some id) (hkind : e.kind = .selfReference own₁)
    (hoperation : b.tree.node? item.query = some (.setOperation operation))
    (hnot : ¬ b.Reach item.query id)
    (hevents : j.events = earlier ++ [.validated operation.left anchor (j₀.bodies parent)])
    (hrow : renamed (qualifiedName item.name) item.columns anchor = .ok row) :
    Runs (Goes b own (j₀.bodies parent) j₀.session) (fun _ => True) j (plain (Validation.setRow view row))
      fun _ j' => Expects j'.session id source ∧ j'.session.sources.selfViewOf? id = some view ∧
        j'.session.sources.Settled b.tree (b.Reach item.query) (id :: j₀.bodies parent) j'.events view := by
  have hup := hp.upholds hclosed
  refine (runs_plain (hup.runs_setRow (d := 0) (course.stays hgoes).1 hid ⟨e, he, henode⟩
    row)).imp ?_
  rintro _ j' - ⟨-, hsame, hok⟩
  obtain ⟨sources, hset, heq⟩ := Validation.setRow_eq_ok hok
  obtain ⟨-, he', hkept⟩ := hgoes.underway.continues.setRow hgoes.underway.owned he henode hset
  have hlatest : latest? j'.events operation.left id.isOutside = some anchor := by
    rw [hsame, hevents]
    refine latest?_concat ?_
    simpa [NodeId.isOutside] using hp.serves.not_mem_ownBodies hid
  rw [heq]
  refine ⟨⟨?_, (hkept source ?_).trans hexpects.entry⟩, ?_,
    settled_selfView he' henode hn hnot hrow hkind (List.mem_cons_self ..) hoperation hlatest⟩
  · rw [RowSources.ofNode?_of_setRow hset]
    exact hexpects.own
  · rintro rfl
    obtain rfl := Option.some.inj (he.symm.trans hexpects.entry)
    cases hkind
  · rw [RowSources.selfViewOf?_of_setRow hset]
    exact hself

include hv

include hclosed in
/-- The whole body of a recursive item is validated from a scope that shows the item as it is seen there. -/
theorem runs_ownBody {view : SourceId} {name : String} (hquery : own item.query)
    (hnot : ¬ b.Reach item.query id) (hself : j.session.sources.selfViewOf? id = some view)
    (hsettled : j.session.sources.Settled b.tree (b.Reach item.query) (id :: j₀.bodies parent) j.events
      view) : Runs (Goes b own (j₀.bodies parent) j₀.session) (fun _ => True) j (do
        let scope ← plain (Validation.onScopes (·.newRecursiveItem parent id name))
        v.query scope item.query) fun body j' => Expects j'.session id source ∧
          ∃ earlier around, j'.events = earlier ++ [.validated item.query body around] := by
  have hup := hp.upholds hclosed
  have hp' := hp.later hgoes
  have hparent : j.session.scopes.ownBodies parent = j₀.session.scopes.ownBodies parent :=
    hp.bodies_eq hgoes
  refine (runs_plain (hup.runs_newScope (course.stays hgoes).1 hp'.serves.lt_size (.recursiveItem id name)
    (Option.isSome_iff_exists.mpr ⟨view, hself⟩) (some id))).bind course ?_
  rintro scope j₁ hj₁ ⟨-, hevents, hok⟩
  obtain ⟨scopes, hnew, heq⟩ := Validation.onScopes_eq_ok hok
  have hbelow : ∀ x, b.Reach item.query x → own x := fun x hx => hp.isClosed.of_reach hquery hx
  have hserves : ServesAt b.tree (b.Reach item.query) j₁ scope := by
    have hserves := hp'.serves.newScope hnew hbelow hnot fun other hother => by
      obtain rfl := Option.some.inj (hself.symm.trans hother)
      rw [hparent]
      exact hsettled
    unfold ServesAt
    rw [heq, hevents]
    exact hserves
  have hbodies : j₁.bodies scope = id :: j₀.bodies parent := by
    unfold bodies
    rw [heq, ← hparent]
    exact hp'.serves.nested.ownBodies_newScope hnew
  have hrun := hv.query ⟨hj₁.underway, hp.isClosed.reach hquery, fun x hx => hp.reach x (hbelow x hx),
    hserves⟩
  rw [hbodies] at hrun
  refine (runs_widen hrun (course.stays hj₁) hbelow (List.subset_cons_self _ _)).imp ?_
  rintro body j₂ - ⟨⟨earlier, hlast⟩, hown⟩
  have hexpects₁ : Expects j₁.session id source := by
    rw [heq]
    exact ⟨hexpects.own, hexpects.entry⟩
  exact ⟨hexpects₁.confined hown.confined hnot, earlier, _, hlast⟩

include hclosed hid hn in
/-- A recursive item: the first input, and then the whole body. -/
theorem runs_recursiveRow (hrecursive : item.recursive = true) (hnot : ¬ b.Reach item.query id) :
    Runs (Goes b own (j₀.bodies parent) j₀.session) (fun _ => True) j
      (recursiveRow v parent id (qualifiedName item.name) item) fun body j' =>
        Expects j'.session id source ∧
          ∃ earlier around, j'.events = earlier ++ [.validated item.query body around] := by
  have hup := hp.upholds hclosed
  have hquery : own item.query := hp.isClosed.child id _ hid ⟨_, hn, by simp [Node.children]⟩
  refine runs_node (course.stays hgoes) (hp.isClosed.lt_size _ hquery) fun node hnode => ?_
  cases node with
  | setOperation operation =>
    have hwritten := hgoes.1.1.rewrites.1.node?_of_isClause hnode rfl
    have hleft : b.tree.Child item.query operation.left := ⟨_, hwritten, by simp [Node.children]⟩
    have hnotLeft : ¬ b.Reach operation.left id := fun hr => hnot (.head hleft hr)
    refine (runs_plain (hup.runs_selfView (d := 0) (course.stays hgoes).1 hid ⟨item, hn, hrecursive⟩
      (by rw [hexpects.own]; rfl))).bind course ?_
    rintro view j₁ hj₁ ⟨-, -, hok⟩
    obtain ⟨sources, hview, heq⟩ := Validation.selfView_eq_ok hok
    obtain ⟨-, hself, ⟨e, he, henode⟩, hitem, hkept, -⟩ :=
      hgoes.underway.continues.selfView hgoes.underway.owned hview
    have hsources : j₁.session.sources = sources := by rw [heq]
    rw [← hsources] at hself he hitem hkept
    obtain ⟨own₁, hkind⟩ : ∃ own, e.kind = .selfReference own := by
      obtain ⟨e', own₁, he', hkind⟩ := hj₁.underway.sorted.view id view hself
      obtain rfl := Option.some.inj (he.symm.trans he')
      exact ⟨own₁, hkind⟩
    have hexpects₁ : Expects j₁.session id source :=
      ⟨(hitem id).trans hexpects.own, hkept _ _ hexpects.entry⟩
    -- The first input leaves the row sources of the item.
    refine (hv.runs_query hp (course.trans hgoes hj₁) (hp.isClosed.child _ _ hquery hleft)).bind course ?_
    rintro anchor j₂ hj₂ ⟨⟨earlier, hevents⟩, hown⟩
    have he₂ : j₂.session.sources.get? view = some e := by
      refine hown.confined.sources view e he fun node hn => ?_
      obtain rfl := Option.some.inj (henode.symm.trans hn)
      exact hnotLeft
    refine Runs.bind course (Q := fun row t => t = j₂ ∧
      renamed (qualifiedName item.name) item.columns anchor = .ok row)
      (.ofExcept (course.stays hj₂) (fun row h => ⟨rfl, h⟩) fun _ _ => trivial) ?_
    rintro row _ - ⟨rfl, hrow⟩
    have hgoes₂ := course.trans hgoes (course.trans hj₁ hj₂)
    refine (runs_setAnchor hclosed hp hgoes₂ hid hn (hexpects₁.confined hown.confined hnotLeft)
      ((hown.confined.selfView id hnotLeft).trans hself) he₂ henode hkind hwritten hnot hevents
      hrow).bind course ?_
    rintro _ j₃ hj₃ ⟨hexpects₃, hself₃, hsettled⟩
    exact runs_ownBody hv hclosed hp (course.trans hgoes₂ hj₃) hexpects₃ hquery hnot hself₃ hsettled
  | _ => exact .fail (course.stays hgoes) trivial

end

section

variable {b : Session} {root : NodeId} {depth : Nat} {v : Visit.On Journal} {own own' : NodeId → Prop}
  {j₀ j : Journal} {parent scope : ScopeId} {a id body : NodeId} {items : List NodeId}

/-- An item whose query has just come to a row type is shown with it. -/
theorem runs_showItem {item : WithItem} {source : SourceId} {row : DataType} {around : List NodeId}
    {earlier : List Session.Event} (hclosed : b.tree.NoDangling) (hp : Poised b root own j₀ parent)
    (hgoes : Goes b own (j₀.bodies parent) j₀.session j₀ j) (hid : own id)
    (hn : b.tree.node? id = some (.withItem item)) (hexpects : Expects j.session id source)
    (hevents : j.events = earlier ++ [.validated item.query row around]) (hsub : ∀ x, own' x → own x)
    (hnot : ¬ own' id) (hquery : ¬ own' item.query) :
    Runs (Goes b own (j₀.bodies parent) j₀.session) (fun _ => True) j
      (plain (showItem parent id item source row)) fun scope j' =>
        ServesAt b.tree own' j' scope ∧ j'.bodies scope = j₀.bodies parent := by
  have hup := hp.upholds hclosed
  have hp' := hp.later hgoes
  refine (runs_plain (hup.runs_showItem (d := 0) Session.allows_all (course_goes.stays hgoes.1) hid
    ⟨_, hexpects.entry, rfl⟩ (by rw [hexpects.own]; rfl) hp'.serves.lt_size item row)).imp ?_
  rintro scope j' - ⟨-, hsame, hok⟩
  obtain ⟨shown, sources, scopes, hrow, hset, hnew, heq⟩ := showItem_eq_ok hok
  have hcontinues := hgoes.underway.continues
  have hlt := hp.isClosed.lt_size id hid
  have hc₁ : b.Confined own own j.session { j.session with sources } :=
    .setRow hcontinues hgoes.underway.owned hid hexpects.entry rfl hset
  have hc₂ := hc₁.trans (.record hc₁.continues hc₁.owned shown
    (Nat.lt_of_lt_of_le hlt hcontinues.rewrites.rewritten.size_le) fun x _ hw => by
      rwa [hw.eq_of_lt hlt])
  have hserves := hp'.serves.later hc₂ (.refl _)
  have hown : sources.ofNode? id = some source := by
    rw [RowSources.ofNode?_of_setRow hset]
    exact hexpects.own
  have hentry : sources.get? source = some ⟨some id, .withItem, shown, none⟩ := by
    rw [RowSources.get?_setRow hset, if_pos rfl, hexpects.entry]
    rfl
  have hlatest : latest? j'.events item.query (fun _ => true) = some row := by
    rw [hsame, hevents]
    exact latest?_concat rfl
  constructor
  · have hinner := hserves.newScope hnew hsub hnot fun other hother => by
      obtain rfl := Option.some.inj (hown.symm.trans hother)
      exact settled_item hentry rfl hn hnot hrow rfl hquery (hsame ▸ hlatest)
    unfold ServesAt
    rw [heq, hsame]
    exact hinner
  · unfold bodies
    rw [heq]
    exact (hserves.nested.ownBodies_newScope hnew).trans (hp.bodies_eq hgoes)

variable (hv : Keeps b root depth v) (hclosed : b.tree.NoDangling) (htree : b.tree.IsTreeAt root)

include hv hclosed htree

/-- An item is shown to what follows. -/
theorem runs_bindWithItem (hp : Poised b root own j₀ parent) (hid : own id) (hsub : ∀ x, own' x → own x)
    (hnot : ∀ x, b.Reach id x → ¬ own' x) :
    Runs (Goes b own (j₀.bodies parent) j₀.session) (fun _ => True) j₀ (bindWithItem v parent id)
      fun scope j' => ServesAt b.tree own' j' scope ∧ j'.bodies scope = j₀.bodies parent := by
  have hup := hp.upholds hclosed
  refine runs_node hp.goes (hp.isClosed.lt_size id hid) fun node hnode => ?_
  cases node with
  | withItem item =>
    have hn := hp.goes.1.1.rewrites.1.node?_of_isClause hnode rfl
    have hquery : b.tree.Child id item.query := ⟨_, hn, by simp [Node.children]⟩
    have hacyclic : ¬ b.Reach item.query id := fun hr =>
      htree.acyclic id (hp.reach id hid) (.head' hquery hr)
    refine (runs_plain (hup.runs_register (d := 0) hp.goes.1 hid .withItem none)).bind course ?_
    rintro source j₁ hj₁ ⟨-, -, hok⟩
    obtain ⟨hsource, hsession⟩ := Prod.mk.inj hok
    obtain rfl := Except.ok.inj hsource
    have hexpects : Expects j₁.session id j₀.session.sources.nextId := by
      rw [← hsession]
      exact ⟨(RowSources.ofNode?_register ..).trans (if_pos rfl), RowSources.get?_register_self _ _ _ _⟩
    have hshow : ∀ row j₂, Goes b own (j₀.bodies parent) j₀.session j₁ j₂ →
        (Expects j₂.session id j₀.session.sources.nextId ∧
          ∃ earlier around, j₂.events = earlier ++ [.validated item.query row around]) →
        Runs (Goes b own (j₀.bodies parent) j₀.session) (fun _ => True) j₂
          (plain (showItem parent id item j₀.session.sources.nextId row)) fun scope j' =>
            ServesAt b.tree own' j' scope ∧ j'.bodies scope = j₀.bodies parent := by
      rintro row j₂ hj₂ ⟨hexpects₂, earlier, around, hevents⟩
      exact runs_showItem hclosed hp (course.trans hj₁ hj₂) hid hn hexpects₂ hevents hsub
        (hnot id .refl) (hnot _ (.single hquery))
    refine .ite (fun hrecursive => ?_) fun _ => ?_
    · exact (runs_recursiveRow hv hclosed hp hj₁ hid hn hexpects hrecursive hacyclic).bind course hshow
    · refine (hv.runs_query hp hj₁ (hp.isClosed.child _ _ hid hquery)).bind course ?_
      rintro row j₂ hj₂ ⟨⟨earlier, hlast⟩, hown⟩
      exact hshow row j₂ hj₂ ⟨hexpects.confined hown.confined hacyclic, earlier, _, hlast⟩
  | _ => exact .fail hp.goes trivial

variable (hroot : b.tree.IsClosed (b.Reach root)) (ha : b.Reach root a)

include hroot ha

/-- Each item is shown to those behind it and to the body. -/
theorem runs_withRow (hp : Poised b root (b.Under (items ++ [body])) j₀ scope)
    (hchild : ∀ c ∈ items ++ [body], b.tree.Child a c) (hnodup : (items ++ [body]).Nodup) :
    Runs (Goes b (b.Under (items ++ [body])) (j₀.bodies scope) j₀.session) (fun _ => True) j₀
      (withRow v scope body items) fun _ _ => True := by
  induction items generalizing j₀ scope with
  | nil =>
    exact (hv.runs_query hp hp.goes ⟨body, List.mem_singleton_self _, .refl⟩).imp fun _ _ _ _ => trivial
  | cons item rest ih =>
    have hfirst := List.nodup_cons.mp hnodup
    have hrest : ∀ c ∈ rest ++ [body], b.tree.Child a c := fun c hc =>
      hchild c (List.mem_cons_of_mem _ hc)
    have hsub : ∀ x, b.Under (rest ++ [body]) x → b.Under (item :: rest ++ [body]) x := fun x hx =>
      hx.mono fun c hc => List.mem_cons_of_mem _ hc
    refine (runs_bindWithItem hv hclosed htree hp ⟨item, List.mem_cons_self .., .refl⟩ hsub fun x hx =>
      not_under htree hroot ha (hchild item (List.mem_cons_self ..)) hrest hfirst.1 hx).bind course ?_
    rintro inner j₁ hj₁ ⟨hserves, hbodies⟩
    have hp₁ : Poised b root (b.Under (rest ++ [body])) j₁ inner :=
      ⟨hj₁.underway, isClosed_under hroot fun c hc => ha.tail (hrest c hc),
        fun x hx => hp.reach x (hsub x hx), hserves⟩
    have hrun := ih hp₁ hrest hfirst.2
    rw [hbodies] at hrun
    exact (runs_widen hrun (course.stays hj₁) hsub (List.Subset.refl _)).imp fun _ _ _ _ => trivial

omit ha

/-! ### Queries -/

/-- A query keeps row types current, and is noted last. -/
theorem runs_queryStep (hp : Poised b root (b.Reach a) j₀ scope) :
    Runs (Goes b (b.Reach a) (j₀.bodies scope) j₀.session) (fun _ => True) j₀ (queryStep v scope a)
      fun row j' => ∃ earlier, j'.events = earlier ++ [.validated a row (j₀.bodies scope)] := by
  have ha := hp.reach a .refl
  have hup := hp.upholds hclosed
  refine runs_node hp.goes (hp.isClosed.lt_size a .refl) fun n hn =>
    Runs.bind course (Q := fun _ _ => True) ?_ ?_
  · cases n with
    | select block =>
      exact runs_selectRow hv hclosed htree hroot hp (hp.goes.1.1.rewrites.1.node?_of_isClause hn rfl)
    | setOperation operation =>
      have hwritten := hp.goes.1.1.rewrites.1.node?_of_isClause hn rfl
      have hleft : b.Reach a operation.left := .single ⟨_, hwritten, by simp [Node.children]⟩
      have hright : b.Reach a operation.right := .single ⟨_, hwritten, by simp [Node.children]⟩
      refine (hv.runs_query hp hp.goes hleft).bind course fun left j₁ hj₁ _ => ?_
      refine (hv.runs_query hp hj₁ hright).bind course fun right j₂ hj₂ _ => ?_
      exact .ofExcept (course.stays hj₂) (fun _ _ => trivial) fun _ _ => trivial
    | withQuery items body =>
      have hwritten := hp.goes.1.1.rewrites.1.node?_of_isClause hn rfl
      have hchild : ∀ c ∈ items ++ [body], b.tree.Child a c := fun c hc => ⟨_, hwritten, hc⟩
      have hsub : ∀ x, b.Under (items ++ [body]) x → b.Reach a x := fun x hx =>
        Session.reach_of_under hchild hx
      have hrun := runs_withRow hv hclosed htree hroot ha
        (hp.mono (isClosed_under hp.isClosed fun c hc => .single (hchild c hc)) hsub) hchild
        (htree.nodup a _ ha hwritten)
      exact (runs_widen hrun hp.goes hsub (List.Subset.refl _)).imp fun _ _ _ _ => trivial
    | _ => exact .fail hp.goes trivial
  · intro row j₁ hj₁ _
    have hbodies : ∀ s', Session.Goes b.tree (b.Upkeep (b.Reach a) j₀.session) j₁.session s' →
        s'.scopes.ownBodies scope = j₀.bodies scope := fun s' hgoes =>
      have hlater : Goes b (b.Reach a) (j₀.bodies scope) j₀.session j₁ ⟨s', j₁.events⟩ := ⟨hgoes, .refl _⟩
      hp.bodies_eq (course.trans hj₁ hlater)
    refine (runs_noting (hup.runs_recordPart (d := 0) (course.stays hj₁).1 (show b.Reach a a from .refl)
      row) ?_ fun _ s' hgoes _ => ?_).bind course ?_
    · rw [Moment.begun, List.append_nil]
      exact .refl _
    · rw [Moment.done, hbodies s' hgoes]
      exact .validated .refl row (List.Subset.refl _)
    · rintro _ j₂ hj₂ ⟨-, hevents⟩
      rw [Moment.done, hbodies j₂.session hj₂.1] at hevents
      exact .pure (course.stays hj₂) ⟨_, hevents⟩

end

end Journal

end SqlTyping
