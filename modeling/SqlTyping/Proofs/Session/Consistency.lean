import Mathlib.Tactic.Choose
import SqlTyping.Proofs.Session.Fresh
import SqlTyping.Proofs.Session.QueryCoherence

namespace SqlTyping

/-!
# Types of accepted statements

The types that are recorded when a query has been accepted are complete and fit together, casts that have
been inserted included, whatever engine and operators are in use:

* `visitAt_coheres` — validation to any depth leaves coherent types;
* `Session.IsFresh.poised` — a session that nothing has been validated in can begin;
* `Session.IsFresh.coherentFrom` — all nodes that validation gets to from an accepted query are coherent;
* `accepted_types_cohere` — so each has a type that follows from those directly below it.
-/

open Checking

section

variable {b : Session}

/-- Validation to any depth leaves coherent types. -/
theorem visitAt_coheres (hforest : b.tree.IsForest) (depth : Nat) : (visitAt depth).Coheres b := by
  have hclosed := hforest.closed
  -- Nothing else is touched, whatever the outcome.
  have hreach : ∀ {a : NodeId}, a.index < b.tree.size → ∀ x, b.Reach a x → x.index < b.tree.size :=
    fun ha _ hx => hforest.lt_size_of_reach ha hx
  have hchild : ∀ {a : NodeId} x c, b.Reach a x → b.tree.Child x c → b.Reach a c :=
    fun _ _ hx hc => hx.tail hc
  induction depth with
  | zero =>
    refine ⟨fun hs ha => ?_, fun _ _ hok => ?_, fun _ _ _ hok => ?_, fun hs ha hw => ?_,
      fun _ _ _ hok => ?_, fun _ _ _ herror => ?_, fun hs howned _ _ => .refl hs howned⟩
    · exact confined_query hclosed (hreach ha) hchild hs.continues hs.owned .refl hs.overlooks.lt_size
    · cases hok
    · cases hok
    · exact confined_expression hclosed (hreach ha) hchild hs.continues hs.owned .refl hw
        hs.overlooks.lt_size
    · cases hok
    · cases herror
      rfl
  | succ depth ih =>
    refine ⟨fun hs ha => ?_, fun hs ha hok => ?_, fun hs ha hop hok => ?_, fun hs ha hw => ?_,
      fun hs ha hw hok => ih.expressionStep hforest hs ha hw hok,
      fun hs ha hw herror => ih.refused_expressionStep hforest hs ha hw herror,
      fun {scope id s} hs howned hnew hn => ?_⟩
    · exact confined_query hclosed (hreach ha) hchild hs.continues hs.owned .refl hs.overlooks.lt_size
    · obtain ⟨hcoherent, hrecorded, houtlines, -⟩ := ih.queryStep hforest hs ha hok
      exact ⟨hcoherent, hrecorded, houtlines⟩
    · obtain ⟨-, -, -, hleft⟩ := ih.queryStep hforest hs ha hok
      exact hleft _ hop
    · exact confined_expression hclosed (hreach ha) hchild hs.continues hs.owned .refl hw
        hs.overlooks.lt_size
    -- A placeholder is below no node of the statement.
    · have hupholds := Session.Confined.upholds (b := b) (s := s) (P := fun _ => False) hclosed
        (fun _ h => h.elim) fun _ _ h _ => h.elim
      have hrun : Runs _ (fun _ => True) s (expressionStep (visitAt depth) scope id) fun _ _ => True :=
        hupholds.runs_placeholder ⟨.refl hs.rewrites, .refl hs howned⟩ hnew hn
      exact hrun.rel.2

end

namespace Session

variable {s s' : Session} {query : NodeId} {row : DataType}

/-- Before the first validation no row source belongs to a node. -/
theorem IsFresh.node_eq_none (h : s.IsFresh) {id : SourceId} {e : RowSource}
    (he : s.sources.get? id = some e) : e.node = none := by
  induction h with
  | start =>
    obtain ⟨hlt, -⟩ := Array.getElem?_eq_some_iff.mp he
    exact absurd hlt (Nat.not_lt_zero _)
  | @addTable s s' names row _ _ hadd ih =>
    have hsources : s'.sources = (s.sources.registerTable names row).2 := by
      unfold Session.addTable at hadd
      cases hbound : s.scopes.addBinding ScopeTree.rootId
          { names, source := (s.sources.registerTable names row).1, nullable := false } with
      | error e =>
        simp only [hbound] at hadd
        cases hadd
      | ok scopes =>
        simp only [hbound] at hadd
        cases hadd
        rfl
    rw [hsources] at he
    have hpush := RowSources.get?_push s.sources
      { node := none, kind := .table names, row, enclosing := none } id
    rw [show s.sources.push _ = (s.sources.registerTable names row).2 from rfl, he] at hpush
    split at hpush
    · cases hpush
      rfl
    · exact ih hpush.symm

/-- A validation can begin in a session that nothing has been validated in: the catalog is in sight. -/
theorem IsFresh.poised (h : s.IsFresh) (hclosed : s.tree.NoDangling) :
    ∃ tables, s.Poised (fun _ => True) s ScopeTree.rootId [.catalog tables] := by
  have hcatalog := h.hasCatalogOnly
  have hsource : ∀ x ∈ s.tables, ∃ columns : Outline, ∃ e, s.sources.get? x.source = some e ∧
      e.row.outline = columns ∧ ∀ node, e.node = some node → ¬ True := by
    intro x hx
    obtain ⟨e, he, -⟩ := hcatalog.source x hx
    refine ⟨_, e, he, rfl, fun node hn => ?_⟩
    rw [h.node_eq_none he] at hn
    cases hn
  choose! columns hcolumns using hsource
  refine ⟨s.tables.map fun x => ⟨x.names, x.nullable, columns x⟩, ?_, ⟨fun node id hid => ?_,
    fun node id hid => ?_⟩, .root hcatalog.get?_root rfl (.catalog rfl ?_)⟩
  · refine .refl hclosed fun id hid => ?_
    rw [hcatalog.types] at hid
    cases hid
  · have hid : s.sources.byNode.get? node = some id := hid
    rw [hcatalog.byNode] at hid
    cases hid
  · have hid : s.sources.selfViews.get? node = some id := hid
    rw [hcatalog.selfViews] at hid
    cases hid
  · rw [List.forall₂_map_right_iff, List.forall₂_same]
    exact fun x hx => ⟨rfl, rfl, hcolumns x hx⟩

/-- All nodes that validation gets to from an accepted query are coherent. -/
theorem IsFresh.coherentFrom (h : s.IsFresh) (hforest : s.tree.IsForest)
    (hok : validateQuery query s = (.ok row, s')) :
    s.Continues s' ∧ s.CoherentFrom s' query ∧ s'.types.get? query = some row := by
  have hquery := lt_size_of_validateQuery hok
  obtain ⟨tables, hp⟩ := h.poised hforest.closed
  have hv := visitAt_coheres hforest s.maxDepth
  have hp : s.Poised (s.Reach query) s ScopeTree.rootId [.catalog tables] := hp.mono fun _ _ => trivial
  have hok : (visitAt s.maxDepth).query ScopeTree.rootId query s = (.ok row, s') := hok
  have hc := hv.confinedQuery hp hquery
  rw [hok] at hc
  obtain ⟨hcoherent, hrecorded, -⟩ := hv.query hp hquery hok
  exact ⟨hc.continues, hcoherent, hrecorded⟩

end Session

/-- When a query has been accepted, every node that validation gets to from it in the rewritten statement,
    which leaves out operands that are keywords, has a type, and it follows from the types recorded for the
    nodes directly below. The query itself has the row type it was accepted with. -/
theorem accepted_types_cohere {s s' : Session} {query : NodeId} {row : DataType} (hfresh : s.IsFresh)
    (hforest : s.tree.IsForest) (hok : Session.validateQuery query s = (.ok row, s')) :
    s'.typeOf? query = some row ∧ ∀ x, s'.tree.Below s.operators query x →
      ∃ node type, s'.tree.node? x = some node ∧ s'.typeOf? x = some type ∧ s'.Coheres type node := by
  obtain ⟨-, hcoherent, hrecorded⟩ := hfresh.coherentFrom hforest hok
  refine ⟨hrecorded, fun x hx => ?_⟩
  obtain ⟨node, type, h⟩ := hcoherent x hx
  exact ⟨node, type, h.found, h.recorded, h.coheres⟩

/-- `SELECT UPPER(5)`: the cast that has been inserted has the type of its target, and is as nullable as the
    number. -/
theorem accepted_types_cohere_upper :
    let s : Session := { tree := ⟨#[⟨.literal (.integer 5), ⟨13, 14⟩⟩, ⟨.call "UPPER" [⟨0⟩], ⟨7, 15⟩⟩,
      ⟨.select { items := [.expression ⟨1⟩ none], sources := [], condition := none }, ⟨0, 15⟩⟩]⟩ }
    ∃ row s' target inner, s.IsFresh ∧ s.tree.IsForest ∧ Session.validateQuery ⟨2⟩ s = (.ok row, s') ∧
      s'.typeOf? ⟨2⟩ = some row ∧ s'.tree.node? ⟨3⟩ = some (.cast ⟨0⟩ target true) ∧
        s'.typeOf? ⟨0⟩ = some inner ∧ s'.typeOf? ⟨3⟩ = some (.ofTarget target inner.nullable) := by
  intro s
  have hfresh : s.IsFresh := .start _ _ _ _
  have hforest : s.tree.IsForest := .of_ordered (by decide) (by decide) (by decide)
  have hrow : (Session.validateQuery ⟨2⟩ s).1 = .ok (.row [("EXPR$0", .notNull .varchar)]) := by
    decide +kernel
  have hselect : (Session.validateQuery ⟨2⟩ s).2.tree.node? ⟨2⟩ =
      some (.select { items := [.expression ⟨1⟩ none], sources := [], condition := none }) := by
    decide +kernel
  have hcall : (Session.validateQuery ⟨2⟩ s).2.tree.node? ⟨1⟩ = some (.call "UPPER" [⟨3⟩]) := by
    decide +kernel
  have hcast : (Session.validateQuery ⟨2⟩ s).2.tree.node? ⟨3⟩ =
      some (.cast ⟨0⟩ ⟨.varchar, none, none⟩ true) := by
    decide +kernel
  cases hok : Session.validateQuery ⟨2⟩ s with
  | mk r s' =>
    rw [hok] at hrow hselect hcall hcast
    cases hrow
    obtain ⟨hquery, hall⟩ := accepted_types_cohere hfresh hforest hok
    have hbelow : s'.tree.Below s.operators ⟨2⟩ ⟨3⟩ :=
      .tail (.single ⟨_, hselect, by decide⟩) ⟨_, hcall, by decide +kernel⟩
    obtain ⟨node, type, hnode, htype, hcoheres⟩ := hall ⟨3⟩ hbelow
    obtain rfl := Option.some.inj (hcast.symm.trans hnode)
    obtain ⟨inner, hinner, rfl⟩ := hcoheres
    exact ⟨_, s', _, inner, hfresh, hforest, rfl, hquery, hcast, hinner, htype⟩

end SqlTyping
