import Mathlib.Tactic.Choose
import SqlTyping.Proofs.Session.Fresh
import SqlTyping.Proofs.Session.Rechecking
import SqlTyping.Proofs.Session.Results

namespace SqlTyping

/-!
# Validation leaves an explicit program

A query that has been accepted is accepted again as it has been rewritten, with the same row type and
without another conversion: in the same session, whose scopes and types are those of the first run, and
also, when no call has the NULL literal as an operand, in a fresh session in which operands must not be
converted (`validation_repeats`). The query must have no recursive WITH item: the first input of one is
validated in two places, and the second time its names may mean something else.

* `Session.settlesParts` — all parts of a statement are settled by validation to any depth;
* `Session.IsFresh.sees_root` — what can be seen before the first validation is the catalog.
-/

open Checking

namespace Session

variable {b s s' : Session}

/-- A call is typed when its operands are, and so is every other expression that is no cast. -/
theorem typesCore (hforest : b.tree.IsForest) (hfinite : b.operators.IsFinite)
    (hengine : b.engine = .implicitCasts) (hcoercion : b.settings.coercion = true) {depth : Nat}
    (hparts : b.SettlesParts depth) (htypes : b.TypesParts depth) (core : NodeId)
    (hcore : core.index < b.tree.size) : b.TypesCore depth core := by
  by_cases hcall : ∃ name written, b.tree.node? core = some (.call name written)
  · obtain ⟨name, written, hn⟩ := hcall
    cases hop : b.operators.lookup? name with
    | some op =>
      exact CallSite.typesCore hforest hfinite hengine htypes hcoercion ⟨core, name, written, op, hn, hop⟩
    -- A call of an operator that is not known has no type.
    | none =>
      intro view scope node s type s' hs hnode _ _ _ hok
      obtain ⟨operands, hcall, -⟩ := hs.rewrites.rewritten.call core name written hn
      obtain rfl := Option.some.inj (hcall.symm.trans hnode)
      have hok : callType (visitAt depth) scope core name operands s = (.ok type, s') := hok
      cases (callType_of_unknown (hs.operators ▸ hop)).symm.trans hok
  · exact hparts.typesCore hforest hcore fun name written hn => hcall ⟨name, written, hn⟩

/-- The parts of a statement are settled, and expressions typed, by validation to any depth. -/
theorem settlesParts (hforest : b.tree.IsForest) (hfinite : b.operators.IsFinite)
    (hengine : b.engine = .implicitCasts) (hcoercion : b.settings.coercion = true) (depth : Nat) :
    b.SettlesParts depth ∧ b.TypesParts depth := by
  induction depth with
  | zero =>
    -- Nothing is validated to depth zero.
    refine ⟨⟨fun view q _ _ _ => ?_, fun view e _ _ _ => ?_⟩, ?_⟩
    · rintro s scope type s' - - hok
      cases hok
    · rintro s scope type s' - - hok
      cases hok
    · rintro view a x scope s type s' - - - - - - hok
      cases hok
  | succ depth ih =>
    obtain ⟨hparts, htypes⟩ := ih
    have hnext : b.TypesParts (depth + 1) := typesParts_succ hforest hfinite hengine
      fun core hcore => typesCore hforest hfinite hengine hcoercion hparts htypes core hcore
    exact ⟨⟨fun view q hq hspares hplain => hparts.queryStep hforest hcoercion hq hspares hplain,
      fun view e he hspares hplain => hnext.settles hforest hfinite hengine he hspares hplain⟩, hnext⟩

/-- Before the first validation the catalog can be seen. -/
theorem IsFresh.sees_root (h : s.IsFresh) : ∃ tables, s.Sees ScopeTree.rootId [.catalog tables] := by
  have hcatalog := h.hasCatalogOnly
  -- Every table has a row source, and so a row type.
  have hsource : ∀ x ∈ s.tables, ∃ row, s.sources.row? x.source = some row := by
    intro x hx
    obtain ⟨e, he, -⟩ := hcatalog.source x hx
    exact ⟨e.row, RowSources.row?_of_get? he⟩
  choose! row hrow using hsource
  refine ⟨s.tables.map fun x => ⟨x.names, x.nullable, row x⟩,
    .root hcatalog.get?_root rfl (.catalog rfl ?_)⟩
  rw [List.forall₂_map_right_iff, List.forall₂_same]
  exact fun x hx => ⟨rfl, rfl, hrow x hx⟩

end Session

/-- A query without recursive WITH items that has been accepted is accepted again, with the same row
    type. In the same session nothing changes in the statement but for placeholders that are added; no
    call gets another operand, and no cast is added. In a fresh session the statement as it has been
    rewritten is accepted also when operands must not be converted, unless a call has the NULL literal
    as an operand. -/
theorem validation_repeats {s s' : Session} {query : NodeId} {row : DataType} (hfresh : s.IsFresh)
    (hforest : s.tree.IsForest) (hfinite : s.operators.IsFinite) (hengine : s.engine = .implicitCasts)
    (hcoercion : s.settings.coercion = true)
    (hplain : ∀ item w, Relation.ReflTransGen s.tree.Child query item →
      s.tree.node? item = some (.withItem w) → w.recursive = false)
    (hok : Session.validateQuery query s = (.ok row, s')) :
    (∃ s'', Session.validateQuery query s' = (.ok row, s'') ∧
      (∀ id node, s'.tree.node? id = some node → s''.tree.node? id = some node) ∧
      ∀ id node, s''.tree.node? id = some node →
        s'.tree.node? id = some node ∨ node = .default) ∧
    ((∀ call name operands, s'.tree.node? call = some (.call name operands) →
        ∀ o ∈ operands, s'.isNull o = false) →
      (Session.validateQuery query { s with
        tree := s'.tree, settings := { s.settings with coercion := false } }).1 = .ok row) := by
  obtain ⟨tables, hsees⟩ := hfresh.sees_root
  have htypes : s.types = {} := hfresh.hasCatalogOnly.types
  have hnone : ∀ id, s.types.get? id = none := by
    intro id
    rw [htypes]
    rfl
  have hs : s.Continues s := .refl hforest.closed fun id hid => by simp [hnone] at hid
  have hquery := lt_size_of_validateQuery hok
  -- The catalog has no WITH items.
  have hspares : ∀ own, View.Spares own [.catalog tables] := by
    rintro own level hmem item hitem
    cases List.mem_singleton.mp hmem
    cases hitem
  obtain ⟨hw, hleaves, hsettled⟩ :=
    (Session.settlesParts hforest hfinite hengine hcoercion s.maxDepth).1.query [.catalog tables]
      query hquery (hspares _) (fun item w hitem => hplain item w (Tree.Below.child hitem)) s
      ScopeTree.rootId row s' hs hsees hok
  have hgrown := hw.continues.rewrites.rewritten.size_le
  constructor
  · obtain ⟨s'', hrun, hreplays, -⟩ := hsettled s'.maxDepth ScopeTree.rootId s'
      (Nat.add_le_add_right hgrown 1) (hw.continues.revisits hcoercion) (.refl _ _)
      (hsees.leaves hleaves (hspares _))
    exact ⟨s'', hrun, hreplays.kept, hreplays.added⟩
  · intro hnulls
    let t : Session := { s with tree := s'.tree, settings := { s.settings with coercion := false } }
    have ht : s.Revisits t := by
      refine ⟨⟨⟨hw.continues.rewrites.rewritten, hw.continues.rewrites.closed⟩, rfl, rfl, rfl, ?_⟩,
        rfl, .inr hnulls⟩
      intro id hid
      have hid : (s.types.get? id).isSome = true := hid
      rw [hnone] at hid
      cases hid
    have hsees' : t.Sees ScopeTree.rootId [.catalog tables] :=
      hsees.of_same rfl rfl
    obtain ⟨t', hrun, -⟩ := hsettled t.maxDepth ScopeTree.rootId t (Nat.add_le_add_right hgrown 1) ht
      (.refl _ _) hsees'
    exact congrArg Prod.fst hrun

/-- `SELECT UPPER(5)`, in which the operand has been cast to a string: accepted again, and in the end
    without conversion. -/
theorem validation_repeats_upper :
    let s : Session := { tree := ⟨#[⟨.literal (.integer 5), ⟨13, 14⟩⟩, ⟨.call "UPPER" [⟨0⟩], ⟨7, 15⟩⟩,
      ⟨.select { items := [.expression ⟨1⟩ none], sources := [], condition := none }, ⟨0, 15⟩⟩]⟩ }
    ∃ row s' s'', s.IsFresh ∧ s.tree.IsForest ∧ Session.validateQuery ⟨2⟩ s = (.ok row, s') ∧
      s'.tree.node? ⟨1⟩ = some (.call "UPPER" [⟨3⟩]) ∧
      Session.validateQuery ⟨2⟩ s' = (.ok row, s'') ∧
      s''.tree.node? ⟨1⟩ = some (.call "UPPER" [⟨3⟩]) ∧
      (Session.validateQuery ⟨2⟩ { s with
        tree := s'.tree, settings := { s.settings with coercion := false } }).1 = .ok row := by
  intro s
  have hfresh : s.IsFresh := .start _ _ _ _
  have hforest : s.tree.IsForest := .of_ordered (by decide) (by decide) (by decide)
  have hplain : ∀ item w, s.tree.node? item ≠ some (.withItem w) := by
    intro item w hitem
    have hkind : ∀ e ∈ s.tree.entries.toList, e.node.kind ≠ "with item" := by decide
    obtain ⟨e, he, hnode⟩ := Option.map_eq_some_iff.mp hitem
    refine hkind e (Array.mem_toList_iff.mpr (Array.mem_of_getElem? he)) ?_
    rw [hnode]
    rfl
  have hrow : (Session.validateQuery ⟨2⟩ s).1 = .ok (.row [("EXPR$0", .notNull .varchar)]) := by
    decide +kernel
  have hcall : (Session.validateQuery ⟨2⟩ s).2.tree.node? ⟨1⟩ = some (.call "UPPER" [⟨3⟩]) := by
    decide +kernel
  have hnulls : ∀ e ∈ (Session.validateQuery ⟨2⟩ s).2.tree.entries.toList,
      ∀ o ∈ e.node.operands?.getD [], (Session.validateQuery ⟨2⟩ s).2.isNull o = false := by
    decide +kernel
  cases hok : Session.validateQuery ⟨2⟩ s with
  | mk r s' =>
    rw [hok] at hrow hcall hnulls
    cases hrow
    obtain ⟨⟨s'', hagain, hkept, -⟩, hoff⟩ := validation_repeats hfresh hforest
      OperatorTable.isFinite_standard rfl rfl (fun item w _ hitem => absurd hitem (hplain item w)) hok
    refine ⟨_, s', s'', hfresh, hforest, rfl, hcall, hagain, hkept _ _ hcall, hoff ?_⟩
    intro call name operands hnode o ho
    obtain ⟨e, he, hnode⟩ := Option.map_eq_some_iff.mp hnode
    refine hnulls e (Array.mem_toList_iff.mpr (Array.mem_of_getElem? he)) o ?_
    rw [hnode]
    exact ho

end SqlTyping
