import SqlTyping.Proofs.DataType.Loosening
import SqlTyping.Proofs.Session.Casting
import SqlTyping.Proofs.Session.Following

namespace SqlTyping

/-!
# Nullability and validation

When columns of the catalog are made nullable, the same statements are accepted, refused with the same
faults, and rewritten in the same way; only the types that are found may have become nullable.

* `CallFrame.Compares` — frames of one call in two sessions that are compared;
* `Visit.Follows.callView` — an operator's check sees the same call, but for types that are alike;
* `Visit.Follows.checksFollow` — so it ends alike, with an engine that respects what is alike;
* `Session.Loosened` — two fresh sessions, of which the second one has a catalog that allows more NULLs;
* `Session.Loosened.validates_alike` — queries are validated alike in them.
-/

open Checking

/-! ### Checks of a call -/

/-- Frames of one call, with the same operands. -/
structure CallFrame.Compares (κ : Comparison) (f g : CallFrame) : Prop where
  session : f.session.Compares κ g.session
  operands : g.operands = f.operands

section

variable {κ : Comparison} {v : Visit} {f g : CallFrame}

namespace Visit.Follows

variable (hv : v.Follows True κ)

include hv

theorem typeOf (h : f.Compares κ g) (scope : ScopeId) (op : Operator) (index : Nat) :
    EndAlike (CallFrame.Compares κ) κ.likeness.types f g (CallFrame.typeOf v scope op index)
      (CallFrame.typeOf v scope op index) := by
  refine .state_bind ?_
  rw [h.operands]
  cases f.operands[index]? with
  | none => exact .fail h
  | some operand =>
    refine .ite (fun _ => .pure h (κ.likeness.refl .symbol)) fun _ => ?_
    exact (hv.recorded h.session scope operand).focus fun s' t' h' => ⟨h', h.operands⟩

/-- Both calls get a cast to the same target, or none. -/
theorem castTo (scope : ScopeId) (call : NodeId) (index : Nat) {target target' : DataType}
    (htarget : κ.likeness.types target target') :
    Checking.Mirrors (CallFrame.Compares κ) (CallFrame.castTo v scope call index target)
      (CallFrame.castTo v scope call index target') := by
  intro f g h
  have hgrown : ∀ tree, Session.Compares κ { f.session with tree } { g.session with tree } :=
    fun tree => { h.session with tree := rfl }
  refine CallFrame.endAlike_castTo_of_same (Q := κ.likeness.types) h h.operands h.session.tree
    (κ.likeness.target htarget) (fun tree => ⟨hgrown tree, h.operands⟩) fun tree => ?_
  exact (hv.expression scope f.session.tree.nextId (hgrown tree)).imp fun h' operands => ⟨h', rfl⟩

variable (hsettings : κ.settings' = κ.settings) (hengine : κ.engine.Respects κ.likeness)
  (hnoted : ∀ {l l' request request'}, κ.noted l l' → request.Alike κ.likeness request' →
    κ.noted (l ++ [request]) (l' ++ [request']))

include hsettings hengine hnoted

omit hengine in
/-- The operator's check sees the same call, but for types that are alike. -/
theorem callView {s t : Session} (h : s.Compares κ t) (scope : ScopeId) (call : NodeId)
    (op : Operator) :
    CallView.Alike κ.likeness (CallFrame.Compares κ)
      (CallFrame.view v scope call op s.settings s.engine)
      (CallFrame.view v scope call op t.settings t.engine) where
  operator := rfl
  coerces := by
    show t.settings.coercion = s.settings.coercion
    rw [h.settings, h.settings', hsettings]
  engine := h.engine'.trans h.engine.symm
  count h := congrArg List.length h.operands
  isNull index h := CallFrame.isNull_congr h.operands h.session.tree index
  isDefault index h := CallFrame.isDefault_congr h.operands h.session.tree index
  typeOf index _ _ h := hv.typeOf h scope op index
  note hrequest h := ⟨{ h.session with requests := hnoted h.session.requests hrequest }, h.operands⟩

/-- The operator's check of a call ends alike. -/
theorem checksFollow : v.ChecksFollow True κ := by
  intro scope call name op operands all s₀ s₁ t₁ s₂ t₂ _ _ _ _ _ h
  have hview := CallView.Mirrors.of_castTo (hv.callView hsettings hnoted h scope call op)
    (show s₂.engine.Respects κ.likeness by rw [h.engine]; exact hengine)
    fun index {_ _} htarget => hv.castTo scope call index htarget
  exact (hview.check op.signature (fun _ _ _ _ _ _ _ => trivial) ⟨s₂, all⟩ ⟨t₂, all⟩
    ⟨h, rfl⟩).within rfl rfl fun _ _ h => h.session

end Visit.Follows

end

/-! ### Catalogs that allow more NULLs -/

/-- Two fresh sessions with the default engine, for one statement. Their catalogs have the same tables,
    but some types in those of the second one may be nullable where they are NOT NULL in the first. -/
inductive Session.Loosened : Session → Session → Prop
  | start (settings : Settings) (tree : Tree) (operators : OperatorTable) :
    Loosened { settings, tree, operators } { settings, tree, operators }
  | addTable {s s' t t' : Session} {names : List String} {row row' : DataType} {id id' : SourceId}
    (h : Loosened s t) (hrow : row.Loosens row') (hadd : s.addTable names row = .ok (id, s'))
    (hadd' : t.addTable names row' = .ok (id', t')) : Loosened s' t'

/-- The comparison of two sessions of which the second one allows more NULLs. -/
def Comparison.loosening (settings : Settings) (operators : OperatorTable) : Comparison where
  likeness := .loosening
  operators := operators
  engine := .implicitCasts
  settings := settings
  settings' := settings
  caseSensitive := rfl
  noted := List.Forall₂ (CoercionRequest.Alike .loosening)

/-- A table with an alike row type is added to both sessions. -/
theorem Session.Compares.addTable {κ : Comparison} {s s' t t' : Session} {names : List String}
    {row row' : DataType} {id id' : SourceId} (h : s.Compares κ t) (hrow : κ.likeness.types row row')
    (hadd : s.addTable names row = .ok (id, s')) (hadd' : t.addTable names row' = .ok (id', t')) :
    s'.Compares κ t' := by
  have hsources := h.sources.registerTable names hrow
  have hid : (t.sources.registerTable names row').1 = (s.sources.registerTable names row).1 :=
    h.sources.nextId
  unfold Session.addTable at hadd hadd'
  simp only [h.scopes, hid] at hadd'
  simp only at hadd
  generalize s.scopes.addBinding ScopeTree.rootId _ = scopes at hadd hadd'
  cases scopes with
  | error e => cases hadd
  | ok scopes =>
    cases hadd
    cases hadd'
    exact { h.withSources hsources with scopes := rfl }

namespace Session.Loosened

variable {s t : Session}

theorem compares (h : s.Loosened t) :
    ∃ settings operators, s.Compares (.loosening settings operators) t := by
  induction h with
  | start settings tree operators =>
    have hsources : RowSources.Alike .loosening {} {} :=
      ⟨rfl, fun _ => .none, rfl, rfl⟩
    exact ⟨settings, operators, rfl, rfl, rfl, rfl, rfl, rfl, rfl, rfl, hsources, fun _ => .none, rfl,
      .nil⟩
  | addTable _ hrow hadd hadd' ih =>
    obtain ⟨settings, operators, ih⟩ := ih
    exact ⟨settings, operators, ih.addTable hrow hadd hadd'⟩

/-- Whether a query is accepted, with which fault it is refused otherwise, and which casts it gets does
    not depend on the nullability of the columns in the catalog. When more of them are nullable, no part
    of the row type that was nullable has become NOT NULL, and nothing else of it has changed. -/
theorem validates_alike (h : s.Loosened t) (query : NodeId) :
    AnswersAlike DataType.Loosens (Session.validateQuery query s).1 (Session.validateQuery query t).1 ∧
      (Session.validateQuery query t).2.tree = (Session.validateQuery query s).2.tree := by
  obtain ⟨settings, operators, h⟩ := h.compares
  have hnoted : ∀ {l l' request request'}, List.Forall₂ (CoercionRequest.Alike .loosening) l l' →
      CoercionRequest.Alike .loosening request request' →
        List.Forall₂ (CoercionRequest.Alike .loosening) (l ++ [request]) (l' ++ [request']) :=
    fun hl hrequest => List.rel_append hl (.cons hrequest .nil)
  have hfollows := visitAt_follows (κ := .loosening settings operators) (fun depth hv =>
    hv.checksFollow rfl (CoercionEngine.respects_implicitCasts .loosening) hnoted) s.maxDepth
  have hdepth : t.maxDepth = s.maxDepth := by
    unfold Session.maxDepth
    rw [h.tree]
  have hrun : Session.validateQuery query t =
      (visitAt s.maxDepth).query ScopeTree.rootId query t := by
    rw [← hdepth]
    rfl
  have hend : EndAlike (Session.Compares (.loosening settings operators)) DataType.Loosens s t
      (Session.validateQuery query) (Session.validateQuery query) :=
    (hfollows.query ScopeTree.rootId query h).of_apply rfl hrun
  refine ⟨?_, hend.rel.tree⟩
  obtain ⟨_, _, _, _, hx, hy, hrow, -⟩ | ⟨e, _, _, hx, hy, -⟩ := hend.ends
  · rw [hx, hy]
    exact .ok hrow
  · rw [hx, hy]
    exact .error e

/-- `SELECT UPPER(A) FROM T` for a column `A` that is INTEGER NOT NULL, and for one that may be null: both
    get the same cast. -/
theorem validates_alike_upper :
    let tree := ((((({} : Tree).push (.identifier ["A"])).push (.call "UPPER" [⟨0⟩])).push
      (.tableRef ["T"] none)).push
      (.select { items := [.expression ⟨1⟩ none], sources := [⟨2⟩], condition := none }))
    ∃ s t : Session, s.tree = tree ∧ t.tree = tree ∧ s.Loosened t ∧
      (Session.validateQuery ⟨3⟩ s).1 = .ok (.row [("EXPR$0", .notNull .varchar)]) ∧
      (Session.validateQuery ⟨3⟩ t).1 = .ok (.row [("EXPR$0", .orNull .varchar)]) ∧
      (Session.validateQuery ⟨3⟩ t).2.tree = (Session.validateQuery ⟨3⟩ s).2.tree ∧
      (Session.validateQuery ⟨3⟩ s).2.tree.node? ⟨1⟩ = some (.call "UPPER" [⟨4⟩]) := by
  intro tree
  let start : Session := { tree }
  cases hs : start.addTable ["T"] (.row [("A", .notNull .integer)]) with
  | error e => cases hs
  | ok added =>
    cases ht : start.addTable ["T"] (.row [("A", .orNull .integer)]) with
    | error e => cases ht
    | ok added' =>
      have hloosened : added.2.Loosened added'.2 := .addTable (.start _ _ _) (by decide) hs ht
      cases hs
      cases ht
      have htrees := (Session.Loosened.validates_alike hloosened ⟨3⟩).2
      exact ⟨_, _, rfl, rfl, hloosened, by decide +kernel, by decide +kernel, htrees, by decide +kernel⟩

end Session.Loosened

end SqlTyping
