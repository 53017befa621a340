import SqlTyping.Proofs.Session.CallCoherence
import SqlTyping.Proofs.Session.Settling

namespace SqlTyping

/-!
# Types of expressions

An expression that validation types is coherent from its outermost cast on, and as nullable as the text
says:

* `Visit.Coheres.runs_expressionType` — what is left when the casts are taken off comes to its type;
* `coheres_recordCasts` — the casts get types that go with it;
* `Visit.Coheres.expressionStep`, `Visit.Coheres.refused_expressionStep` — the expression gets its type with
  a result, and none without.
-/

open Checking Filter

namespace Session

variable {b s s' : Session} {view : Outlook} {scope : ScopeId} {a id core : NodeId} {node : Node}
  {type : DataType} {casts : List (NodeId × CastTarget)}

/-! ### Casts -/

/-- What casts are around may be null when what is left under them may. -/
theorem MayBeNull.of_peeled (hforest : b.tree.IsForest) {t : Tree} {nullable : Bool}
    (hp : Tree.Peeled b.operators b.tree t a casts core) (h : b.MayBeNull view core nullable) :
    b.MayBeNull view a nullable := by
  have hall : ∀ x, b.Below x core → b.Below a x → b.MayBeNull view x nullable := by
    intro x hx
    induction hx using Relation.ReflTransGen.head_induction_on with
    | refl => exact fun _ => h
    | @head x y hxy hy ih =>
      intro ha
      rcases hp.rest x ha with hx | ⟨operand, target, implicit, hcast⟩
      -- Otherwise the core would lie below itself.
      · refine absurd (Relation.TransGen.head' hxy.child ?_) (hforest.acyclic x)
        exact (Tree.Below.child hy).trans (Tree.Below.child hx)
      · obtain ⟨found, hn, hmem⟩ := hxy
        obtain rfl := Option.some.inj (hcast.symm.trans hn)
        obtain rfl := List.mem_singleton.mp hmem
        refine .of_step ((ih (ha.tail ⟨_, hcast, hmem⟩)).mono fun depth hd => ?_)
        unfold outlineStep
        simp only [hcast]
        exact hd
  exact hall a hp.below .refl

/-- The casts around a coherent expression get types that go with it. -/
theorem coheres_recordCasts (hforest : b.tree.IsForest) {fuel : Nat} (hs : b.Continues s)
    (howned : s.sources.Owned) (ha : a.index < b.tree.size) (hw : Tree.Wraps b.tree s.tree a id)
    (hpeel : s.tree.peelCasts fuel id = (casts, core)) (hcore : b.CoherentFrom s core)
    (htype : s.types.get? core = some type) :
    ∃ result types, recordCasts type casts s = (.ok result, { s with types }) ∧
      b.Continues { s with types } ∧ b.CoherentFrom { s with types } id ∧
        types.get? id = some result ∧ result.nullable = type.nullable := by
  induction fuel generalizing a id casts with
  | zero =>
    cases hpeel
    exact ⟨type, s.types, rfl, hs, hcore, htype, rfl⟩
  | succ fuel ih =>
    unfold Tree.peelCasts at hpeel
    split at hpeel
    · rename_i operand target implicit hcast
      obtain ⟨inner, core', hinner⟩ : ∃ inner core', s.tree.peelCasts fuel operand = (inner, core') :=
        ⟨_, _, rfl⟩
      simp only [hinner, Prod.mk.injEq] at hpeel
      obtain ⟨rfl, rfl⟩ := hpeel
      have hchild : s.tree.Child id operand := ⟨_, hcast, by simp [Node.children]⟩
      obtain ⟨c, hc, hwc⟩ : ∃ c, c.index < b.tree.size ∧ Tree.Wraps b.tree s.tree c operand := by
        rcases hw.child hs.rewrites.rewritten ha hchild with hwa | ⟨c, hc, hwc⟩
        · exact ⟨a, ha, hwa⟩
        · exact ⟨c, hforest.lt_size_of_child hc, hwc⟩
      obtain ⟨result, types, hrun, hs₁, hcoherent, hrecorded, hnull⟩ := ih hc hwc hinner
      have hjudged : b.Judged { s with types } id (.cast operand target implicit)
          (.ofTarget target result.nullable) := ⟨hcast, ⟨result, hrecorded, rfl⟩, by rintro _ ⟨⟩⟩
      have hnot : ¬ s.tree.Below b.operators operand id := hs.not_below_child hforest ha hw hchild
      refine ⟨.ofTarget target result.nullable, types.put id (.ofTarget target result.nullable), ?_,
        hs₁.record (Tree.lt_size_of_node? hcast) _, ?_, ?_, hnull⟩
      · unfold recordCasts
        rw [bind_of_ok hrun]
        rfl
      · refine hjudged.record hs₁ howned (fun x hx => ?_) fun x hx => ?_
        · obtain rfl := List.mem_singleton.mp hx
          exact hcoherent
        · obtain rfl := List.mem_singleton.mp hx
          exact hnot
      · exact (OrderedMap.get?_put _ _ _ _).trans (if_pos rfl)
    · cases hpeel
      exact ⟨type, s.types, rfl, hs, hcore, htype, rfl⟩

variable (b type) in
/-- A node without parts has come to its type. -/
theorem judged_of_leaf (hn : s.tree.node? id = some node) (hleaf : node.children = [])
    (hcoheres : s.Coheres type node) :
    b.Judged s id node type ∧ ∀ x ∈ node.visited b.operators, b.CoherentFrom s x := by
  refine ⟨⟨hn, hcoheres, ?_⟩, fun x hx => ?_⟩
  · rintro item rfl
    cases hleaf
  · have hx := Node.mem_children_of_visited hx
    rw [hleaf] at hx
    cases hx

end Session

section

open Session

variable {b s s' : Session} {v : Visit} {view : Outlook} {scope : ScopeId} {a id core : NodeId}
  {node : Node} {type : DataType}

/-- However the validation of an expression without casts ends, nothing but what is below it has got
    types; with a result the expression has come to its type. -/
theorem Visit.Coheres.runs_expressionType (hv : v.Coheres b) (hforest : b.tree.IsForest)
    (hs : b.Poised (b.Reach core) s scope view) (hcore : core.index < b.tree.size)
    (hn : s.tree.node? core = some node) :
    Runs (fun _ => b.Confined (b.Beneath core) (b.Reach core) s) (fun _ => True) s
      (expressionType v scope core node)
      fun type s' => ∃ node, b.Judged s' core node type ∧
        (∀ x ∈ node.visited b.operators, b.CoherentFrom s' x) ∧ b.MayBeNull view core type.nullable := by
  have hstay : b.Confined (b.Beneath core) (b.Reach core) s s := .refl hs.continues hs.owned
  have hwritten : ∀ n, node = n → n.operands? = none → b.tree.node? core = some n := by
    rintro n rfl
    exact hs.continues.rewrites.rewritten.node?_eq hcore hn
  cases node with
  | literal value =>
    obtain ⟨hjudged, hparts⟩ := judged_of_leaf b value.type hn rfl rfl
    refine .pure hstay ⟨_, hjudged, hparts, .of_step (.of_forall fun depth => ?_)⟩
    simp only [outlineStep, hwritten _ rfl rfl]
  | default =>
    obtain ⟨hjudged, hparts⟩ := judged_of_leaf b .any hn rfl rfl
    refine .pure hstay ⟨_, hjudged, hparts, .of_step (.of_forall fun depth => ?_)⟩
    simp only [outlineStep, hwritten _ rfl rfl]
  | identifier names =>
    refine .state_bind (.ofExcept hstay (fun type htype => ?_) fun _ _ => trivial)
    obtain ⟨hjudged, hparts⟩ := judged_of_leaf b type hn rfl trivial
    refine ⟨_, hjudged, hparts, .of_step (.of_forall fun depth => ?_)⟩
    have hreference := hs.overlooks.referenceType htype
    rw [hs.continues.settings] at hreference
    simp only [outlineStep, hwritten _ rfl rfl, hreference, Option.getD_some]
  | call name operands => exact hv.runs_callType hforest hs hn
  | cursor query =>
    have hchild : b.tree.Child core query := ⟨_, hwritten _ rfl rfl, by simp [Node.children]⟩
    have hp : b.Poised (b.Reach query) s scope view := hs.mono fun _ hx => .head hchild hx
    have hquery := hforest.lt_size_of_child hchild
    have hc := hv.confinedQuery hp hquery
    have hc' : b.Confined (b.Beneath core) (b.Reach core) s (v.query scope query s).2 :=
      hc.mono (fun _ hx => .head' hchild hx) fun _ hx => .head hchild hx
    refine (Runs.of_snd hc' fun row s' hok => ?_).bind course_of_invariant
      (Q := fun _ s' => b.CoherentFrom s' query ∧ s'.tree.node? core = some (.cursor query))
      fun row s' hc' hq => ?_
    · refine ⟨(hv.query hp hquery hok).1, ?_⟩
      rw [hok] at hc
      exact (hc.node? core hcore (hforest.not_above_parent hchild)).trans hn
    · have hjudged : b.Judged s' core (.cursor query) .cursor := ⟨hq.2, rfl, by rintro _ ⟨⟩⟩
      refine .pure hc' ⟨_, hjudged, fun x hx => ?_, .of_step (.of_forall fun depth => ?_)⟩
      · obtain rfl := List.mem_singleton.mp hx
        exact hq.1
      · simp only [outlineStep, hwritten _ rfl rfl]
  | _ => exact .fail hstay trivial

/-- With a result, an expression is coherent with all its casts. -/
theorem Visit.Coheres.expressionStep (hv : v.Coheres b) (hforest : b.tree.IsForest)
    (hs : b.Poised (b.Reach a) s scope view) (ha : a.index < b.tree.size)
    (hw : Tree.Wraps b.tree s.tree a id) (hok : expressionStep v scope id s = (.ok type, s')) :
    b.CoherentFrom s' id ∧ s'.types.get? id = some type ∧ b.MayBeNull view a type.nullable := by
  have hrewritten := hs.continues.rewrites.rewritten
  obtain ⟨casts, core, hpeel⟩ : ∃ casts core, s.tree.peelCasts s.tree.size id = (casts, core) :=
    ⟨_, _, rfl⟩
  unfold SqlTyping.expressionStep at hok
  rw [bind_of_ok (state_apply s)] at hok
  simp only [Host.session_self, Host.lift_self, hpeel] at hok
  obtain ⟨node, s₀, hnode, hrest⟩ := bind_eq_ok_iff.mp hok
  obtain ⟨rfl, hn⟩ := node_eq_ok hnode
  obtain ⟨inner, s₁, htype, hrecord⟩ := bind_eq_ok_iff.mp hrest
  have hcast : ∀ operand target implicit, node ≠ .cast operand target implicit := by
    rintro operand target implicit rfl
    cases htype
  have hp : Tree.Peeled b.operators b.tree s₀.tree a casts core := by
    refine Tree.peeled_of_peelCasts hrewritten hforest.closed hw ha hpeel ?_
    intro operand target implicit hc
    rw [hn] at hc
    exact hcast operand target implicit (Option.some.inj hc)
  have hcore : b.Poised (b.Reach core) s₀ scope view :=
    hs.mono fun _ hx => hp.below.child.trans hx
  obtain ⟨hc, node', hjudged, hparts, hnull⟩ :=
    (hv.runs_expressionType hforest hcore hp.lt_size hn).of_ok htype
  -- What is left under the casts is coherent.
  have hrecorded := hjudged.record hc.continues hc.owned hparts fun c hmem =>
    hc.continues.not_below_child hforest hp.lt_size .self
      ⟨_, hjudged.found, Node.mem_children_of_visited hmem⟩
  have hpeel₁ : s₁.tree.peelCasts s₁.tree.size id = (casts, core) := by
    refine Tree.peelCasts_of_kept hpeel hc.added.size_le (fun z hz n hz' => ?_) fun _ _ _ hcast' => ?_
    · obtain ⟨operand, implicit, hz''⟩ := Tree.exists_cast_of_mem_peelCasts hpeel hz
      obtain rfl := Option.some.inj (hz''.symm.trans hz')
      exact hc.node?_of_no_call hs.continues hz'' rfl
    · exact hc.ne_cast hs.continues hn hcast hcast' _ _ _ rfl
  have hsize := Tree.lt_size_of_node? hjudged.found
  obtain ⟨result, types, hrun, -, hcoherent, hresult, hsame⟩ :=
    coheres_recordCasts hforest (hc.continues.record hsize inner) hc.owned ha (hw.mono hc.added) hpeel₁
      hrecorded ((OrderedMap.get?_put _ _ _ _).trans (if_pos rfl))
  have hrecord : recordCasts inner casts { s₁ with types := s₁.types.put core inner } = (.ok type, s') :=
    hrecord
  rw [hrun] at hrecord
  cases hrecord
  refine ⟨hcoherent, hresult, ?_⟩
  rw [hsame]
  exact hnull.of_peeled hforest hp

/-- Without a result, it is left without a type. -/
theorem Visit.Coheres.refused_expressionStep (hv : v.Coheres b) (hforest : b.tree.IsForest)
    (hs : b.Poised (b.Reach a) s scope view) (ha : a.index < b.tree.size)
    (hw : Tree.Wraps b.tree s.tree a id) {e : Fault}
    (herror : SqlTyping.expressionStep v scope id s = (.error e, s')) :
    s'.types.get? id = s.types.get? id := by
  have hrewritten := hs.continues.rewrites.rewritten
  obtain ⟨casts, core, hpeel⟩ : ∃ casts core, s.tree.peelCasts s.tree.size id = (casts, core) :=
    ⟨_, _, rfl⟩
  unfold SqlTyping.expressionStep at herror
  rw [bind_of_ok (state_apply s)] at herror
  simp only [Host.session_self, Host.lift_self, hpeel] at herror
  cases hn : s.tree.node? core with
  | none =>
    have hnode : Validation.node core s = (.error (.internal s!"unknown node {core.text}"), s) := by
      unfold Validation.node
      rw [hn]
    rw [bind_of_error hnode] at herror
    cases herror
    rfl
  | some node =>
    rw [bind_of_ok (node_of_some hn)] at herror
    cases hr : expressionType v scope core node s with
    | mk r s₁ =>
      cases r with
      | ok inner =>
        rw [bind_of_ok hr] at herror
        obtain ⟨types, hrun⟩ := exists_recordCasts inner casts
          { s₁ with types := s₁.types.put core inner }
        have herror : recordCasts inner casts { s₁ with types := s₁.types.put core inner } =
          (.error e, s') := herror
        rw [hrun] at herror
        cases herror
      | error fault =>
        rw [bind_of_error hr] at herror
        cases herror
        by_cases hcast : ∃ operand target implicit, node = .cast operand target implicit
        · obtain ⟨operand, target, implicit, rfl⟩ := hcast
          cases hr
          rfl
        have hp : Tree.Peeled b.operators b.tree s.tree a casts core := by
          refine Tree.peeled_of_peelCasts hrewritten hforest.closed hw ha hpeel ?_
          intro operand target implicit hc
          rw [hn] at hc
          exact hcast ⟨_, _, _, Option.some.inj hc⟩
        have hcore : b.Poised (b.Reach core) s scope view :=
          hs.mono fun _ hx => hp.below.child.trans hx
        obtain ⟨hc, -⟩ := (hv.runs_expressionType hforest hcore hp.lt_size hn).of_error hr
        -- The expression does not lie below what is left of it.
        refine hc.types a id ha (fun hb => ?_) hw
        exact hforest.acyclic a (Relation.TransGen.trans_right hp.below.child hb)

end

end SqlTyping
