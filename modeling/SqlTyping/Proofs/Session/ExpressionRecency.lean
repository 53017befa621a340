import SqlTyping.Proofs.Session.QueryRecency

namespace SqlTyping

/-!
# Validation keeps row types current

Whatever has been asked for before, the tables that a query binds and the names that it looks up find what is
current:

* `Journal.Stays` — what holds of the frame of a call while it is checked;
* `Journal.runs_callType`, `Journal.runs_expressionStep` — expressions keep row types current;
* `Journal.visitOn_keeps` — so does validation to any depth;
* `Session.Reached.isCurrent` — so everything is current while a query is validated.
-/

namespace Journal

open Checking

/-- While a call is checked, its frame follows the operands that were written, and everything is current. -/
structure Stays (b : Session) (own : NodeId → Prop) (inside : List NodeId) (s : Session)
    (written : List NodeId) (j : Journal) (f : CallFrame.On Journal) : Prop where
  goes : Goes b own inside s j f.session
  tracks : (Host.frame f).Tracks b.tree written

section

variable {b : Session} {root : NodeId} {depth : Nat} {v : Visit.On Journal} {own : NodeId → Prop}
  {j₀ j : Journal} {scope : ScopeId} {a id call : NodeId} {name : String}
  {written operands all : List NodeId} {op : Operator} (hv : Keeps b root depth v)
  (hp : Poised b root own j₀ scope) (hgoes : Goes b own (j₀.bodies scope) j₀.session j₀ j)

/-! ### The check of a call -/

section

variable (hclosed : b.tree.NoDangling) (hid : own call)
  (hcall : b.tree.node? call = some (.call name written))

include hv hp hgoes hclosed hid hcall

/-- An operand of a frame that stays is validated. -/
theorem runs_operand {f : CallFrame.On Journal} {operand : NodeId}
    (hf : Stays b own (j₀.bodies scope) j₀.session written j f) (ho : operand ∈ f.operands)
    {x : Checking Journal DataType}
    (hx : Runs (Goes b own (j₀.bodies scope) j₀.session) (fun _ => True) f.session
        (v.expression scope operand) (fun _ _ => True) →
      Runs (Goes b own (j₀.bodies scope) j₀.session) (fun _ => True) f.session x fun _ _ => True) :
    Runs (fun _ => Stays b own (j₀.bodies scope) j₀.session written j) (fun _ => True) f
      (CallFrame.onSession x) fun _ _ => True := by
  have hpart := (hp.upholds hclosed).isPart_of_tracks (d := depth) hid hcall hf.tracks ho
  have hrun := hx (hv.runs_expression hp (course.trans hgoes hf.goes) hpart)
  refine hrun.focus fun j' hj' => ⟨course.trans hf.goes hj', ?_⟩
  exact hf.tracks.onSession hj'.1.1.rewrites.1 hj'.1.1.rewrites.2

theorem guards_typeOf (index : Nat) : (CallFrame.typeOf v scope op index).Guards
    (Stays b own (j₀.bodies scope) j₀.session written j) fun _ => True := by
  refine guards_state_bind fun f hf => ?_
  cases ho : f.operands[index]? with
  | none => exact .fail hf trivial
  | some operand =>
    refine .ite (fun _ => .pure hf trivial) fun _ => ?_
    exact runs_operand hv hp hgoes hclosed hid hcall hf (List.mem_of_getElem? ho)
      (.recorded (course.stays (course.trans hgoes hf.goes)))

omit hv hgoes in
/-- A cast is added to the statement; the call has it as an operand from then on, if it has the operand. -/
theorem runs_insertCast {f : CallFrame.On Journal} {index : Nat} {operand : NodeId}
    (hf : Stays b own (j₀.bodies scope) j₀.session written j f) (ho : f.operands[index]? = some operand)
    (hd : f.isDefault index = false) (target : DataType) :
    Runs (fun _ => Stays b own (j₀.bodies scope) j₀.session written j) (fun _ => True) f
      (CallFrame.onSession (Host.lift (CallFrame.insertCast call index operand target)))
      fun inserted f' => inserted = true → Stays b own (j₀.bodies scope) j₀.session written j
        { f' with operands := f'.operands.set index f.session.session.tree.nextId } ∧
          f.session.session.tree.nextId ∈ f'.operands.set index f.session.session.tree.nextId := by
  have hup := hp.upholds hclosed
  have hgrown : ∀ tree,
      Session.RewritesSince b.tree f.session.session.tree { f.session.session with tree } →
        Tree.Recast b.tree call f.session.session.tree tree →
          Goes b own (j₀.bodies scope) j₀.session j ⟨{ f.session.session with tree }, f.session.events⟩ :=
    fun tree hsince hcast => course.trans hf.goes ⟨⟨.of_tree hsince ⟨rfl, rfl, rfl⟩ rfl rfl,
      @Session.Upholds.tree _ _ _ _ hup _ 0 _ _ hf.goes.1.2 hid hsince.1 hcast⟩, .refl _⟩
  obtain ⟨hsince, -, hcast⟩ := hf.tracks.pushCast hcall ho hd target.toTarget
  cases hr : (f.session.session.tree.pushCast operand target.toTarget true).replaceOperand? call index
      f.session.session.tree.nextId with
  | none =>
    have hinserted : CallFrame.onSession (Host.lift (CallFrame.insertCast call index operand target)) f =
        (.ok false, { f with session := ⟨{ f.session.session with
          tree := f.session.session.tree.pushCast operand target.toTarget true }, f.session.events⟩ }) := by
      simp only [CallFrame.onSession, focus, lift_eq, plain, CallFrame.insertCast, hr]
    refine .of_snd ?_ fun inserted f' h hi => ?_
    · rw [hinserted]
      exact ⟨hgrown _ hsince hcast, hf.tracks.onSession hsince.1 hsince.2⟩
    · rw [hinserted] at h
      cases h
      cases hi
  | some tree =>
    have hinserted : CallFrame.onSession (Host.lift (CallFrame.insertCast call index operand target)) f =
        (.ok true, { f with session := ⟨{ f.session.session with tree }, f.session.events⟩ }) := by
      simp only [CallFrame.onSession, focus, lift_eq, plain, CallFrame.insertCast, hr]
    obtain ⟨hsince, -, hcast, htracks⟩ := hf.tracks.insertCast hcall ho hd target.toTarget hr
    refine .of_snd ?_ fun inserted f' h _ => ?_
    · rw [hinserted]
      exact ⟨hgrown _ hsince hcast, hf.tracks.onSession hsince.1 hsince.2⟩
    · rw [hinserted] at h
      cases h
      exact ⟨⟨hgrown _ hsince hcast, htracks⟩, List.mem_set (List.getElem?_eq_some_iff.mp ho).1 _⟩

theorem guards_castTo (index : Nat) (target : DataType) :
    (CallFrame.castTo v scope call index target).Guards
      (Stays b own (j₀.bodies scope) j₀.session written j) fun _ => True := by
  intro f hf
  refine .state_bind (.ite (fun _ => .pure hf trivial) fun hd => ?_)
  cases ho : f.operands[index]? with
  | none => exact .pure hf trivial
  | some operand =>
    refine (runs_insertCast hp hclosed hid hcall hf ho (by simpa using hd) target).bind course_of_invariant
      fun inserted f₁ hf₁ hinserted => .ite (fun hi => ?_) fun _ => .pure hf₁ trivial
    obtain ⟨hf₂, hmem⟩ := hinserted hi
    refine Runs.bind course_of_invariant (Q := fun _ f₂ =>
      f₂ = { f₁ with operands := f₁.operands.set index f.session.session.tree.nextId }) ⟨hf₂, rfl⟩ ?_
    rintro _ f₂ hf₂ rfl
    exact (runs_operand hv hp hgoes hclosed hid hcall hf₂ hmem fun hvisit => hvisit).bind
      course_of_invariant fun _ f₃ hf₃ _ => .pure hf₃ trivial

/-- The check of a call keeps row types current. -/
theorem runs_checkCall (hall : CallFrame.Tracks b.tree written ⟨j.session, all⟩) :
    Runs (Goes b own (j₀.bodies scope) j₀.session) (fun _ => True) j (checkCall v scope call op all)
      fun _ _ => True := by
  have hup := hp.upholds hclosed
  have htype : ∀ index, (CallFrame.typeOf v scope op index).Guards
      (Stays b own (j₀.bodies scope) j₀.session written j) fun _ => True :=
    guards_typeOf hv hp hgoes hclosed hid hcall
  have hcast := guards_castTo hv hp hgoes hclosed hid hcall
  have hview : (CallFrame.view v scope call op j.session.settings j.session.engine).Guards
      (Stays b own (j₀.bodies scope) j₀.session written j) (fun _ => True) (fun _ => True)
      fun _ => True := by
    refine ⟨fun _ _ _ _ => trivial, fun index _ => htype index, fun _ types positions _ => ?_,
      fun _ _ => trivial, fun _ => trivial⟩
    refine CallView.guards_coerce (CallView.guards_signatureText _ (fun _ _ _ _ => trivial)
      fun index _ => htype index) ?_ (CallView.guards_run htype hcast (fun _ => trivial) _)
    intro request f hf
    have hsame : f.session.session.Rewrites b.tree := hf.goes.1.1.rewrites.1
    refine ⟨course.trans hf.goes ⟨⟨.of_tree ⟨⟨hsame.rewritten, hsame.closed⟩, .refl _ _⟩ ⟨rfl, rfl, rfl⟩
      rfl rfl, hup.requests _ hf.goes.1.2⟩, .refl _⟩, ?_⟩
    exact hf.tracks.onSession ⟨hsame.rewritten, hsame.closed⟩ (.refl _ _)
  exact (hview.check op.signature (fun _ _ _ _ _ _ => trivial) ⟨j, all⟩
    ⟨course.stays hgoes, hall⟩).checkCall fun f hf => hf.goes

omit hcall in
/-- A call is validated from its operator to its type. -/
theorem runs_callType (hn : j.session.tree.node? call = some (.call name operands)) :
    Runs (Goes b own (j₀.bodies scope) j₀.session) (fun _ => True) j (callType v scope call name operands)
      fun _ _ => True := by
  have hup := hp.upholds hclosed
  have hs := course.stays hgoes
  obtain ⟨written, hcall, hw⟩ := hs.1.1.rewrites.1.rewritten.call_of_call hn
  unfold callType
  refine .state_bind ?_
  cases hop : j.session.operators.lookup? name with
  | none => exact .fail hs trivial
  | some op =>
    refine .ite (fun _ => .fail hs trivial) fun _ => ?_
    refine (runs_plain (hup.runs_padded (d := 0) hid hs.1 hn hw op.signature)).bind course ?_
    rintro all j₁ hj₁ ⟨⟨htracks, hmem⟩, -, -⟩
    have hgoes₁ := course.trans hgoes hj₁
    refine (Runs.visitOperands course (course.stays hgoes₁) op.signature 0 fun o ho t ht =>
      hv.runs_expression hp (course.trans hgoes₁ ht) (Session.Upholds.isPart_mono
        (hup.isPart_of_tracks hid hcall htracks (hmem o ho)) ht.1.1.rewrites.2)).bind course
          fun _ j₂ hj₂ _ => ?_
    have hgoes₂ := course.trans hgoes₁ hj₂
    refine (runs_checkCall hv hp hgoes₂ hclosed hid hcall
      (htracks.onSession hj₂.1.1.rewrites.1 hj₂.1.1.rewrites.2)).bind course fun _ j₃ hj₃ _ => ?_
    -- The operands are read again: casts may have been put around them.
    obtain ⟨-, hread⟩ := hj₃.1.1.rewrites.1.tracks_operands hcall
    have hgoes₃ := course.trans hgoes₂ hj₃
    refine .state_bind ((Runs.operandTypes course (course.stays hgoes₃) op.signature 0 fun o ho t ht =>
      hv.runs_expression hp (course.trans hgoes₃ ht) (Session.Upholds.isPart_mono
        (hup.isPart_of_tracks hid hcall hread ho) ht.1.1.rewrites.2)).bind course
          fun types j₄ hj₄ _ => ?_)
    exact .ofExcept (course.stays hj₄) (fun _ _ => trivial) fun _ _ => trivial

end

/-! ### Expressions -/

section

variable (hclosed : b.tree.NoDangling)

include hv hp hgoes hclosed

theorem runs_expressionType (hid : own id) {n : Node} (hn : j.session.tree.node? id = some n)
    (hcast : ∀ operand target implicit, n ≠ .cast operand target implicit) :
    Runs (Goes b own (j₀.bodies scope) j₀.session) (fun _ => True) j (expressionType v scope id n)
      fun _ _ => True := by
  have hup := hp.upholds hclosed
  have hs := course.stays hgoes
  cases n with
  | call name operands => exact runs_callType hv hp hgoes hclosed hid hn
  | cursor query =>
    have hwritten := hs.1.1.rewrites.1.rewritten.node?_eq (hp.isClosed.lt_size _ hid) hn rfl
    have hquery := hp.isClosed.child id query hid ⟨_, hwritten, by simp [Node.children]⟩
    exact (hv.runs_query hp hgoes hquery).bind course fun _ _ hj' _ => .pure (course.stays hj') trivial
  | identifier names =>
    refine runs_searching (Q := fun _ _ => True) ?_ (hp.later hgoes).serves
    exact .state_bind (.ofExcept hs.1 (fun _ _ => trivial) fun _ _ => trivial)
  | literal value => exact .pure hs trivial
  | default => exact .pure hs trivial
  | _ => exact .fail hs trivial

/-- An expression with casts around it. -/
theorem runs_wrapped (ha : own a) (hw : Tree.Wraps b.tree j.session.tree a id) :
    Runs (Goes b own (j₀.bodies scope) j₀.session) (fun _ => True) j (expressionStep v scope id)
      fun _ _ => True := by
  have hup := hp.upholds hclosed
  have hs := course.stays hgoes
  obtain ⟨casts, core, hpeel⟩ : ∃ casts core,
      j.session.tree.peelCasts j.session.tree.size id = (casts, core) := ⟨_, _, rfl⟩
  unfold expressionStep
  refine .state_bind ?_
  simp only [session_eq, hpeel]
  by_cases hcast : ∃ operand target implicit,
      j.session.tree.node? core = some (.cast operand target implicit)
  -- The casts go round, or there are too many.
  · obtain ⟨operand, target, implicit, hn⟩ := hcast
    refine .bind_ok (plain_node hn) (.bind course (Q := fun _ _ => False) ?_ fun _ _ _ hf => hf.elim)
    exact .fail hs trivial
  · have hpeeled : Tree.Peeled j.session.operators b.tree j.session.tree a casts core :=
      Tree.peeled_of_peelCasts hs.1.1.rewrites.1.rewritten hclosed hw (hp.isClosed.lt_size a ha) hpeel
        fun operand target implicit hc => hcast ⟨_, _, _, hc⟩
    have hcore : own core := hp.isClosed.of_reach ha hpeeled.below.child
    refine runs_node hs hpeeled.lt_size fun n hn => ?_
    refine (runs_expressionType hv hp hgoes hclosed hcore hn ?_).bind course fun type j₁ hj₁ _ => ?_
    · rintro operand target implicit rfl
      exact hcast ⟨_, _, _, hn⟩
    refine (runs_plain (hup.runs_recordPart (d := 0) (course.stays hj₁).1 hcore type)).bind course
      fun _ j₂ hj₂ _ => ?_
    have hcasts : ∀ z ∈ casts, ∃ x, own x ∧ Tree.Wraps b.tree j₂.session.tree x z.1 := by
      intro z hz
      obtain ⟨x, -, hwx, hbelow, -⟩ := hpeeled.wraps z hz
      exact ⟨x, hp.isClosed.of_reach ha hbelow.child, hwx.mono (hj₁.1.1.trans hj₂.1.1).rewrites.2⟩
    exact (runs_plain (hup.runs_recordCasts (d := 0) (course.stays hj₂).1 type hcasts)).imp
      fun _ _ _ _ => trivial

omit hv in
/-- A placeholder only gets a type. -/
theorem runs_placeholder (hnew : b.tree.size ≤ id.index) (hn : j.session.tree.node? id = some .default) :
    Runs (Goes b own (j₀.bodies scope) j₀.session) (fun _ => True) j (expressionStep v scope id)
      fun _ _ => True := by
  have hup := hp.upholds hclosed
  have hs := course.stays hgoes
  have hpeel : j.session.tree.peelCasts j.session.tree.size id = ([], id) :=
    Tree.peelCasts_of_not_cast (fun operand target implicit hc => by cases hn.symm.trans hc) _
  unfold expressionStep
  refine .state_bind ?_
  simp only [session_eq, hpeel]
  refine .bind_ok (plain_node hn) (.bind_ok (a := DataType.any) rfl ?_)
  refine (runs_plain (hup.runs_record hs.1 .any (Tree.lt_size_of_node? hn) fun a ha hw => ?_)).bind course
    fun _ j₁ hj₁ _ => ?_
  -- A placeholder is around nothing.
  · cases hw with
    | self => omega
    | cast _ hc =>
      rw [hn] at hc
      cases hc
  · exact (runs_plain (Runs.pure (Q := fun _ _ => True) (course.stays hj₁).1 trivial)).imp
      fun _ _ _ _ => trivial

end

end

/-! ### All depths -/

/-- An expression keeps row types current. -/
theorem runs_expressionStep {b : Session} {root : NodeId} {depth : Nat} {v : Visit.On Journal}
    {own : NodeId → Prop} {j : Journal} {scope : ScopeId} {id : NodeId} (hv : Keeps b root depth v)
    (hclosed : b.tree.NoDangling) (hp : Poised b root own j scope)
    (hid : Tree.IsPart b.tree (fun _ => own) (depth + 1) j.session.tree id) :
    Runs (Goes b own (j.bodies scope) j.session) (fun _ => True) j (expressionStep v scope id)
      fun _ _ => True := by
  rcases hid with ⟨a, ha, hw⟩ | ⟨hnew, hn, -⟩
  · exact runs_wrapped hv hp hp.goes hclosed ha hw
  · exact runs_placeholder hp hp.goes hclosed hnew hn

/-- Validation to any depth keeps row types current. -/
theorem visitOn_keeps {b : Session} {root : NodeId} (hclosed : b.tree.NoDangling)
    (htree : b.tree.IsTreeAt root) (hroot : b.tree.IsClosed (b.Reach root)) (depth : Nat) :
    Keeps b root depth (visitOn Journal depth) := by
  induction depth with
  | zero => exact ⟨fun hp => .fail hp.goes trivial, fun hp _ => .fail hp.goes trivial⟩
  | succ depth ih =>
    refine ⟨fun hp => ?_, fun hp hid => runs_expressionStep ih hclosed hp hid⟩
    exact runs_queryStep ih hclosed htree hroot hp

/-- There is nothing to validate, and nothing happens. -/
theorem visitOn_query_of_none {j : Journal} {scope : ScopeId} {query : NodeId}
    (hn : j.session.tree.node? query = none) (depth : Nat) :
    ((visitOn Journal depth).query scope query j).2 = j := by
  cases depth with
  | zero => rfl
  | succ depth =>
    have hnode : plain (Validation.node query) j = (.error (.internal s!"unknown node {query.text}"), j) :=
      plain_of_error (node_of_none hn)
    show (queryStep (visitOn Journal depth) scope query j).2 = j
    unfold queryStep
    rw [lift_eq, bind_of_error hnode]

end Journal

/-- Whatever a session has been asked for, and whether or not it succeeds: while a query that is a tree is
    validated, each table of a FROM list that stands for a WITH item gets the row type that the query of the
    item has come to most recently in this validation. If it stands for a recursive item inside its own body,
    it gets the row type that the first input of the body has come to most recently where the item could not
    be seen. Columns are looked up only in row types like these. Which engine and which operators there are
    does not matter. -/
theorem Session.Reached.isCurrent {settings : Settings} {tree : Tree} {operators : OperatorTable}
    {engine : CoercionEngine} {s : Session} {query : NodeId}
    (h : Session.Reached { settings, tree, operators, engine } s) (hclosed : tree.NoDangling)
    (htree : s.tree.IsTreeAt query) :
    let run := Journal.validateQuery query ⟨s, []⟩
    Session.validateQuery query s = (run.1, run.2.session) ∧
      Journal.IsCurrent NodeId.isOutside s.tree run.2.events := by
  refine ⟨Journal.validateQuery_erases query s [], ?_⟩
  unfold Journal.validateQuery
  cases hn : s.tree.node? query with
  | none =>
    rw [Journal.visitOn_query_of_none hn]
    exact .nil
  | some n =>
    have hs := h.grounded hclosed
    have hsorted := h.sorted hclosed
    have hroot : s.tree.IsClosed (s.Reach query) := hs.closed.isClosed_reach (Tree.lt_size_of_node? hn)
    have hp : Journal.Poised s query (s.Reach query) ⟨s, []⟩ ScopeTree.rootId :=
      ⟨⟨hs.continues, hs.owned, hsorted⟩, hroot, fun _ hid => hid, .root hs hsorted []⟩
    exact ((Journal.visitOn_keeps hs.closed htree hroot s.maxDepth).query hp).rel.2.current .nil

/-- The statement `WITH RECURSIVE T AS (SELECT *, 1 AS k FROM T UNION ALL SELECT a, k, k FROM T)
    SELECT * FROM T`. -/
def Tree.widening : Tree :=
  ((((((((((((({} : Tree).push (.tableRef ["T"] none)).push (.literal (.integer 1))).push
    (.select { items := [.star, .expression ⟨1⟩ (some "k")], sources := [⟨0⟩], condition := none })).push
    (.tableRef ["T"] none)).push (.identifier ["a"])).push (.identifier ["k"])).push
    (.identifier ["k"])).push
    (.select
      { items := [4, 5, 6].map fun i => .expression ⟨i⟩ none, sources := [⟨3⟩], condition := none })).push
    (.setOperation { operator := .union, all := true, left := ⟨2⟩, right := ⟨7⟩ })).push
    (.withItem { name := ["T"], columns := none, query := ⟨8⟩, recursive := true })).push
    (.tableRef ["T"] none)).push (.select { items := [.star], sources := [⟨10⟩], condition := none })).push
    (.withQuery [⟨9⟩] ⟨11⟩)

/-- A session with this statement and a table `T` with one column `a`. -/
def Session.widening : Session :=
  ((Session.Request.addTable ["T"] (.row [("a", .notNull .integer)])).perform { tree := .widening }).2

theorem Session.reached_widening : Session.Reached { tree := .widening } Session.widening :=
  .request .start trivial

/-- The row types `(a, k)` and `(a, k, k0)`. -/
def DataType.twoColumns : DataType := .row [("a", .notNull .integer), ("k", .notNull .integer)]

def DataType.threeColumns : DataType :=
  .row [("a", .notNull .integer), ("k", .notNull .integer), ("k0", .notNull .integer)]

/-- What happens while the statement is validated. -/
def Journal.widening : List Session.Event := (Journal.validateQuery ⟨12⟩ ⟨Session.widening, []⟩).2.events

/-- Both the item as its body sees it and the item itself are bound, with what is current. -/
theorem Session.Reached.isCurrent_widening :
    (Session.validateQuery ⟨12⟩ Session.widening).1 = .ok .threeColumns ∧
      .bound ⟨3⟩ ⟨some ⟨9⟩, .selfReference ⟨1⟩, .twoColumns, none⟩ (some .twoColumns) ∈ Journal.widening ∧
      .bound ⟨10⟩ ⟨some ⟨9⟩, .withItem, .threeColumns, none⟩ (some .threeColumns) ∈ Journal.widening ∧
      Journal.IsCurrent NodeId.isOutside Session.widening.tree Journal.widening := by
  have hforest : Tree.widening.IsForest := .of_ordered (by decide) (by decide) (by decide)
  refine ⟨by decide +kernel, by decide +kernel, by decide +kernel, ?_⟩
  exact (Session.Reached.isCurrent Session.reached_widening hforest.closed (hforest.isTreeAt ⟨12⟩)).2

/-- The first input comes to three columns when it is validated once more, inside the body of the item, but
    the item as its body sees it still has two. So the row type that the first input has come to last,
    wherever that was, need not be the one that is seen. -/
theorem Journal.IsCurrent.fails_widening :
    Session.Reached { tree := .widening } Session.widening ∧ Tree.widening.NoDangling ∧
      Session.widening.tree.IsTreeAt ⟨12⟩ ∧
      ¬ Journal.IsCurrent (fun _ _ => true) Session.widening.tree Journal.widening := by
  have hforest : Tree.widening.IsForest := .of_ordered (by decide) (by decide) (by decide)
  refine ⟨Session.reached_widening, hforest.closed, hforest.isTreeAt _, fun hcurrent => ?_⟩
  have hsplit : Journal.widening = Journal.widening.take 8 ++
      .bound ⟨3⟩ ⟨some ⟨9⟩, .selfReference ⟨1⟩, .twoColumns, none⟩ (some .twoColumns) ::
        Journal.widening.drop 9 := by decide +kernel
  have hlast : latest? (Journal.widening.take 8) ⟨2⟩ (fun _ => true) = some .threeColumns := by
    decide +kernel
  obtain ⟨-, id, item, operation, anchor, hnode, hitem, hoperation, hlatest, hrow⟩ :=
    hcurrent _ _ _ hsplit
  cases hnode
  cases hitem
  cases hoperation
  obtain rfl := Option.some.inj (hlast.symm.trans hlatest)
  cases hrow

end SqlTyping
