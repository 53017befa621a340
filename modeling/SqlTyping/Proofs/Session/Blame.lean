import SqlTyping.Proofs.Session.Explicit
import SqlTyping.Proofs.Session.SelectCoherence
import SqlTyping.Proofs.Session.Siblings
import SqlTyping.Proofs.Tree.Pruning

namespace SqlTyping

/-!
# Faults of calls

A call that is refused says what is wrong with it, and with nothing else: its operator is not known, it has
too few or too many operands, an operand has no type of its own, or the operator's check refuses the types
of the operands. While the check converts operands they are validated again as they have been rewritten,
and this never fails:

* `Session.BlamesRightly` — the fault of a call is its own, or that of its leftmost operand without a type;
* `Session.Faces.exists_visitOperands` — operands come to what each of them comes to by itself;
* `CallSite.Held.guards_check`, `CallFrame.Typed.guards_check` — once all operands have types, a check stops
  with a refusal of its own, whether or not operands are converted;
* `Session.Reached.blames` — so the fault of a call is the right one.
-/

open Checking

/-- A fault by which an operator refuses the types of operands. -/
def Operator.Refuses (op : Operator) (e : Fault) : Prop :=
  (∃ actual allowed, e = .signatureMismatch op.name actual allowed) ∨
    ∃ index, e = .nullOperand op.name index

/-- Each of the first `count` operands has a type of its own, keywords aside. -/
def Session.TypesOperands (s : Session) (scope : ScopeId) (signature : Signature) (operands : List NodeId)
    (count : Nat) : Prop :=
  ∀ index operand, index < count → operands[index]? = some operand →
    signature.isKeyword index = false → ∃ type, (Session.deriveType scope operand s).1 = .ok type

/-- A call has a fault of its own, or that of the leftmost operand without a type. -/
structure Session.BlamesRightly (s : Session) (scope : ScopeId) (call : NodeId) (name : String)
    (operands : List NodeId) : Prop where
  unknown : s.operators.lookup? name = none →
    (Session.deriveType scope call s).1 = .error (.unknownFunction name)
  count : ∀ op, s.operators.lookup? name = some op → op.arity.admits operands.length = false →
    (Session.deriveType scope call s).1 =
      .error (.operandCount op.name op.arity.text operands.length)
  operand : ∀ op index operand e, s.operators.lookup? name = some op →
    op.arity.admits operands.length = true → s.TypesOperands scope op.signature operands index →
      operands[index]? = some operand → op.signature.isKeyword index = false →
        (Session.deriveType scope operand s).1 = .error e →
          (Session.deriveType scope call s).1 = .error e
  own : ∀ op e, s.operators.lookup? name = some op → op.arity.admits operands.length = true →
    s.TypesOperands scope op.signature operands operands.length →
      (Session.deriveType scope call s).1 = .error e → op.Refuses e

/-! ### Operands in order -/

namespace Session.Past

variable {s t : Session} {other other' : NodeId → Prop}

theorem mono (h : s.Past t other) (hsub : ∀ id, other id → other' id) : s.Past t other' :=
  ⟨h.confined.mono hsub hsub, h.grows, h.kept⟩

end Session.Past

section

variable {s t : Session} {scope : ScopeId} {call : NodeId} {name : String} {operands : List NodeId}
  {signature : Signature} {depth : Nat}

/-- What is below an operand is not below those before it. -/
theorem Session.not_under_take (hforest : s.tree.IsForest)
    (hn : s.tree.node? call = some (.call name operands)) {index : Nat} {operand : NodeId}
    (ho : operands[index]? = some operand) (id : NodeId) (hid : s.Reach operand id) :
    ¬ s.Under (operands.take index) id := by
  refine Session.not_under hforest ⟨_, hn, List.mem_of_getElem? ho⟩
    (fun other hother => ⟨_, hn, List.mem_of_mem_take hother⟩) (fun hmem => ?_) hid
  obtain ⟨hi, rfl⟩ := List.getElem?_eq_some_iff.mp ho
  have hdrop : operands[index] ∈ operands.drop index := by
    rw [List.drop_eq_getElem_cons hi]
    exact List.mem_cons_self ..
  exact List.disjoint_take_drop (hforest.nodup_children hn) (Nat.le_refl index) hmem hdrop

/-- The depth that is left below the call suffices for an operand. -/
theorem Session.Faces.exists_rank (hforest : s.tree.IsForest) (hfaces : s.Faces scope (s.Reach call)) :
    ∃ rank : NodeId → Nat, (∀ p c, s.Reach call p → s.tree.Child p c → rank c < rank p) ∧
      ∀ operand, s.tree.Child call operand →
        Tree.HasRoom (s.Reach operand) rank s.tree.size operand := by
  obtain ⟨rank, hrank, hbound⟩ := hfaces.isClosed.exists_rank fun a _ => hforest.acyclic a
  refine ⟨rank, hrank, fun operand hchild => ⟨.refl, ?_⟩⟩
  have := hrank call operand .refl hchild
  have := hbound call .refl
  omega

/-- Another operand before or behind does not matter. -/
theorem Session.Faces.answer_eq (hforest : s.tree.IsForest) (hfaces : s.Faces scope (s.Reach call))
    (hn : s.tree.node? call = some (.call name operands)) {index : Nat} {operand : NodeId}
    (ho : operands[index]? = some operand) (hpast : s.Past t (s.Under (operands.take index))) :
    ((visitAt s.tree.size).expression scope operand t).1 =
      (Session.deriveType scope operand s).1 := by
  obtain ⟨rank, hrank, hroom⟩ := hfaces.exists_rank hforest
  have hchild : s.tree.Child call operand := ⟨_, hn, List.mem_of_getElem? ho⟩
  have hown := hforest.closed.isClosed_reach (hforest.lt_size_of_child hchild)
  have hrank' : ∀ p c, s.Reach operand p → s.tree.Child p c → rank c < rank p := fun p c hp =>
    hrank p c (.head hchild hp)
  have hsub : ∀ id, s.Under (operands.take index) id → s.Reach call id := fun id hid =>
    Session.reach_of_under (fun other hother => ⟨_, hn, List.mem_of_mem_take hother⟩) hid
  have hlater := hpast.answer_eq hfaces hown (Session.not_under_take hforest hn ho) hsub
    (fun id _ => hforest.acyclic id) hrank' (hroom operand hchild) 0
  have hrefl : s.Past s fun _ => False := .refl hfaces.grounded
  have halone := hrefl.answer_eq hfaces hown
    (fun _ _ hid => hid) (fun _ hid => hid.elim) (fun id _ => hforest.acyclic id) hrank'
    (hroom operand hchild) 1
  exact hlater.trans halone.symm

/-- One more operand is validated, when it has a type of its own. -/
theorem Session.Faces.exists_visitOperand (hforest : s.tree.IsForest) (hfinite : s.operators.IsFinite)
    (hengine : s.engine = .implicitCasts) (hfaces : s.Faces scope (s.Reach call))
    (hn : s.tree.node? call = some (.call name operands)) {index : Nat} {operand : NodeId} {type : DataType}
    (ho : operands[index]? = some operand) (hpast : s.Past t (s.Under (operands.take index)))
    (htype : (Session.deriveType scope operand s).1 = .ok type) :
    ∃ t', (visitAt s.tree.size).expression scope operand t = (.ok type, t') ∧
      s.Past t' (s.Under (operands.take (index + 1))) ∧
      s.Confined (s.Reach operand) (s.Reach operand) t t' ∧ (t'.types.get? operand).isSome = true := by
  have hchild : s.tree.Child call operand := ⟨_, hn, List.mem_of_getElem? ho⟩
  have hlt := hforest.lt_size_of_child hchild
  rw [← hfaces.answer_eq hforest hn ho hpast] at htype
  obtain ⟨hown, hnext⟩ := hpast.next hfaces (hforest.closed.isClosed_reach hlt)
    (Session.not_under_take hforest hn ho) .refl (fun id hid => .head hchild hid) s.tree.size
  have hsound := (visitAt_sound hforest hfinite hengine s.tree.size).expression scope
    hpast.confined.continues hlt .self t rfl
  have hunder : ∀ id, s.Under (operands.take index) id ∨ s.Reach operand id →
      s.Under (operands.take (index + 1)) id := by
    rw [List.take_add_one, ho]
    rintro id (hid | hid)
    · exact hid.mono fun other hother => List.mem_append_left _ hother
    · exact Session.under_of_reach (List.mem_append_right _ (List.mem_singleton.mpr rfl)) hid
  cases hstep : (visitAt s.tree.size).expression scope operand t with
  | mk r t' =>
    rw [hstep] at htype hown hnext hsound
    obtain rfl : r = .ok type := htype
    refine ⟨t', rfl, hnext.mono hunder, hown, ?_⟩
    rw [hsound.2.2]
    rfl

/-- The first operands are validated in order when each of them has a type of its own. -/
theorem Session.Faces.exists_visitOperands (hforest : s.tree.IsForest) (hfinite : s.operators.IsFinite)
    (hengine : s.engine = .implicitCasts) (hfaces : s.Faces scope (s.Reach call))
    (hn : s.tree.node? call = some (.call name operands)) {u : Session}
    (hpast : s.Past u fun _ => False) {count : Nat} (hcount : count ≤ operands.length)
    (hderives : s.TypesOperands scope signature operands count) :
    ∃ t, s.Past t (s.Under (operands.take count)) ∧ s.Confined (s.Beneath call) (s.Beneath call) u t ∧
      visitOperands (visitAt s.tree.size) scope signature 0 operands u =
        visitOperands (visitAt s.tree.size) scope signature count (operands.drop count) t ∧
      ∀ index operand, index < count → operands[index]? = some operand →
        signature.isKeyword index = false → (t.types.get? operand).isSome = true := by
  induction count with
  | zero =>
    refine ⟨u, hpast.mono fun _ hid => hid.elim, ?_, rfl, fun _ _ hi => absurd hi (Nat.not_lt_zero _)⟩
    exact .refl hpast.confined.continues hpast.confined.owned
  | succ count ih =>
    obtain ⟨t, hpast, hconfined, hrun, hrecorded⟩ :=
      ih (by omega) fun index operand hi => hderives index operand (by omega)
    have ho : operands[count]? = some operands[count] := List.getElem?_eq_getElem (by omega)
    have hdrop : operands.drop count = operands[count] :: operands.drop (count + 1) :=
      (List.getElem_cons_drop (by omega)).symm
    rw [hdrop, visitOperands] at hrun
    by_cases hkey : signature.isKeyword count = true
    -- A keyword is nothing to look at.
    · rw [if_neg (by simp [hkey])] at hrun
      refine ⟨t, hpast.mono fun id hid => hid.mono (List.take_subset_take_left _ (Nat.le_succ count)),
        hconfined, hrun, fun index operand hi hoperand hlooked => hrecorded index operand ?_ hoperand hlooked⟩
      refine Nat.lt_of_le_of_ne (Nat.le_of_lt_succ hi) ?_
      rintro rfl
      rw [hkey] at hlooked
      cases hlooked
    have hkey : signature.isKeyword count = false := by simpa using hkey
    rw [if_pos (by simp [hkey])] at hrun
    have hchild : s.tree.Child call operands[count] := ⟨_, hn, List.getElem_mem _⟩
    obtain ⟨type, htype⟩ := hderives count _ (Nat.lt_succ_self _) ho hkey
    obtain ⟨t', hstep, hnext, hown, htyped⟩ :=
      hfaces.exists_visitOperand hforest hfinite hengine hn ho hpast htype
    rw [bind_of_ok hstep] at hrun
    refine ⟨t', hnext, hconfined.trans (hown.mono (fun _ hid => .head' hchild hid)
      fun _ hid => .head' hchild hid), hrun, fun index operand hi hoperand hlooked => ?_⟩
    by_cases heq : index = count
    · subst heq
      obtain rfl := Option.some.inj (ho.symm.trans hoperand)
      exact htyped
    -- The operands before it keep their types.
    · have hchild' : s.tree.Child call operand := ⟨_, hn, List.mem_of_getElem? hoperand⟩
      rw [hown.types operand operand (hforest.lt_size_of_child hchild') ?_ .self]
      · exact hrecorded index operand (by omega) hoperand hlooked
      · refine hforest.siblings_apart hchild' hchild ?_ .refl
        rintro rfl
        obtain ⟨hb, hget⟩ := List.getElem?_eq_some_iff.mp hoperand
        have := (hforest.nodup_children hn).getElem_inj_iff.mp (hget : operands[index] = operands[count])
        omega

end

/-! ### Types that are at hand -/

section

variable {s : Session} {scope : ScopeId} {depth : Nat}

/-- The type of an operand is at hand: nobody asks for it, it is recorded, or the operand is a
    placeholder. -/
def Session.AtHand (s : Session) (signature : Signature) (index : Nat) (operand : NodeId) : Prop :=
  signature.isKeyword index = true ∨ (s.types.get? operand).isSome = true ∨
    s.tree.node? operand = some .default

/-- Types are only added. -/
theorem Session.AtHand.types {signature : Signature} {index : Nat} {operand : NodeId}
    {types : OrderedMap NodeId DataType} (h : s.AtHand signature index operand)
    (hkept : ∀ id, (s.types.get? id).isSome = true → (types.get? id).isSome = true) :
    Session.AtHand { s with types } signature index operand :=
  h.imp_right fun h => h.imp_left (hkept operand)

/-- A type that is recorded, or that of a placeholder, is found. -/
theorem exists_recorded (hdepth : 0 < depth) (scope : ScopeId) {operand : NodeId}
    (h : (s.types.get? operand).isSome = true ∨ s.tree.node? operand = some .default) :
    ∃ type types, (visitAt depth).recorded scope operand s = (.ok type, { s with types }) ∧
      ∀ id, (s.types.get? id).isSome = true → (types.get? id).isSome = true := by
  cases hrecorded : s.types.get? operand with
  | some type => exact ⟨type, s.types, recorded_of_some hrecorded, fun _ hid => hid⟩
  | none =>
    have hn := h.resolve_left (by simp [hrecorded])
    obtain ⟨depth, rfl⟩ := Nat.exists_eq_add_of_le' hdepth
    refine ⟨.any, s.types.put operand .any, ?_, fun id hid => ?_⟩
    · rw [recorded_of_none hrecorded]
      exact expressionStep_placeholder hn
    · rw [OrderedMap.get?_put]
      split
      · rfl
      · exact hid

/-- The type of an operand of a frame is found. -/
theorem CallFrame.exists_typeOf (hdepth : 0 < depth) (scope : ScopeId) {op : Operator} {f : CallFrame}
    {index : Nat} {operand : NodeId} (ho : f.operands[index]? = some operand)
    (h : f.session.AtHand op.signature index operand) :
    ∃ type types, CallFrame.typeOf (visitAt depth) scope op index f =
        (.ok type, ⟨{ f.session with types }, f.operands⟩) ∧
      ∀ id, (f.session.types.get? id).isSome = true → (types.get? id).isSome = true := by
  by_cases hkey : op.signature.isKeyword index = true
  · exact ⟨.symbol, f.session.types, typeOf_of_keyword hkey ho, fun _ hid => hid⟩
  · obtain ⟨type, types, hrun, hkept⟩ := exists_recorded hdepth scope (h.resolve_left hkey)
    refine ⟨type, types, ?_, hkept⟩
    rw [typeOf_of_operand (by simpa using hkey) ho]
    unfold CallFrame.onSession Checking.focus
    rw [hrun]

/-- The types of all operands are found. -/
theorem exists_operandTypes (hdepth : 0 < depth) (scope : ScopeId) {signature : Signature} (index : Nat)
    {operands : List NodeId} (h : ∀ k operand, operands[k]? = some operand →
      s.AtHand signature (index + k) operand) :
    ∃ types s', operandTypes (visitAt depth) scope signature index operands s = (.ok types, s') ∧
      types.length = operands.length := by
  induction operands generalizing index s with
  | nil => exact ⟨[], s, rfl, rfl⟩
  | cons operand rest ih =>
    -- The first operand, and then the others.
    obtain ⟨type, known, hone, hkept⟩ : ∃ type known,
        operandTypes (visitAt depth) scope signature index (operand :: rest) s =
            (operandTypes (visitAt depth) scope signature (index + 1) rest >>= fun types =>
              pure (type :: types)) { s with types := known } ∧
          ∀ id, (s.types.get? id).isSome = true → (known.get? id).isSome = true := by
      rw [operandTypes]
      by_cases hkey : signature.isKeyword index = true
      · simp only [if_pos hkey]
        exact ⟨.symbol, s.types, rfl, fun _ hid => hid⟩
      · simp only [if_neg hkey]
        obtain ⟨type, known, hrun, hkept⟩ :=
          exists_recorded hdepth scope ((h 0 operand rfl).resolve_left hkey)
        exact ⟨type, known, bind_of_ok hrun _, hkept⟩
    obtain ⟨types, s', hrest, hlength⟩ := ih (index + 1) (s := { s with types := known })
      fun k other hk => by
        have hother := (h (k + 1) other hk).types hkept
        rwa [show index + (k + 1) = index + 1 + k by omega] at hother
    refine ⟨type :: types, s', ?_, by simp [hlength]⟩
    rw [hone, bind_of_ok hrest]
    rfl

end

/-! ### The check of a call -/

section

variable {b : Session} {c : CallSite b} {depth : Nat} {view : View} {scope : ScopeId}
  {start : Session} {E : Fault → Prop}

/-- The operands of a frame whose types are found are at hand. -/
theorem CallSite.Held.atHand {f : CallFrame} (h : c.Held depth view scope start f) {index : Nat}
    {operand : NodeId} (ho : f.operands[index]? = some operand) :
    f.session.AtHand c.op.signature index operand := by
  by_cases hkey : c.op.signature.isKeyword index = true
  · exact .inl hkey
  rcases h.1.tracks.operand index operand ho with ⟨a, ha, -, -⟩ | ⟨-, -, hdefault⟩
  · obtain ⟨type, htype, -⟩ := h.2.operand trivial ⟨by simpa using hkey, ha⟩ ho
    exact .inr (.inl (by rw [htype]; rfl))
  · exact .inr (.inr hdefault)

/-- Where operands may be converted, the standard engine converts those of a call without a fault. -/
theorem CallSite.Held.guards_check (hforest : b.tree.IsForest) (hfinite : b.operators.IsFinite)
    (hengine : b.engine = .implicitCasts) (hcoercion : b.settings.coercion = true)
    (hspares : view.Spares (b.StrictlyBelow c.call)) (hdepth : 0 < depth)
    (hE : ∀ e, c.op.Refuses e → E e) :
    (c.op.signature.check (CallFrame.view (visitAt depth) scope c.call c.op b.settings
      .implicitCasts)).Guards (c.Held depth view scope start) E := by
  have hsound := visitAt_sound hforest hfinite hengine depth
  have htype : ∀ index, index < c.op.signature.shownCount c.written.length →
      (CallFrame.typeOf (visitAt depth) scope c.op index).Guards (c.Held depth view scope start) E := by
    intro index hi f hf
    have hkept := CallSite.keeps_typeOf hforest hsound index f hf
    rw [← hf.1.count] at hi
    have ho : f.operands[index]? = some f.operands[index] := List.getElem?_eq_getElem hi
    obtain ⟨type, types, hrun, -⟩ := CallFrame.exists_typeOf hdepth scope ho (hf.atHand ho)
    unfold Runs
    rw [hrun] at hkept ⊢
    exact ⟨hkept, trivial⟩
  have hview : (CallFrame.view (visitAt depth) scope c.call c.op b.settings .implicitCasts).Guards
      (c.Held depth view scope start) E (· < c.op.signature.shownCount c.written.length)
        c.SparesKeywords := by
    refine ⟨fun f index hf hi => ?_, htype, fun _ types positions hasked => ?_,
      fun actual allowed => hE _ (.inl ⟨actual, allowed, rfl⟩), fun index => hE _ (.inr ⟨index, rfl⟩)⟩
    · rw [← hf.1.count]
      exact hi
    · refine CallView.guards_coerce (CallView.guards_signatureText _ (fun f index hf hi => ?_) htype)
        (fun request f hf => ?_) (CallView.guards_run_implicitCasts
          fun index source family target hget himplicit => ?_)
      · rw [← hf.1.count]
        exact hi
      · have hw := CallSite.within_requests hf.1.within.continues
          (f.session.requests ++ [request])
        exact ⟨hf.1.untouched hforest hw, hf.2.untouched hforest hf.1.toFollows
          (hw.mono (fun _ h => h) fun _ h => h.elim) (.of_same rfl rfl)⟩
      · obtain ⟨-, hfamily⟩ := List.getElem?_zip_eq_some.mp hget
        rw [Nat.zero_add]
        refine CallSite.guards_castTo hforest hfinite hengine hcoercion hspares index target
          (Bool.eq_false_iff.mpr fun hkey => ?_)
        -- A keyword has no conversion.
        obtain ⟨hi, -⟩ := List.getElem?_eq_some_iff.mp hfamily
        rw [hasked index hkey hi] at hfamily
        cases hfamily
        rw [CallView.implicitCast?_ignore] at himplicit
        cases himplicit
  refine hview.check c.op.signature fun positions omittable hmem f _ _ => ?_
  exact fun _ hkey hi => Signature.ignore_of_isKeyword hkey hmem hi

/-- The frame of a call in which no operand is cast. -/
structure CallFrame.Typed (op : Operator) (tree : Tree) (all : List NodeId) (f : CallFrame) : Prop where
  tree : f.session.tree = tree
  operands : f.operands = all
  atHand : ∀ index operand, all[index]? = some operand → f.session.AtHand op.signature index operand

/-- Where operands must not be converted, a check looks at types that are at hand. -/
theorem CallFrame.Typed.guards_check {op : Operator} {tree : Tree} {all : List NodeId} {call : NodeId}
    {settings : Settings} {engine : CoercionEngine} (hcoercion : settings.coercion = false)
    (hdepth : 0 < depth) (hE : ∀ e, op.Refuses e → E e) :
    (op.signature.check (CallFrame.view (visitAt depth) scope call op settings engine)).Guards
      (CallFrame.Typed op tree all) E := by
  have hview : (CallFrame.view (visitAt depth) scope call op settings engine).Guards
      (CallFrame.Typed op tree all) E (· < all.length) fun _ => True := by
    refine ⟨fun f index hf hi => ?_, fun index hi f hf => ?_, fun htrue => ?_,
      fun actual allowed => hE _ (.inl ⟨actual, allowed, rfl⟩), fun index => hE _ (.inr ⟨index, rfl⟩)⟩
    · rw [← hf.operands]
      exact hi
    · have ho : all[index]? = some all[index] := List.getElem?_eq_getElem hi
      obtain ⟨type, types, hrun, hkept⟩ := CallFrame.exists_typeOf hdepth scope
        (hf.operands ▸ ho : f.operands[index]? = _) (hf.atHand index _ ho)
      unfold Runs
      have hrun : (CallFrame.view (visitAt depth) scope call op settings engine).typeOf index f =
        (.ok type, ⟨{ f.session with types }, f.operands⟩) := hrun
      rw [hrun]
      exact ⟨⟨hf.tree, hf.operands, fun k operand hk => (hf.atHand k operand hk).types hkept⟩, trivial⟩
    · have htrue : settings.coercion = true := htrue
      rw [hcoercion] at htrue
      cases htrue
  exact hview.check op.signature fun _ _ _ _ _ _ => trivial

end

/-! ### The fault of a call -/

/-- A call has as many operands as were written, and their types are at hand. -/
def Session.HasOperands (s : Session) (signature : Signature) (call : NodeId) (count : Nat) : Prop :=
  ∃ current, s.tree.operands? call = some current ∧ current.length = count ∧
    ∀ index operand, current[index]? = some operand → s.AtHand signature index operand

section

variable {s s₁ s₂ : Session} {scope : ScopeId} {call : NodeId} {name : String} {op : Operator}
  {operands all : List NodeId} {depth : Nat} {e : Fault}

/-- What comes of a call comes of its operator and its operands. -/
theorem Session.deriveType_call (hn : s.tree.node? call = some (.call name operands)) :
    (Session.deriveType scope call s).1 =
      (callType (visitAt s.tree.size) scope call name operands s).1 := by
  show (expressionStep (visitAt s.tree.size) scope call s).1 = _
  rw [expressionStep_call hn, bind_apply]
  cases callType (visitAt s.tree.size) scope call name operands s with
  | mk r s' => cases r <;> rfl

variable (hop : s.operators.lookup? name = some op) (hadmits : op.arity.admits operands.length = true)
  (hpad : padded op.signature operands s = (.ok all, s₁))

include hop hadmits hpad

/-- The fault of an operand is that of the call. -/
theorem callType_of_refused {v : Visit}
    (hvisit : (visitOperands v scope op.signature 0 operands s₁).1 = .error e) :
    (callType v scope call name operands s).1 = .error e := by
  rw [callType_of_padded hop hadmits hpad]
  cases hr : visitOperands v scope op.signature 0 operands s₁ with
  | mk r s' =>
    rw [hr] at hvisit
    obtain rfl : r = .error e := hvisit
    rw [bind_of_error hr]

/-- Once the operands have types, only the check can refuse the call. -/
theorem refuses_of_callType (hreturns : s.operators.ReturnsOperands) (hdepth : 0 < depth)
    (hvisit : visitOperands (visitAt depth) scope op.signature 0 operands s₁ = (.ok (), s₂))
    (hcheck : Runs (fun _ s' => s'.HasOperands op.signature call operands.length) op.Refuses s₂
      (checkCall (visitAt depth) scope call op all) fun _ _ => True)
    (he : (callType (visitAt depth) scope call name operands s).1 = .error e) : op.Refuses e := by
  rw [callType_of_padded hop hadmits hpad, bind_of_ok hvisit] at he
  cases hr : checkCall (visitAt depth) scope call op all s₂ with
  | mk r s₃ =>
    cases r with
    | error fault =>
      rw [bind_of_error hr] at he
      cases he
      exact (hcheck.of_error hr).2
    -- A type is inferred from the operands as they are now.
    | ok answer =>
      obtain ⟨⟨current, hcurrent, hlength, hhand⟩, -⟩ := hcheck.of_ok hr
      obtain ⟨types, s₄, htypes, hcount⟩ := exists_operandTypes hdepth scope 0 fun k operand hk => by
        rw [Nat.zero_add]
        exact hhand k operand hk
      obtain ⟨type, htype⟩ := (ReturnRule.infer_isOk_iff types op.returns).mpr fun index hsource => by
        have hleast := (Arity.admits_iff.mp hadmits).1
        have := hreturns name op index hop hsource
        omega
      rw [bind_of_ok hr, bind_of_ok (state_apply s₃), hcurrent] at he
      simp only [Option.getD_some] at he
      rw [bind_of_ok htypes, htype] at he
      cases he

end

section

variable {s s₁ s₂ : Session} {scope : ScopeId} {call : NodeId} {name : String} {op : Operator}
  {operands all : List NodeId} {e : Fault}

/-- Adding placeholders touches no part of the statement. -/
theorem Session.Grounded.past_padded (hs : s.Grounded)
    (hpad : padded op.signature operands s = (.ok all, s₁)) : s.Past s₁ fun _ => False := by
  rw [padded_apply] at hpad
  split at hpad
  · cases hpad
    exact .refl hs
  · cases hpad
    obtain ⟨hgrown, hclosed⟩ := hs.continues.rewrites.rewritten.push_default hs.closed
    refine .of_within ⟨⟨⟨hgrown, hclosed⟩, rfl, rfl, rfl, fun id hid => ?_⟩, Tree.keepsAdded_push _ _,
      fun id hid _ => ?_, fun _ _ _ _ _ => rfl⟩ hs.owned rfl rfl
    · have := hs.recorded id hid
      simp only [Tree.size_push]
      omega
    · rw [Tree.node?_push, if_neg (Tree.ne_nextId_of_lt hid)]

variable (hforest : s.tree.IsForest) (hfinite : s.operators.IsFinite)
  (hengine : s.engine = .implicitCasts) (hfaces : s.Faces scope (s.Reach call))
  (hn : s.tree.node? call = some (.call name operands)) (hop : s.operators.lookup? name = some op)
  (hpad : padded op.signature operands s = (.ok all, s₁))

include hforest hfinite hengine hfaces hn hop hpad

/-- Where operands may be converted, a check whose operands have types refuses them or leaves them with
    types. -/
theorem Session.Faces.runs_checkCall_converting (hcoercion : s.settings.coercion = true)
    (hplain : s.Plain call)
    (hvisit : visitOperands (visitAt s.tree.size) scope op.signature 0 operands s₁ = (.ok (), s₂)) :
    Runs (fun _ s' => s'.HasOperands op.signature call operands.length) op.Refuses s₂
      (checkCall (visitAt s.tree.size) scope call op all) fun _ _ => True := by
  let c : CallSite s := ⟨call, name, operands, op, hn, hop⟩
  have hdepth : 0 < s.tree.size := Nat.zero_lt_of_lt (Tree.lt_size_of_node? hn)
  obtain ⟨view, hsees, hspares⟩ := hfaces.exists_view
  have hspares : view.Spares (s.StrictlyBelow c.call) := hspares.mono fun _ hid => hid.below.child
  have hheld := CallSite.held_of_visitOperands (c := c) hforest hfinite hengine
    (Session.settlesParts hforest hfinite hengine hcoercion s.tree.size).2 hfaces.grounded.continues hn
    hsees hspares hplain hpad hvisit
  have hend := CallSite.Held.guards_check (E := op.Refuses) hforest hfinite hengine hcoercion hspares hdepth
    (fun _ he => he) ⟨s₂, all⟩ hheld
  have hkept : ∀ f : CallFrame, c.Held s.tree.size view scope s f →
      f.session.HasOperands op.signature call operands.length := by
    intro f hf
    refine ⟨f.operands.take operands.length, ?_, ?_, fun index operand ho => ?_⟩
    · have hsynced : f.session.tree.node? call = some (.call name (f.operands.take operands.length)) :=
        hf.1.synced
      simp [Tree.operands?, hsynced, Node.operands?]
    · rw [List.length_take, Nat.min_eq_left (CallSite.written_length_le hf.1.toFollows)]
    · rw [List.getElem?_take] at ho
      split at ho
      · exact hf.atHand ho
      · cases ho
  refine Runs.checkCall (Q := fun _ _ => True) ?_ hkept
  rw [Host.session_self, hheld.1.within.continues.settings, hheld.1.within.continues.engine, hengine]
  exact hend

omit hfinite hengine in
/-- Where operands must not be converted, a check refuses them or leaves them as they are. -/
theorem Session.Faces.runs_checkCall_strict (hcoercion : s.settings.coercion = false)
    (hpast : s.Past s₂ (s.Under operands)) (hconfined : s.Confined (s.Beneath call) (s.Beneath call) s₁ s₂)
    (hrecorded : ∀ index operand, operands[index]? = some operand →
      op.signature.isKeyword index = false → (s₂.types.get? operand).isSome = true) :
    Runs (fun _ s' => s'.HasOperands op.signature call operands.length) op.Refuses s₂
      (checkCall (visitAt s.tree.size) scope call op all) fun _ _ => True := by
  let c : CallSite s := ⟨call, name, operands, op, hn, hop⟩
  have hdepth : 0 < s.tree.size := Nat.zero_lt_of_lt (Tree.lt_size_of_node? hn)
  obtain ⟨hfollows, htake⟩ := CallSite.follows_padded (c := c) hfaces.grounded.continues hn hpad
  have htake : operands = all.take operands.length := htake
  have hcall : s₂.tree.node? call = some (.call name operands) := by
    rw [hconfined.node? call (Tree.lt_size_of_node? hn) (hforest.acyclic call)]
    have hsynced : s₁.tree.node? call = some (.call name (all.take operands.length)) := hfollows.synced
    rw [hsynced, ← htake]
  have hhand : ∀ index operand, all[index]? = some operand → s₂.AtHand op.signature index operand := by
    intro index operand ho
    rcases hfollows.tracks.operand index operand ho with ⟨a, ha, -, -⟩ | ⟨-, hnew, hdefault⟩
    · obtain ⟨hi, -⟩ := List.getElem?_eq_some_iff.mp ha
      have ho' : operands[index]? = some operand := by
        rw [htake, List.getElem?_take_of_lt hi]
        exact ho
      by_cases hkey : op.signature.isKeyword index = true
      · exact .inl hkey
      · exact .inr (.inl (hrecorded index operand ho' (by simpa using hkey)))
    -- A placeholder stays one.
    · refine .inr (.inr ?_)
      rw [hconfined.added.node? operand hnew (Tree.lt_size_of_node? hdefault)]
      exact hdefault
  have hsettings : s₂.settings.coercion = false := by
    rw [hpast.confined.continues.settings]
    exact hcoercion
  have hguards : (op.signature.check (CallFrame.view (visitAt s.tree.size) scope call op s₂.settings
      s₂.engine)).Guards (CallFrame.Typed op s₂.tree all) op.Refuses :=
    CallFrame.Typed.guards_check hsettings hdepth fun _ he => he
  have hend := hguards ⟨s₂, all⟩ ⟨rfl, rfl, hhand⟩
  have hkept : ∀ f : CallFrame, CallFrame.Typed op s₂.tree all f →
      f.session.HasOperands op.signature call operands.length := by
    intro f hf
    refine ⟨operands, ?_, rfl, fun index operand ho => hf.atHand index operand ?_⟩
    · simp [Tree.operands?, hf.tree, hcall, Node.operands?]
    · rw [htake] at ho
      rw [List.getElem?_take] at ho
      split at ho
      · exact ho
      · cases ho
  exact hend.checkCall hkept

end

/-- A call in a forest is refused for what is wrong with it. -/
theorem Session.Faces.blamesRightly {s : Session} {scope : ScopeId} {call : NodeId} {name : String}
    {operands : List NodeId} (hforest : s.tree.IsForest) (hfinite : s.operators.IsFinite)
    (hreturns : s.operators.ReturnsOperands) (hengine : s.engine = .implicitCasts)
    (hfaces : s.Faces scope (s.Reach call)) (hplain : s.Plain call)
    (hn : s.tree.node? call = some (.call name operands)) :
    s.BlamesRightly scope call name operands where
  unknown hop := by
    rw [Session.deriveType_call hn, callType_of_unknown hop]
  count op hop hadmits := by
    rw [Session.deriveType_call hn, callType_of_not_admits hop hadmits]
  operand op index operand e hop hadmits hderives ho hkey he := by
    rw [Session.deriveType_call hn]
    obtain ⟨all, s₁, hpad⟩ := exists_padded op.signature operands s
    obtain ⟨hi, -⟩ := List.getElem?_eq_some_iff.mp ho
    obtain ⟨t, hpast, -, hrun, -⟩ := hfaces.exists_visitOperands hforest hfinite hengine hn
      (hfaces.grounded.past_padded hpad) (Nat.le_of_lt hi) hderives
    refine callType_of_refused hop hadmits hpad ?_
    have hdrop : operands.drop index = operand :: operands.drop (index + 1) := by
      rw [List.drop_eq_getElem?_toList_append, ho]
      rfl
    rw [hrun, hdrop, visitOperands, if_pos (by simp [hkey])]
    rw [← hfaces.answer_eq hforest hn ho hpast] at he
    cases hstep : (visitAt s.tree.size).expression scope operand t with
    | mk r t' =>
      rw [hstep] at he
      obtain rfl : r = .error e := he
      rw [bind_of_error hstep]
  own op e hop hadmits hderives he := by
    rw [Session.deriveType_call hn] at he
    obtain ⟨all, s₁, hpad⟩ := exists_padded op.signature operands s
    obtain ⟨t, hpast, hconfined, hrun, hrecorded⟩ := hfaces.exists_visitOperands hforest hfinite hengine
      hn (hfaces.grounded.past_padded hpad) (Nat.le_refl _) hderives
    rw [List.drop_length] at hrun
    rw [List.take_length] at hpast
    have hvisit : visitOperands (visitAt s.tree.size) scope op.signature 0 operands s₁ = (.ok (), t) :=
      hrun
    refine refuses_of_callType hop hadmits hpad hreturns
      (Nat.zero_lt_of_lt (Tree.lt_size_of_node? hn)) hvisit ?_ he
    cases hcoercion : s.settings.coercion with
    | true =>
      exact hfaces.runs_checkCall_converting hforest hfinite hengine hn hop hpad hcoercion hplain hvisit
    | false =>
      refine hfaces.runs_checkCall_strict hforest hn hop hpad hcoercion hpast hconfined
        fun index operand ho hkey => ?_
      obtain ⟨hi, -⟩ := List.getElem?_eq_some_iff.mp ho
      exact hrecorded index operand hi ho hkey

/-! ### The rest of the statement -/

namespace Session.Faces

variable {s : Session} {scope : ScopeId} {call : NodeId} (h : s.Faces scope (s.Reach call))

include h

/-- What does not lie below the call does not matter to what is below it. -/
theorem deriveType_prune (hacyclic : ∀ id, s.Reach call id → ¬ Relation.TransGen s.tree.Child id id)
    {a : NodeId} (ha : s.Reach call a) :
    (Session.deriveType scope a { s with tree := s.tree.prune (s.Reach call) }).1 =
      (Session.deriveType scope a s).1 := by
  obtain ⟨rank, hrank, hbound⟩ := h.isClosed.exists_rank hacyclic
  have hrefl : s.Past s fun _ => False := .refl h.grounded
  have hbeside := hrefl.beside h h.isClosed (fun _ _ hid => hid) fun _ hid => hid.elim
  have hρ := hbeside.suits hacyclic hrank
  have hm := hbeside.mirrors
  have htree : Tree.Mirrors hbeside.renumbering.nodes (s.Reach call) s.tree
      (s.tree.prune (s.Reach call)) := by
    have hsame := Tree.Mirrors.of_kept h.isClosed
      (Nat.le_of_eq (Tree.size_prune s.tree (s.Reach call)).symm) fun id hid => Tree.node?_prune hid
    rwa [Tree.size_prune] at hsame
  have hroom : Tree.HasRoom (s.Reach call) rank s.maxDepth a :=
    ⟨ha, Nat.succ_le_succ (hbound a ha)⟩
  have hend := (visitAt_mirrors (N := ⟨s.tree, [], s.settings.matching⟩) hρ s.maxDepth 0).expression
    (t := { s with tree := s.tree.prune (s.Reach call) })
    ⟨.refl h.grounded.continues.rewrites, h.grounded.owned⟩
    (hm.withTree htree)
    (.inl ⟨a, hroom, .self⟩)
    (show s.scopes.Visible hbeside.renumbering.scopes scope from
      ⟨.inl (s.scopes.self_mem_chain scope), h.lt_size⟩)
    fun _ _ _ => .inl rfl
  rw [hbeside.scope_eq h.lt_size, hρ.node_eq ha] at hend
  have hdepth : Session.maxDepth { s with tree := s.tree.prune (s.Reach call) } = s.maxDepth + 0 :=
    congrArg (· + 1) (Tree.size_prune s.tree (s.Reach call))
  unfold Session.deriveType
  rw [hdepth]
  exact hend.answer_eq

/-- The scope faces the call also when everything else is cut. -/
theorem pruned (htree : s.tree.IsTreeAt call) :
    Session.Faces { s with tree := s.tree.prune (s.Reach call) } scope
      (Session.Reach { s with tree := s.tree.prune (s.Reach call) } call) := by
  have hforest := htree.isForest_prune h.isClosed
  have hcall : call.index < (s.tree.prune (s.Reach call)).size := by
    rw [Tree.size_prune]
    exact h.isClosed.lt_size call .refl
  have hreach : ∀ id, Session.Reach { s with tree := s.tree.prune (s.Reach call) } call id →
      s.Reach call id := fun id hid => (Tree.reach_prune h.isClosed .refl).mp hid
  refine ⟨⟨hforest.closed, fun id hid => ?_, h.grounded.owned, h.grounded.nested, h.grounded.root⟩,
    ⟨h.linked.owned, h.linked.rooted, h.linked.shown, h.linked.bound⟩,
    hforest.closed.isClosed_reach hcall, h.lt_size, fun id hmem around haround => ?_,
    fun item hitem => h.unseen item (hreach item hitem)⟩
  · show id.index < (s.tree.prune (s.Reach call)).size
    rw [Tree.size_prune]
    exact h.grounded.recorded id hid
  · exact (h.hidden id hmem around haround).imp fun item hnot hitem => hnot (hreach item hitem)

end Session.Faces

/-- Whatever a session has been asked for, a call that is a tree, without recursive WITH items in it, is
    refused for what is wrong with it: its operator is not known, it has too few or too many operands, its
    leftmost operand without a type has a fault, or else its own operator refuses the operands. It may be
    typed in any scope that shows none of the WITH items inside the call itself. Which other nodes there are
    in the statement does not matter. -/
theorem Session.Reached.blames {settings : Settings} {tree : Tree} {operators : OperatorTable}
    {s : Session} {scope : ScopeId} {call : NodeId} {name : String} {operands : List NodeId}
    (h : Session.Reached { settings, tree, operators } s) (hclosed : tree.NoDangling)
    (hfinite : operators.IsFinite) (hreturns : operators.ReturnsOperands)
    (hscope : scope.index < s.scopes.size) (hn : s.tree.node? call = some (.call name operands))
    (htree : s.tree.IsTreeAt call)
    (hplain : ∀ item w, Relation.ReflTransGen s.tree.Child call item →
      s.tree.node? item = some (.withItem w) → w.recursive = false)
    (houter : ∀ id ∈ s.scopes.chain scope, ∀ around, s.scopes.get? id = some around →
      around.role.ShowsOnly fun item => ¬ Relation.ReflTransGen s.tree.Child call item) :
    s.BlamesRightly scope call name operands := by
  have hs := h.grounded hclosed
  have hsetup := h.setUpAs hclosed
  have hfaces : s.Faces scope (s.Reach call) := by
    refine ⟨hs, h.linked hclosed, hs.closed.isClosed_reach (Tree.lt_size_of_node? hn), hscope, houter,
      fun item hitem => Option.eq_none_iff_forall_ne_some.mpr fun view hview => ?_⟩
    obtain ⟨w, hw, hrecursive⟩ := h.isRecursive hclosed item view hview
    rw [hplain item w hitem hw] at hrecursive
    cases hrecursive
  -- Everything but the call is cut, so that the statement is a forest.
  have hcut : Session.BlamesRightly { s with tree := s.tree.prune (s.Reach call) } scope call name
      operands := by
    refine Session.Faces.blamesRightly (htree.isForest_prune hfaces.isClosed) ?_ ?_ ?_
      (hfaces.pruned htree) ?_
      ((Tree.node?_prune .refl).trans hn)
    · show s.operators.IsFinite
      rw [hsetup.operators]
      exact hfinite
    · show s.operators.ReturnsOperands
      rw [hsetup.operators]
      exact hreturns
    · exact hsetup.engine
    · intro item w hbelow hitem
      have hreach : s.Reach call item := (Tree.reach_prune hfaces.isClosed .refl).mp hbelow.child
      exact hplain item w hreach ((Tree.node?_prune hreach).symm.trans hitem)
  have hcall := hfaces.deriveType_prune htree.acyclic .refl
  have hoperand : ∀ {index operand}, operands[index]? = some operand →
      (Session.deriveType scope operand { s with tree := s.tree.prune (s.Reach call) }).1 =
        (Session.deriveType scope operand s).1 := fun ho =>
    hfaces.deriveType_prune htree.acyclic (.single ⟨_, hn, List.mem_of_getElem? ho⟩)
  have hderives : ∀ {signature count}, s.TypesOperands scope signature operands count →
      Session.TypesOperands { s with tree := s.tree.prune (s.Reach call) } scope signature operands
        count := by
    intro signature count hd index operand hi ho hkey
    rw [hoperand ho]
    exact hd index operand hi ho hkey
  refine ⟨fun hop => ?_, fun op hop hadmits => ?_, fun op index operand e hop hadmits hd ho hkey he => ?_,
    fun op e hop hadmits hd he => ?_⟩
  · rw [← hcall]
    exact hcut.unknown hop
  · rw [← hcall]
    exact hcut.count op hop hadmits
  · rw [← hcall]
    exact hcut.operand op index operand e hop hadmits (hderives hd) ho hkey ((hoperand ho).trans he)
  · exact hcut.own op e hop hadmits (hderives hd) (hcall.trans he)

/-- `UPPER(B)` and `UPPER(5)`. -/
def Tree.twoCalls : Tree :=
  (((({} : Tree).push (.identifier ["B"])).push (.call "UPPER" [⟨0⟩])).push
    (.literal (.integer 5))).push (.call "UPPER" [⟨2⟩])

/-- Where operands must not be converted, both calls are refused: the first one as there is no column `B`,
    the second one by `UPPER`. -/
theorem Session.Reached.blames_twoCalls :
    let s : Session := { settings := { coercion := false }, tree := .twoCalls }
    (Session.deriveType ScopeTree.rootId ⟨1⟩ s).1 = .error (.columnNotFound "B") ∧
      ∃ op e, s.operators.lookup? "UPPER" = some op ∧
        (Session.deriveType ScopeTree.rootId ⟨3⟩ s).1 = .error e ∧ op.Refuses e := by
  intro s
  have hforest : Tree.twoCalls.IsForest := .of_ordered (by decide) (by decide) (by decide)
  have hreached : Session.Reached { settings := { coercion := false }, tree := .twoCalls } s := .start
  have hplain : ∀ item w, s.tree.node? item ≠ some (.withItem w) := by
    intro item w hitem
    have hkind : ∀ e ∈ Tree.twoCalls.entries.toList, e.node.kind ≠ "with item" := by decide
    obtain ⟨e, he, hnode⟩ := Option.map_eq_some_iff.mp hitem
    refine hkind e (Array.mem_toList_iff.mpr (Array.mem_of_getElem? he)) ?_
    rw [hnode]
    rfl
  have houter : ∀ call, ∀ id ∈ s.scopes.chain ScopeTree.rootId, ∀ around,
      s.scopes.get? id = some around →
        around.role.ShowsOnly fun item => ¬ Relation.ReflTransGen s.tree.Child call item := by
    intro call id hid around haround
    obtain rfl : id = ScopeTree.rootId := List.mem_singleton.mp hid
    cases haround
    trivial
  obtain ⟨op, hop, hadmits, hkey⟩ : ∃ op, s.operators.lookup? "UPPER" = some op ∧
      op.arity.admits 1 = true ∧ op.signature.isKeyword 0 = false :=
    ⟨_, rfl, by decide, by decide⟩
  constructor
  · have hblames := hreached.blames hforest.closed OperatorTable.isFinite_standard
      OperatorTable.standard_returnsOperands Nat.one_pos rfl (hforest.isTreeAt ⟨1⟩)
      (fun item w _ hitem => absurd hitem (hplain item w)) (houter _)
    exact hblames.operand op 0 ⟨0⟩ _ hop hadmits (fun _ _ hi => absurd hi (Nat.not_lt_zero _)) rfl hkey
      (by decide +kernel)
  · have hblames := hreached.blames hforest.closed OperatorTable.isFinite_standard
      OperatorTable.standard_returnsOperands Nat.one_pos rfl (hforest.isTreeAt ⟨3⟩)
      (fun item w _ hitem => absurd hitem (hplain item w)) (houter _)
    have hderived : (Session.deriveType ScopeTree.rootId ⟨2⟩ s).1 = .ok (.notNull .integer) := by
      decide +kernel
    have hfault : ∃ e, (Session.deriveType ScopeTree.rootId ⟨3⟩ s).1 = .error e := by
      have hrefused : (Session.deriveType ScopeTree.rootId ⟨3⟩ s).1.isOk = false := by decide +kernel
      cases hr : (Session.deriveType ScopeTree.rootId ⟨3⟩ s).1 with
      | error e => exact ⟨e, rfl⟩
      | ok type =>
        rw [hr] at hrefused
        cases hrefused
    obtain ⟨e, he⟩ := hfault
    refine ⟨op, e, hop, he, hblames.own op e hop hadmits (fun index operand hi ho _ => ?_) he⟩
    obtain rfl : index = 0 := Nat.lt_one_iff.mp hi
    cases ho
    exact ⟨_, hderived⟩

/-- The statement `WITH W AS (SELECT * FROM W) SELECT 1 AS k`, and the call
    `F(G(CURSOR(SELECT x FROM W), CURSOR(..)))`, whose second cursor is that query. -/
def Tree.ownItem : Tree :=
  ((((((((((((({} : Tree).push (.identifier ["x"])).push (.tableRef ["W"] none)).push
    (.select { items := [.expression ⟨0⟩ none], sources := [⟨1⟩], condition := none })).push
    (.cursor ⟨2⟩)).push (.tableRef ["W"] none)).push
    (.select { items := [.star], sources := [⟨4⟩], condition := none })).push
    (.withItem { name := ["W"], columns := none, query := ⟨5⟩, recursive := false })).push
    (.literal (.integer 1))).push
    (.select { items := [.expression ⟨7⟩ (some "k")], sources := [], condition := none })).push
    (.withQuery [⟨6⟩] ⟨8⟩)).push (.cursor ⟨9⟩)).push (.call "G" [⟨3⟩, ⟨10⟩])).push (.call "F" [⟨11⟩])

/-- `G(CURSOR, CURSOR)` with type INTEGER, and `F(CHARACTER)`, which has the type of its operand. -/
def OperatorTable.ownItem : OperatorTable :=
  OperatorTable.empty.registerAll
    [⟨"G", .required [.cursor, .cursor], .fixed (.notNull .integer)⟩,
      ⟨"F", .required [.character], .operand 0⟩]

/-- The operand `G(..)` has a type in the scope that shows the item `W` of the call itself, but the call is
    refused for the column `x`, as validating `W` once more changes what the scope shows, and `G(..)` is
    validated again in a cast. So the fault of a call need not be its own in every scope. -/
theorem Session.BlamesRightly.fails_ownItem :
    let start : Session := { tree := .ownItem, operators := .ownItem }
    let row : DataType := .row [("x", .notNull .varchar)]
    let s := ((Session.Request.validateQuery ⟨9⟩).perform
      ((Session.Request.addTable ["W"] row).perform start).2).2
    Session.Reached start s ∧ Tree.ownItem.NoDangling ∧ start.operators.IsFinite ∧
      start.operators.ReturnsOperands ∧ 2 < s.scopes.size ∧
      s.tree.node? ⟨12⟩ = some (.call "F" [⟨11⟩]) ∧ s.tree.IsForest ∧
      (∀ item w, s.tree.node? item = some (.withItem w) → w.recursive = false) ∧
      ¬ s.BlamesRightly ⟨2⟩ ⟨12⟩ "F" [⟨11⟩] := by
  intro start row s
  have hforest : Tree.ownItem.IsForest := .of_ordered (by decide) (by decide) (by decide)
  have hsame : s.tree = Tree.ownItem := by decide +kernel
  have hadded : Session.Reached start ((Session.Request.addTable ["W"] row).perform start).2 :=
    .request .start trivial
  have hreached : Session.Reached start s := hadded.request (show _ < Tree.size _ by decide +kernel)
  have hsize : 2 < s.scopes.size := by decide +kernel
  have hderived : (Session.deriveType ⟨2⟩ ⟨11⟩ s).1 = .ok (.notNull .integer) := by decide +kernel
  have hfault : (Session.deriveType ⟨2⟩ ⟨12⟩ s).1 = .error (.columnNotFound "x") := by decide +kernel
  -- Only these facts are used of what the two requests leave.
  clear_value s
  have hoperators : s.operators = OperatorTable.ownItem := (hreached.setUpAs hforest.closed).operators
  refine ⟨hreached, hforest.closed, .registerAll (fun _ _ h => by cases h) (by decide),
    OperatorTable.returnsOperands_of_entries (by decide), hsize, by rw [hsame]; rfl, hsame ▸ hforest,
    fun item w hitem => ?_, fun hblames => ?_⟩
  · rw [hsame] at hitem
    have hitems : ∀ e ∈ Tree.ownItem.entries.toList,
        e.node = .withItem { name := ["W"], columns := none, query := ⟨5⟩, recursive := false } ∨
          e.node.kind ≠ "with item" := by
      decide
    obtain ⟨e, he, hnode⟩ := Option.map_eq_some_iff.mp hitem
    rcases hitems e (Array.mem_toList_iff.mpr (Array.mem_of_getElem? he)) with hitem | hkind
    · rw [hnode] at hitem
      cases hitem
      rfl
    · rw [hnode] at hkind
      exact absurd rfl hkind
  · have hop : s.operators.lookup? "F" = some ⟨"F", .required [.character], .operand 0⟩ := by
      rw [hoperators]
      rfl
    have hrefuses : Operator.Refuses ⟨"F", .required [.character], .operand 0⟩ (.columnNotFound "x") := by
      refine hblames.own _ _ hop (by decide) (fun index operand hi ho _ => ?_) hfault
      obtain rfl : index = 0 := Nat.lt_one_iff.mp hi
      cases ho
      exact ⟨_, hderived⟩
    rcases hrefuses with ⟨_, _, hnone⟩ | ⟨_, hnone⟩
    · cases hnone
    · cases hnone

end SqlTyping
