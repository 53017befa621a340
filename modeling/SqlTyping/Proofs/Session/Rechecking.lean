import SqlTyping.Proofs.Guarding
import SqlTyping.Proofs.Session.Settling
import SqlTyping.Proofs.Signature.Looking

namespace SqlTyping

/-!
# Calls that can be validated again

A call that has been accepted fits as it stands in the end, and the types of its operands are settled.
Validated once more, its operands get the same types, its check looks at them and converts nothing,
and its type is the same (`CallSite.typesCore`):

* `CallSite.Typed` — operands have types that are recorded and settled, and what could be seen from
  the scope of the call can still be seen;
* `CallSite.guards_castTo` — a cast around an operand with a settled type always has a type;
* `CallSite.keeps_check` — the check of the call keeps operands typed, casts included;
* `CallSite.exists_visitOperands` — the operands of an accepted call are validated once more;
* `CallSite.accepts_again` — they fit as they stand, also where operands must not be converted.
-/

open Checking

/-- Looking at a placeholder leaves the scopes and the row sources alone. -/
theorem leaves_placeholder (own : NodeId → Prop) (depth : Nat) (scope : ScopeId) {id : NodeId}
    {s : Session} (hn : s.tree.node? id = some .default) :
    s.Leaves own ((visitAt depth).expression scope id s).2 := by
  cases depth with
  | zero => exact .refl s
  | succ depth =>
    show s.Leaves own (expressionStep (visitAt depth) scope id s).2
    rw [expressionStep_placeholder hn]
    exact .of_same rfl rfl

/-- What a call with a type has come through. -/
theorem exists_of_callType {v : Visit} {scope : ScopeId} {call : NodeId} {name : String} {op : Operator}
    {operands : List NodeId} {s s' : Session} {type : DataType}
    (hop : s.operators.lookup? name = some op)
    (h : callType v scope call name operands s = (.ok type, s')) :
    op.arity.admits operands.length = true ∧ ∃ all s₁ s₂ answer s₃ types,
      padded op.signature operands s = (.ok all, s₁) ∧
      visitOperands v scope op.signature 0 operands s₁ = (.ok (), s₂) ∧
      checkCall v scope call op all s₂ = (.ok answer, s₃) ∧
      operandTypes v scope op.signature 0 ((s₃.tree.operands? call).getD []) s₃ = (.ok types, s') ∧
      op.returns.infer types = .ok type := by
  unfold callType at h
  rw [bind_of_ok (state_apply s), Host.session_self, hop] at h
  simp only [Host.lift_self] at h
  split at h
  · cases h
  rename_i hadmits
  obtain ⟨all, s₁, hpad, h⟩ := bind_eq_ok_iff.mp h
  obtain ⟨⟨⟩, s₂, hvisit, h⟩ := bind_eq_ok_iff.mp h
  obtain ⟨answer, s₃, hcheck, h⟩ := bind_eq_ok_iff.mp h
  rw [bind_of_ok (state_apply s₃)] at h
  obtain ⟨types, s₄, htypes, h⟩ := bind_eq_ok_iff.mp h
  obtain ⟨hinfer, rfl⟩ := Prod.mk.inj h
  exact ⟨by simpa using hadmits, all, s₁, s₂, answer, s₃, types, hpad, hvisit, hcheck, htypes, hinfer⟩

namespace CallSite

variable {b : Session} {c : CallSite b} {depth : Nat} {view : View} {scope : ScopeId}
  {start s s' : Session} {seen seen' : Nat → Prop} {f : CallFrame} {index : Nat} {a operand : NodeId}

/-- The operands at the indices `seen` that are looked at have types that are recorded and settled, and
    what could be seen from the scope of the call can still be seen. -/
structure Typed (c : CallSite b) (depth : Nat) (view : View) (scope : ScopeId) (start : Session)
    (seen : Nat → Prop) (f : CallFrame) : Prop where
  leaves : start.Leaves (b.StrictlyBelow c.call) f.session
  sees : f.session.Sees scope view
  operand : ∀ {index a operand}, seen index → c.Looks index a → f.operands[index]? = some operand →
    ∃ type, f.session.types.get? operand = some type ∧
      b.Typed f.session.tree view a operand depth type

theorem Typed.mono (h : c.Typed depth view scope start seen f)
    (hseen : ∀ index a, seen' index → c.Looks index a → seen index) :
    c.Typed depth view scope start seen' f :=
  ⟨h.leaves, h.sees, fun {index a _} hi hl ho => h.operand (hseen index a hi hl) hl ho⟩

section

variable (hforest : b.tree.IsForest)

include hforest

/-- What is below an operand is not touched with another one. -/
theorem Looks.below_disjoint {other : Nat} {x : NodeId} (h : c.Looks index a) (h' : c.Looks other x)
    (hne : index ≠ other) (id : NodeId) (hid : b.Below a id) : ¬ b.Below x id := fun hid' =>
  hforest.siblings_apart h.visits.child h'.visits.child (h.apart hforest h' hne).1
    (Tree.Below.child hid) (Tree.Below.child hid')

omit hforest in
theorem Looks.under (h : c.Looks index a) (id : NodeId) (hid : b.Below a id) :
    b.StrictlyBelow c.call id :=
  Relation.TransGen.head' h.visits hid

/-- An operand is validated with a result, and its type is settled. -/
theorem Typed.visited (h : c.Typed depth view scope start seen f) (hf : c.Follows start f)
    (hl : c.Looks index a) (ho : f.operands[index]? = some operand)
    (hw : b.Within (b.Below a) (b.Below a) f.session s') (hleaves : f.session.Leaves (b.Below a) s')
    (hspares : view.Spares (b.StrictlyBelow c.call)) {type : DataType}
    (htype : s'.types.get? operand = some type)
    (htyped : b.Typed s'.tree view a operand depth type) :
    c.Typed depth view scope start (fun i => seen i ∨ i = index) ⟨s', f.operands⟩ where
  leaves := h.leaves.trans (hleaves.mono hl.under)
  sees := h.sees.leaves hleaves (hspares.mono hl.under)
  operand {other x current} hi hx hcurrent := by
    by_cases heq : other = index
    · subst heq
      obtain rfl := Option.some.inj (hl.2.symm.trans hx.2)
      obtain rfl := Option.some.inj (ho.symm.trans hcurrent)
      exact ⟨type, htype, htyped⟩
    -- Another operand keeps its type.
    · obtain ⟨known, hknown, hsettled⟩ := h.operand (hi.resolve_right heq) hx hcurrent
      refine ⟨known, ?_, hsettled.later (hw.hosts (hx.below_disjoint hforest hl heq))⟩
      rw [← hknown]
      exact hw.types x current (hx.lt_size hforest) (hl.apart hforest hx (Ne.symm heq)).2
        (hf.wraps hx.2 hcurrent)

/-- Nothing of the statement below the call is touched. -/
theorem Typed.untouched (h : c.Typed depth view scope start seen f) (hf : c.Follows start f)
    (hw : b.Within (fun _ => False) (· = c.call) f.session s')
    (hleaves : f.session.Leaves (fun _ => False) s') :
    c.Typed depth view scope start seen ⟨s', f.operands⟩ where
  leaves := h.leaves.trans (hleaves.mono fun _ hid => hid.elim)
  sees := h.sees.leaves hleaves fun _ _ _ _ hid => hid
  operand {other x current} hi hx hcurrent := by
    obtain ⟨known, hknown, hsettled⟩ := h.operand hi hx hcurrent
    refine ⟨known, ?_, hsettled.later (hw.hosts fun id hid => ?_)⟩
    · rw [← hknown]
      exact hw.types x current (hx.lt_size hforest) (fun hid => hid) (hf.wraps hx.2 hcurrent)
    · rintro rfl
      exact hx.not_below hforest hid

variable (hfinite : b.operators.IsFinite) (hengine : b.engine = .implicitCasts)

/-! ### The first validation -/

/-- The operands written are validated in order, and their types are settled. -/
theorem typed_of_visitOperands (hparts : b.TypesParts depth)
    (hspares : view.Spares (b.StrictlyBelow c.call)) (hplain : b.Plain c.call)
    (hsound : (visitAt depth).Sound b) {all operands : List NodeId}
    (hlength : index + operands.length ≤ c.written.length) (hfrom : FromIndex all index operands)
    (hf : c.Follows start ⟨s, all⟩) (h : c.Typed depth view scope start (· < index) ⟨s, all⟩)
    (hok : visitOperands (visitAt depth) scope c.op.signature index operands s = (.ok (), s')) :
    c.Typed depth view scope start (· < index + operands.length) ⟨s', all⟩ := by
  induction operands generalizing index s with
  | nil =>
    cases hok
    exact h
  | cons operand rest ih =>
    obtain ⟨ho, hrest⟩ := hfrom.tail
    rw [List.length_cons] at hlength ⊢
    rw [show index + (rest.length + 1) = index + 1 + rest.length by omega]
    have hlength : index + 1 + rest.length ≤ c.written.length := by omega
    unfold visitOperands at hok
    by_cases hkey : c.op.signature.isKeyword index = true
    -- A keyword is nothing to look at.
    · rw [if_neg (by simp [hkey])] at hok
      refine ih hlength hrest hf (h.mono fun i x hi hx => ?_) hok
      refine Nat.lt_of_le_of_ne (Nat.le_of_lt_succ hi) ?_
      rintro rfl
      rw [hx.1] at hkey
      cases hkey
    · have hkey : c.op.signature.isKeyword index = false := by simpa using hkey
      rw [if_pos (by simp [hkey])] at hok
      obtain ⟨type, s₁, hone, hok⟩ := bind_eq_ok_iff.mp hok
      have hl : c.Looks index c.written[index] := ⟨hkey, List.getElem?_eq_getElem (by omega)⟩
      have hwraps := hf.wraps hl.2 ho
      obtain ⟨hleaves, htyped⟩ := hparts view _ operand scope s type s₁ hf.within.continues
        (hl.lt_size hforest) hwraps h.sees (hspares.mono hl.under)
        (hplain.below (.single hl.visits)) hone
      have hend := hsound.expression scope hf.within.continues (hl.lt_size hforest) hwraps s rfl
      rw [hone] at hend
      have hnext := h.visited hforest hf hl ho hend.1 hleaves hspares hend.2.2 htyped
      exact ih hlength hrest (hf.visited hforest hl hend.1)
        (hnext.mono fun i _ hi _ => Nat.lt_succ_iff_lt_or_eq.mp hi) hok

/-- What is known of a call while it is checked. -/
def Held (c : CallSite b) (depth : Nat) (view : View) (scope : ScopeId) (start : Session)
    (f : CallFrame) : Prop :=
  c.Holds start f ∧ c.Typed depth view scope start (fun _ => True) f

/-- Looking at an operand that is typed changes nothing; a placeholder only gets a type. -/
theorem keeps_typeOf (hsound : (visitAt depth).Sound b) (index : Nat) :
    (CallFrame.typeOf (visitAt depth) scope c.op index).Keeps (c.Held depth view scope start) := by
  rintro f ⟨hf, ht⟩
  cases ho : f.operands[index]? with
  | none =>
    rw [CallFrame.typeOf_of_none ho]
    exact ⟨hf, ht⟩
  | some operand =>
    by_cases hkey : c.op.signature.isKeyword index = true
    · rw [CallFrame.typeOf_of_keyword hkey ho]
      exact ⟨hf, ht⟩
    have hkey : c.op.signature.isKeyword index = false := by simpa using hkey
    cases hrecorded : f.session.types.get? operand with
    | some type =>
      rw [CallFrame.typeOf_of_recorded hkey ho hrecorded]
      exact ⟨hf, ht⟩
    | none =>
      rcases hf.tracks.operand index operand ho with ⟨a, ha, -, -⟩ | ⟨-, hnew, hdefault⟩
      · obtain ⟨type, htype, -⟩ := ht.operand trivial ⟨hkey, ha⟩ ho
        rw [hrecorded] at htype
        cases htype
      · have hw := hsound.placeholder scope hf.within.continues hnew hdefault
        have hrun : (CallFrame.typeOf (visitAt depth) scope c.op index f).2 =
            ⟨((visitAt depth).expression scope operand f.session).2, f.operands⟩ := by
          rw [CallFrame.typeOf_of_operand hkey ho]
          unfold CallFrame.onSession Checking.focus
          rw [recorded_of_none hrecorded]
        rw [hrun]
        exact ⟨hf.untouched hforest hw, ht.untouched hforest hf.toFollows
          (hw.mono (fun _ h => h) fun _ h => h.elim) (leaves_placeholder _ depth scope hdefault)⟩

include hfinite hengine

/-- A cast around an operand always has a type, and the operand stays typed. -/
theorem guards_castTo {E : Fault → Prop} (hcoercion : b.settings.coercion = true)
    (hspares : view.Spares (b.StrictlyBelow c.call)) (index : Nat) (target : DataType)
    (hkey : c.op.signature.isKeyword index = false) :
    (CallFrame.castTo (visitAt depth) scope c.call index target).Guards
      (c.Held depth view scope start) E := by
  rintro f ⟨hf, ht⟩
  unfold Runs
  rcases hf.tracks.castTo_synced (visitAt depth) scope hf.synced index target with
    hnone | ⟨a, operand, tree, ha, ho, -, hne, htree, hrewritten⟩
  · rw [hnone]
    exact ⟨⟨hf, ht⟩, trivial⟩
  have hl : c.Looks index a := ⟨hkey, ha⟩
  obtain ⟨hw, hwrap, hself⟩ := hf.within_inserted hl ho hne htree
  obtain ⟨hheld, -, -⟩ := hf.inserted hforest hl ho hne htree
  obtain ⟨type, -, htyped⟩ := ht.operand trivial hl ho
  have hsees : Session.Sees { f.session with tree } scope view :=
    ht.sees.of_same rfl rfl
  -- The type of the cast is settled before anybody asks for it.
  have hcast : b.Typed tree view a f.session.tree.nextId depth
      (.ofTarget target.toTarget type.nullable) := by
    refine htyped.cast (hw.hosts fun id hid => ?_) ?_ (hl.lt_size hforest) hwrap hself
    · rintro rfl
      exact hl.not_below hforest hid
    · exact Tree.lt_size_of_node? hself
  obtain ⟨s', hrun, hreplays, hleaves⟩ := hcast.settled depth scope { f.session with tree }
    (Nat.le_refl _) (hheld.within.continues.revisits hcoercion) (.refl _ _) hsees
  have hend := (visitAt_sound hforest hfinite hengine depth).expression scope
    hheld.within.continues (hl.lt_size hforest) hwrap _ rfl
  have hrun : (visitAt depth).expression scope f.session.tree.nextId { f.session with tree } =
      (.ok (.ofTarget target.toTarget type.nullable), s') := hrun
  rw [hrewritten]
  simp only [hrun] at hend ⊢
  have hnew : (f.operands.set index f.session.tree.nextId)[index]? =
      some f.session.tree.nextId := by
    obtain ⟨hi, -⟩ := List.getElem?_eq_some_iff.mp ho
    simp [hi]
  -- The other operands are as they were.
  have hothers : c.Typed depth view scope start (· ≠ index)
      ⟨{ f.session with tree }, f.operands.set index f.session.tree.nextId⟩ := by
    have hframe := ht.untouched hforest hf.toFollows hw (.of_same rfl rfl)
    refine ⟨hframe.leaves, hframe.sees, fun {other x current} hi hx hcurrent => ?_⟩
    rw [List.getElem?_set_ne (Ne.symm hi)] at hcurrent
    exact hframe.operand trivial hx hcurrent
  refine ⟨⟨hheld.visited hforest hl hnew hend.1 fun _ => hend.2.1, ?_⟩, trivial⟩
  refine (hothers.visited hforest hheld.toFollows hl hnew hend.1 hleaves hspares hend.2.2
    (hcast.later (hreplays.hosts _))).mono fun i _ _ _ => ?_
  exact (ne_or_eq i index)

/-- The check of a call keeps its operands typed. -/
theorem keeps_check (hcoercion : b.settings.coercion = true)
    (hspares : view.Spares (b.StrictlyBelow c.call)) :
    (c.op.signature.check (CallFrame.view (visitAt depth) scope c.call c.op b.settings
      .implicitCasts)).Keeps (c.Held depth view scope start) := by
  have hsound := visitAt_sound hforest hfinite hengine depth
  have hkeeps := keeps_of_castTo (c := c) scope b.settings (keeps_typeOf hforest hsound)
    (fun index target hkey f hf => (guards_castTo (E := fun _ => True) hforest hfinite hengine
      hcoercion hspares index target hkey f hf).rel) (P := c.Held depth view scope start) ?_
  · refine hkeeps.check c.op.signature fun positions omittable hmem f _ _ => ?_
    exact fun _ hkey hi => Signature.ignore_of_isKeyword hkey hmem hi
  · rintro f requests ⟨hf, ht⟩
    have hw := within_requests hf.within.continues requests
    exact ⟨hf.untouched hforest hw, ht.untouched hforest hf.toFollows
      (hw.mono (fun _ h => h) fun _ h => h.elim) (.of_same rfl rfl)⟩

/-! ### Later validations -/

omit hforest hfinite hengine in
/-- The call when the statement is validated with other settings. -/
def withSettings (c : CallSite b) (settings : Settings) : CallSite { b with settings } :=
  ⟨c.call, c.name, c.written, c.op, c.node, c.operator⟩

omit hforest hfinite hengine in
/-- A call that has come to the frame `f` is validated once more, since the session `t`, and has the
    operands `all`. The types of those before `upTo` have been found out, and are as they were. -/
structure Revisited (c : CallSite b) (view : View) (scope : ScopeId) (f : CallFrame) (t : Session)
    (all : List NodeId) (upTo : Nat) (u : Session) : Prop where
  follows : (c.withSettings t.settings).Follows t ⟨u, all⟩
  replays : b.Replays t u
  leaves : t.Leaves (b.StrictlyBelow c.call) u
  sees : u.Sees scope view
  types : ∀ {index a operand}, index < upTo → c.Looks index a → all[index]? = some operand →
    u.types.get? operand = f.session.types.get? operand

variable {scope' : ScopeId} {t u : Session} {all : List NodeId} {upTo deeper : Nat}

/-- The operands of a call are validated once more. -/
theorem exists_visitOperands (hf : c.Held depth view scope start f)
    (hspares : view.Spares (b.StrictlyBelow c.call)) (hd : depth ≤ deeper)
    (hhosts : b.Hosts (b.StrictlyBelow c.call) f.session.tree t.tree)
    (hall : ∀ index, index < c.written.length → all[index]? = f.operands[index]?)
    {operands : List NodeId} (hlength : upTo + operands.length ≤ c.written.length)
    (hfrom : FromIndex all upTo operands) (h : c.Revisited view scope' f t all upTo u) :
    ∃ u', visitOperands (visitAt deeper) scope' c.op.signature upTo operands u = (.ok (), u') ∧
      c.Revisited view scope' f t all (upTo + operands.length) u' := by
  induction operands generalizing upTo u with
  | nil => exact ⟨u, rfl, h⟩
  | cons operand rest ih =>
    obtain ⟨ho, hrest⟩ := hfrom.tail
    rw [List.length_cons] at hlength ⊢
    rw [show upTo + (rest.length + 1) = upTo + 1 + rest.length by omega]
    have hlength : upTo + 1 + rest.length ≤ c.written.length := by omega
    unfold visitOperands
    by_cases hkey : c.op.signature.isKeyword upTo = true
    · rw [if_neg (by simp [hkey])]
      refine ih hlength hrest ⟨h.follows, h.replays, h.leaves, h.sees, fun {i x _} hi hx hcurrent => ?_⟩
      refine h.types (Nat.lt_of_le_of_ne (Nat.le_of_lt_succ hi) ?_) hx hcurrent
      rintro rfl
      rw [hx.1] at hkey
      cases hkey
    have hkey : c.op.signature.isKeyword upTo = false := by simpa using hkey
    rw [if_pos (by simp [hkey])]
    have hl : c.Looks upTo c.written[upTo] := ⟨hkey, List.getElem?_eq_getElem (by omega)⟩
    have hl' : (c.withSettings t.settings).Looks upTo c.written[upTo] := hl
    have hwraps := h.follows.wraps hl'.2 ho
    -- The type of the operand is settled.
    obtain ⟨type, htype, htyped⟩ := hf.2.operand trivial hl ((hall upTo (by omega)).symm.trans ho)
    obtain ⟨u₁, hrun, hreplays, hleaves⟩ := htyped.settled deeper scope' u hd h.replays.revisits
      ((hhosts.mono hl.under).trans (h.replays.hosts _)) h.sees
    have hrun : (visitAt deeper).expression scope' operand u = (.ok type, u₁) := hrun
    have hend := (visitAt_sound (b := { b with settings := t.settings }) hforest hfinite hengine
      deeper).expression scope' h.follows.within.continues (hl'.lt_size hforest) hwraps u rfl
    rw [hrun] at hend
    rw [bind_of_ok hrun]
    have hfollows : (c.withSettings t.settings).Follows t ⟨u₁, all⟩ :=
      Follows.visited (c := c.withSettings t.settings) hforest h.follows hl' hend.1
    refine ih hlength hrest ⟨hfollows, h.replays.trans hreplays,
      h.leaves.trans (hleaves.mono hl.under), h.sees.leaves hleaves (hspares.mono hl.under), ?_⟩
    intro i x current hi hx hcurrent
    by_cases heq : i = upTo
    · subst heq
      obtain rfl := Option.some.inj (ho.symm.trans hcurrent)
      exact hend.2.2.trans htype.symm
    · rw [← h.types (by omega) hx hcurrent]
      have hx' : (c.withSettings t.settings).Looks i x := hx
      exact hend.1.types x current (hx'.lt_size hforest) (hl'.apart hforest hx' (Ne.symm heq)).2
        (h.follows.wraps hx'.2 hcurrent)

omit hforest hfinite hengine in
/-- The types of all operands are at hand then. -/
theorem Revisited.rests (h : c.Revisited view scope' f t all c.written.length u)
    (hf : c.Held depth view scope start f)
    (hall : ∀ index, index < c.written.length → all[index]? = f.operands[index]?) (v : Visit) :
    (CallFrame.view v scope' c.call c.op t.settings .implicitCasts).Rests ⟨u, all⟩ := by
  intro index hi hd
  have hi : index < all.length := hi
  have ho : all[index]? = some all[index] := List.getElem?_eq_getElem hi
  by_cases hkey : c.op.signature.isKeyword index = true
  · refine ⟨.symbol, ?_⟩
    show CallFrame.typeOf v scope' c.op index ⟨u, all⟩ = (.ok .symbol, ⟨u, all⟩)
    exact CallFrame.typeOf_of_keyword hkey ho
  · have hkey : c.op.signature.isKeyword index = false := by simpa using hkey
    obtain ⟨a, ha, -, -, -⟩ := h.follows.tracks.written_of_not_isDefault ho hd
    have hl : c.Looks index a := ⟨hkey, ha⟩
    obtain ⟨hlt, -⟩ := List.getElem?_eq_some_iff.mp ha
    obtain ⟨type, htype, -⟩ := hf.2.operand trivial hl ((hall index hlt).symm.trans ho)
    exact ⟨type, CallFrame.typeOf_of_recorded hkey ho ((h.types hlt hl ho).trans htype)⟩

omit hforest hfinite hengine in
/-- A NULL literal among the operands written may still be converted, or there is none. -/
theorem Revisited.coerces_of_isNull (h : c.Revisited view scope' f t all c.written.length u)
    {index : Nat} {operand : NodeId} (hlt : index < c.written.length)
    (ho : all[index]? = some operand) (hnull : CallFrame.On.isNull ⟨u, all⟩ index = true) :
    t.settings.coercion = true := by
  rw [← h.replays.settings]
  refine h.replays.revisits.nulls.resolve_right fun hnone => ?_
  have hmem : operand ∈ all.take c.written.length := by
    refine List.mem_of_getElem? (i := index) ?_
    rw [List.getElem?_take_of_lt hlt]
    exact ho
  have hfalse := hnone c.call c.name _ h.follows.synced _ hmem
  have htrue : u.isNull operand = true := by
    unfold CallFrame.On.isNull CallFrame.On.node? at hnull
    rw [ho] at hnull
    exact hnull
  rw [hfalse] at htrue
  cases htrue

omit hforest hfinite hengine in
/-- An operand that was written fits once more. It is the same node, of the same type. -/
theorem Revisited.legal_written (h : c.Revisited view scope' f t all c.written.length u)
    (hf : c.Held depth view scope start f)
    (hhosts : b.Hosts (b.StrictlyBelow c.call) f.session.tree u.tree) {v : Visit} {index : Nat}
    {operand : NodeId} {mayOmit : Bool} {family : Family} (hlt : index < c.written.length)
    (hkey : c.op.signature.isKeyword index = false) (ho : f.operands[index]? = some operand)
    (ho' : all[index]? = some operand)
    (hlegal : Legal b.settings.coercion mayOmit (f.isDefault index) (f.isNull index) (c.Knows f index)
      family) :
    Legal t.settings.coercion mayOmit (CallFrame.On.isDefault ⟨u, all⟩ index)
      (CallFrame.On.isNull ⟨u, all⟩ index)
      ((CallFrame.view v scope' c.call c.op t.settings .implicitCasts).Reads ⟨u, all⟩ index) family := by
  have hl : c.Looks index c.written[index] := ⟨hkey, List.getElem?_eq_getElem hlt⟩
  have hnode : u.tree.node? operand = f.session.tree.node? operand := by
    obtain ⟨n, hn⟩ := Option.isSome_iff_exists.mp (Tree.isSome_node?_iff.mpr (hf.1.lt_size ho))
    rw [hn]
    exact hhosts.node? (hf.1.wraps hl.2 ho) (.single hl.visits) hn
  have hframe : CallFrame.On.node? ⟨u, all⟩ index = f.node? index := by
    unfold CallFrame.On.node?
    rw [ho', ho]
    exact hnode
  have hdefault : CallFrame.On.isDefault ⟨u, all⟩ index = f.isDefault index :=
    congrArg (Option.any Node.isDefault) hframe
  have hnull : CallFrame.On.isNull ⟨u, all⟩ index = f.isNull index :=
    congrArg (Option.any Node.isNullLiteral) hframe
  rw [hdefault, hnull]
  refine Legal.imp hlegal (fun _ type hknown => ?_) fun hnull' _ =>
    h.coerces_of_isNull hlt ho' (hnull.trans hnull')
  rcases hknown with hle | hkey' | ⟨operand', hoperand, htype⟩
  · have hle : c.written.length ≤ index := hle
    omega
  · rw [hkey] at hkey'
    cases hkey'
  · obtain rfl := Option.some.inj (ho.symm.trans hoperand)
    exact CallFrame.typeOf_of_recorded hkey ho' ((h.types hlt hl ho').trans htype)

omit hforest hfinite hengine in
/-- The operands fit as they stand. A NULL literal would be converted, but where it must not be there
    is none. -/
theorem accepts_again (h : c.Revisited view scope' f t all c.written.length u)
    (hf : c.Held depth view scope start f)
    (hall : ∀ index, index < c.written.length → all[index]? = f.operands[index]?)
    (hhosts : b.Hosts (b.StrictlyBelow c.call) f.session.tree u.tree) {v v' : Visit}
    (haccepts : (CallFrame.view v scope c.call c.op b.settings .implicitCasts).Accepts c.Knows
      c.op.signature.leaves f) :
    (CallFrame.view v' scope' c.call c.op t.settings .implicitCasts).Accepts
      (CallFrame.view v' scope' c.call c.op t.settings .implicitCasts).Reads c.op.signature.leaves
        ⟨u, all⟩ := by
  obtain ⟨positions, omittable, hleaf, hcount, hfits⟩ := haccepts
  have hlength : all.length = f.operands.length := h.follows.count.trans hf.1.count.symm
  have hcount : positions.length = f.operands.length := hcount
  refine ⟨positions, omittable, hleaf, hcount.trans hlength.symm, fun index family hfamily => ?_⟩
  have hlegal : Legal b.settings.coercion (omittable index) (f.isDefault index) (f.isNull index)
      (c.Knows f index) family := by
    have hfit := hfits index family hfamily
    rw [Nat.zero_add] at hfit
    exact hfit
  have hi : index < f.operands.length := hcount ▸ (List.getElem?_eq_some_iff.mp hfamily).1
  rw [Nat.zero_add]
  by_cases hlt : index < c.written.length
  · cases hkey : c.op.signature.isKeyword index with
    | true =>
      have hignore := Signature.ignore_of_isKeyword hkey hleaf (by omega)
      rw [hfamily] at hignore
      rw [Option.some.inj hignore]
      exact .unchecked
    | false =>
      have ho : f.operands[index]? = some f.operands[index] := List.getElem?_eq_getElem hi
      exact h.legal_written hf hhosts hlt hkey ho ((hall index hlt).trans ho) hlegal
  -- Behind the operands written there are placeholders, now as before.
  · have hbehind := Nat.le_of_not_lt hlt
    have hdefault' : CallFrame.On.isDefault ⟨u, all⟩ index = true :=
      h.follows.tracks.isDefault_of_length_le (hlength ▸ hi) hbehind
    rw [hf.1.tracks.isDefault_of_length_le hi hbehind] at hlegal
    show Legal t.settings.coercion (omittable index) (CallFrame.On.isDefault ⟨u, all⟩ index)
      (CallFrame.On.isNull ⟨u, all⟩ index) _ family
    rw [hdefault']
    exact hlegal.of_omitted

omit hforest hfinite hengine in
/-- The operands of a call are at hand, with placeholders for those that are omitted. -/
theorem revisited_padded (ht : b.Revisits t) (hsees : t.Sees scope' view) {operands : List NodeId}
    (hcall : t.tree.node? c.call = some (.call c.name operands))
    (hpad : padded c.op.signature operands t = (.ok all, u)) :
    c.Revisited view scope' f t all 0 u ∧ operands = all.take c.written.length := by
  obtain ⟨hfollows, htake⟩ :=
    follows_padded (c := c.withSettings t.settings) ht.continues hcall hpad
  -- At most a placeholder has been added.
  obtain ⟨tree, hu, hkept, hadded⟩ : ∃ tree, u = { t with tree } ∧
      (∀ id node, t.tree.node? id = some node → tree.node? id = some node) ∧
        ∀ id node, tree.node? id = some node → t.tree.node? id = some node ∨ node = .default := by
    rw [padded_apply] at hpad
    split at hpad
    · cases hpad
      exact ⟨_, rfl, fun _ _ hn => hn, fun _ _ hn => .inl hn⟩
    · cases hpad
      refine ⟨_, rfl, fun id node hn => ?_, fun id node hn => ?_⟩
      · rw [Tree.node?_push, if_neg (Tree.ne_nextId_of_lt (Tree.lt_size_of_node? hn))]
        exact hn
      · rw [Tree.node?_push] at hn
        split at hn
        · exact .inr (Option.some.inj hn).symm
        · exact .inl hn
  have hleaves : t.Leaves (b.StrictlyBelow c.call) u := by
    rw [hu]
    exact .of_same rfl rfl
  have hreplays : b.Replays t u := by
    refine ht.replays hfollows.within.continues ?_ ?_
    · rw [hu]
      exact hkept
    · rw [hu]
      exact hadded
  refine ⟨⟨hfollows, hreplays, hleaves, ?_, fun hi => absurd hi (Nat.not_lt_zero _)⟩, htake⟩
  rw [hu]
  exact hsees.of_same rfl rfl

/-- The types of the operands as they are read for the type of the call. -/
def shownTypes (c : CallSite b) (f : CallFrame) : List DataType :=
  ((f.operands.take c.written.length).zipIdx 0).map fun p =>
    if c.op.signature.isKeyword p.2 then .symbol else (f.session.types.get? p.1).getD .any

omit hforest hfinite hengine in
/-- The types of operands that are typed are read without a change. -/
theorem operandTypes_eq (hf : c.Held depth view scope start f) {v : Visit}
    (htypes : ∀ {index a operand}, c.Looks index a → f.operands[index]? = some operand →
      u.types.get? operand = f.session.types.get? operand) :
    operandTypes v scope' c.op.signature 0 (f.operands.take c.written.length) u =
      (.ok (c.shownTypes f), u) := by
  refine operandTypes_of_recorded (fun operand => (f.session.types.get? operand).getD .any) 0
    fun index operand ho hkey => ?_
  rw [Nat.zero_add] at hkey
  rw [List.getElem?_take] at ho
  split at ho
  · rename_i hlt
    have hl : c.Looks index c.written[index] := ⟨hkey, List.getElem?_eq_getElem hlt⟩
    obtain ⟨type, htype, -⟩ := hf.2.operand trivial hl ho
    rw [htypes hl ho, htype]
    rfl
  · cases ho

/-- An accepted call has the same type whenever it is validated again. -/
theorem settled_callType (hf : c.Held depth view scope start f) {v : Visit}
    (haccepts : (CallFrame.view v scope c.call c.op b.settings .implicitCasts).Accepts c.Knows
      c.op.signature.leaves f)
    (hspares : view.Spares (b.StrictlyBelow c.call))
    (hadmits : c.op.arity.admits c.written.length = true) {type : DataType}
    (hinfer : c.op.returns.infer (c.shownTypes f) = .ok type) :
    b.Settled depth f.session.tree view (b.Below c.call)
      (fun v scope => callType v scope c.call c.name (f.operands.take c.written.length)) type := by
  intro deeper scope' t hd ht hhosts hsees
  have hunder : ∀ id, b.StrictlyBelow c.call id → b.Below c.call id := fun _ hid => hid.below
  have hcall := hhosts.own c.call _ .refl hf.1.synced
  have hlength : (f.operands.take c.written.length).length = c.written.length := by
    rw [List.length_take, Nat.min_eq_left (written_length_le hf.1.toFollows)]
  have hop : t.operators.lookup? c.name = some c.op := by
    rw [ht.continues.operators]
    exact c.operator
  obtain ⟨all, t₁, hpad⟩ :=
    exists_padded c.op.signature (f.operands.take c.written.length) t
  obtain ⟨hstart, htake⟩ := revisited_padded (f := f) ht hsees hcall hpad
  have hall : ∀ index, index < c.written.length → all[index]? = f.operands[index]? := by
    intro index hi
    rw [← List.getElem?_take_of_lt hi, ← htake, List.getElem?_take_of_lt hi]
  have hfrom : FromIndex all 0 (f.operands.take c.written.length) := htake ▸ .take all _
  obtain ⟨t₂, hvisit, hend⟩ := exists_visitOperands hforest hfinite hengine hf hspares hd
    (hhosts.mono hunder) hall (by omega) hfrom hstart
  rw [hlength, Nat.zero_add] at hend
  -- The check looks at the operands and leaves them as they are.
  have hcheck := (hend.rests hf hall (visitAt deeper)).check_of_accepts
    (hfinite c.name c.op c.operator)
    (accepts_again hend hf hall ((hhosts.mono hunder).trans (hend.replays.hosts _)) haccepts)
  have hchecked : checkCall (visitAt deeper) scope' c.call c.op all t₂ = (.ok true, t₂) := by
    refine (checkCall_eq (c := c.withSettings t.settings) scope' (visitAt deeper) hengine
      hend.follows.within.continues all).trans ?_
    exact congrArg (fun r : Except Fault Bool × CallFrame => (r.1, r.2.session)) hcheck
  have hcurrent : (t₂.tree.operands? c.call).getD [] = f.operands.take c.written.length := by
    have hsynced : t₂.tree.node? c.call = some (.call c.name (all.take c.written.length)) :=
      hend.follows.synced
    simp [Tree.operands?, hsynced, Node.operands?, htake]
  have htypes : operandTypes (visitAt deeper) scope' c.op.signature 0
      (f.operands.take c.written.length) t₂ = (.ok (c.shownTypes f), t₂) :=
    operandTypes_eq hf fun {index a operand} hl ho => by
      obtain ⟨hlt, -⟩ := List.getElem?_eq_some_iff.mp hl.2
      exact hend.types hlt hl ((hall index hlt).trans ho)
  refine ⟨t₂, ?_, hend.replays, hend.leaves.mono hunder⟩
  show callType (visitAt deeper) scope' c.call c.name _ t = (.ok type, t₂)
  rw [callType_of_padded hop (by rw [hlength, hadmits]) hpad, bind_of_ok hvisit, bind_of_ok hchecked,
    bind_of_ok (state_apply t₂), hcurrent, bind_of_ok htypes, hinfer]
  rfl

/-- When its operands have been validated with results, the operands of a call are typed. -/
theorem held_of_visitOperands (hparts : b.TypesParts depth) {operands : List NodeId} (hs : b.Continues s)
    (hcall : s.tree.node? c.call = some (.call c.name operands)) (hsees : s.Sees scope view)
    (hspares : view.Spares (b.StrictlyBelow c.call)) (hplain : b.Plain c.call) {s₁ : Session}
    (hpad : padded c.op.signature operands s = (.ok all, s₁))
    (hvisit : visitOperands (visitAt depth) scope c.op.signature 0 operands s₁ = (.ok (), s')) :
    c.Held depth view scope s ⟨s', all⟩ := by
  have hsound := visitAt_sound hforest hfinite hengine depth
  obtain ⟨hfollows, htake⟩ := follows_padded hs hcall hpad
  have hlength : operands.length = c.written.length := by
    rw [htake, List.length_take, Nat.min_eq_left (written_length_le hfollows)]
  have hfrom : FromIndex all 0 operands := htake ▸ .take all _
  have hleaves : s.Leaves (b.StrictlyBelow c.call) s₁ ∧ s₁.Sees scope view := by
    rw [padded_apply] at hpad
    split at hpad
    · cases hpad
      exact ⟨.refl _, hsees⟩
    · cases hpad
      exact ⟨.of_same rfl rfl, hsees.of_same rfl rfl⟩
  have hvisited := typed_of_visitOperands hforest hparts hspares hplain hsound (by omega) hfrom
    hfollows ⟨hleaves.1, hleaves.2, fun hi => absurd hi (Nat.not_lt_zero _)⟩ hvisit
  have hall : ∀ {i a}, c.Looks i a → i < 0 + operands.length := fun hl => by
    obtain ⟨hi, -⟩ := List.getElem?_eq_some_iff.mp hl.2
    omega
  have hend := ends_visitOperands (c := c) scope hforest s hsound 0 all operands (by omega) hfrom s₁
    ⟨hfollows, fun _ _ hi => absurd hi (Nat.not_lt_zero _)⟩
  rw [hvisit] at hend
  exact ⟨⟨hend.1, fun {i a _} hl _ _ => hend.2 i a (hall hl) hl⟩, hvisited.mono fun i a _ hl => hall hl⟩

/-- A call is typed when its operands are. -/
theorem typesCore (hparts : b.TypesParts depth) (hcoercion : b.settings.coercion = true)
    (c : CallSite b) : b.TypesCore depth c.call := by
  intro view scope node s type s' hs hn hsees hspares hplain hok
  have hsound := visitAt_sound hforest hfinite hengine depth
  have hunder : ∀ id, b.StrictlyBelow c.call id → b.Below c.call id := fun _ hid => hid.below
  obtain ⟨operands, hcall, -⟩ := hs.rewrites.rewritten.call c.call c.name c.written c.node
  obtain rfl := Option.some.inj (hcall.symm.trans hn)
  have hop : s.operators.lookup? c.name = some c.op := by
    rw [hs.operators]
    exact c.operator
  have hok : callType (visitAt depth) scope c.call c.name operands s = (.ok type, s') := hok
  obtain ⟨hadmits, all, s₁, s₂, answer, s₃, types, hpad, hvisit, hcheck, htypes, hinfer⟩ :=
    exists_of_callType hop hok
  obtain ⟨hfollows, htake⟩ := follows_padded hs hcall hpad
  have hlength : operands.length = c.written.length := by
    rw [htake, List.length_take, Nat.min_eq_left (written_length_le hfollows)]
  rw [hlength] at hadmits
  have hspares' := hspares.mono hunder
  -- The operands are validated, and their types are settled.
  have hheld := held_of_visitOperands hforest hfinite hengine hparts hs hcall hsees hspares' hplain hpad
    hvisit
  -- The check leaves them so, and the call fits.
  rw [checkCall_eq scope (visitAt depth) hengine hheld.1.within.continues] at hcheck
  have hkept := keeps_check hforest hfinite hengine hcoercion hspares' _ hheld
  have hfits := ends_check scope hforest hsound (hfinite c.name c.op c.operator) hadmits hheld.1 _ rfl
  cases hr : c.op.signature.check (CallFrame.view (visitAt depth) scope c.call c.op b.settings
      .implicitCasts) ⟨s₂, all⟩ with
  | mk r f =>
    rw [hr] at hcheck hkept hfits
    obtain ⟨rfl, rfl⟩ := Prod.mk.inj hcheck
    have hcurrent : (f.session.tree.operands? c.call).getD [] =
        f.operands.take c.written.length := by
      simp [Tree.operands?, hkept.1.synced, Node.operands?]
    rw [hcurrent, operandTypes_eq hkept fun _ _ => rfl] at htypes
    cases htypes
    refine ⟨hkept.2.leaves.mono hunder, .call c.name (f.operands.take c.written.length),
      hkept.1.synced, ?_⟩
    exact settled_callType hforest hfinite hengine hkept hfits.2 hspares' hadmits hinfer

end

end CallSite

end SqlTyping
