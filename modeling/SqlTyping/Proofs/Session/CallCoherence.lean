import SqlTyping.Proofs.Session.Coherence
import SqlTyping.Proofs.Session.Operands

namespace SqlTyping

/-!
# Types of operands

Operands of a call are typed, cast and typed again. Whatever engine does this, and whichever operands it
refuses, the operands that have a type in the end are coherent:

* `CallSite.Reads` — so far nothing but the operands of a call has been touched, and those that have a type
  are coherent and as nullable as the operands written;
* `CallSite.keeps_typeOf_reads`, `CallSite.keeps_castTo_reads` — looking at operands and casting them keeps
  this;
* `CallSite.runs_callType` — so a call with a type is coherent, given its type.
-/

open Checking Filter

/-- A node that is added next has no type. -/
theorem Session.Continues.types_nextId {b s : Session} (hs : b.Continues s) :
    s.types.get? s.tree.nextId = none :=
  Option.not_isSome_iff_eq_none.mp fun h => Nat.lt_irrefl _ (hs.recorded _ h)

namespace CallSite

variable {b : Session} {c : CallSite b} {view : Outlook} {scope : ScopeId} {start s' : Session}
  {seen seen' : Nat → Prop} {f : CallFrame} {index : Nat} {a operand : NodeId} {v : Visit}

/-- Since `start` nothing but the operands of the call has been touched, and operands at the indices `seen`
    that are looked at and have a type are coherent. -/
structure Reads (c : CallSite b) (view : Outlook) (start : Session) (seen : Nat → Prop)
    (f : CallFrame) : Prop where
  confined : b.Confined (b.Beneath c.call) (b.Reach c.call) start f.session
  tracks : f.Tracks b.tree c.written
  synced : f.session.tree.node? c.call = some (.call c.name (f.operands.take c.written.length))
  operand : ∀ {index a operand type}, seen index → c.Looks index a → f.operands[index]? = some operand →
    f.session.types.get? operand = some type →
      b.CoherentFrom f.session operand ∧ b.MayBeNull view a type.nullable

theorem Reads.mono (h : c.Reads view start seen f)
    (hseen : ∀ index a, seen' index → c.Looks index a → seen index) : c.Reads view start seen' f :=
  ⟨h.confined, h.tracks, h.synced, fun {index a _ _} hi hl => h.operand (hseen index a hi hl) hl⟩

/-- The types that are recorded for the operands written stay. -/
def Retains (c : CallSite b) (all : List NodeId) (s s' : Session) : Prop :=
  ∀ (other : Nat) (x current : NodeId) (type : DataType), c.written[other]? = some x →
    all[other]? = some current → s.types.get? current = some type → s'.types.get? current = some type

theorem Retains.refl (c : CallSite b) (all : List NodeId) (s : Session) : c.Retains all s s :=
  fun _ _ _ _ _ _ htype => htype

theorem Retains.trans {all : List NodeId} {s s' s'' : Session} (h : c.Retains all s s')
    (h' : c.Retains all s' s'') : c.Retains all s s'' :=
  fun other x current type hx hcurrent htype =>
    h' other x current type hx hcurrent (h other x current type hx hcurrent htype)

theorem child_of_written (ha : c.written[index]? = some a) : b.tree.Child c.call a :=
  ⟨_, c.node, List.mem_of_getElem? ha⟩

/-- The operand of the frame wraps the one written. -/
theorem Reads.wraps (h : c.Reads view start seen f) (ha : c.written[index]? = some a)
    (ho : f.operands[index]? = some operand) : Tree.Wraps b.tree f.session.tree a operand := by
  rcases h.tracks.operand index operand ho with ⟨x, hx, hw, -⟩ | ⟨hi, -, -⟩
  · rw [ha] at hx
    cases hx
    exact hw
  · obtain ⟨hlt, -⟩ := List.getElem?_eq_some_iff.mp ha
    omega

/-- The frame has all operands written. -/
theorem Reads.written_length_le (h : c.Reads view start seen f) :
    c.written.length ≤ f.operands.length := by
  obtain ⟨written, hwritten, hw⟩ := h.confined.continues.rewrites.rewritten.call_of_call h.synced
  rw [c.node] at hwritten
  cases hwritten
  have hlength := hw.length_eq
  rw [List.length_take] at hlength
  omega

section

variable (hforest : b.tree.IsForest)

include hforest

theorem lt_size_of_written (ha : c.written[index]? = some a) : a.index < b.tree.size :=
  hforest.lt_size_of_child (child_of_written ha)

/-- Different operands have nothing below them in common. -/
theorem reach_disjoint {other : Nat} {x y : NodeId} (ha : c.written[index]? = some a)
    (hx : c.written[other]? = some x) (hne : index ≠ other) (hy : b.Reach a y) : ¬ b.Reach x y := by
  refine hforest.siblings_apart (child_of_written ha) (child_of_written hx) ?_ hy
  rintro rfl
  obtain ⟨hi, hget⟩ := List.getElem?_eq_some_iff.mp ha
  obtain ⟨hj, hget'⟩ := List.getElem?_eq_some_iff.mp hx
  exact hne ((hforest.nodup_children c.node).getElem_inj_iff.mp (hget.trans hget'.symm))

/-- The call does not lie below its operands. -/
theorem not_reach_call (ha : c.written[index]? = some a) : ¬ b.Reach a c.call :=
  hforest.not_above_parent (child_of_written ha)

/-- An operand is validated, and is coherent if it has a type. -/
theorem Reads.visited (h : c.Reads view start seen f) (ha : c.written[index]? = some a)
    (ho : f.operands[index]? = some operand) (hc : b.Confined (b.Reach a) (b.Reach a) f.session s')
    (hseen : ∀ i, seen' i → i ≠ index → seen i)
    (hnew : seen' index → ∀ type, s'.types.get? operand = some type →
      b.CoherentFrom s' operand ∧ b.MayBeNull view a type.nullable) :
    c.Reads view start seen' ⟨s', f.operands⟩ where
  confined := h.confined.trans (hc.mono (fun _ hx => .head' (child_of_written ha) hx)
    fun _ hx => .head (child_of_written ha) hx)
  tracks := h.tracks.onSession hc.continues.rewrites hc.added
  synced := by
    rw [hc.node? c.call (Tree.lt_size_of_node? c.node) (not_reach_call hforest ha)]
    exact h.synced
  operand {other x current type} hi hl hcurrent htype := by
    by_cases heq : index = other
    · subst heq
      obtain rfl := Option.some.inj (ha.symm.trans hl.2)
      obtain rfl := Option.some.inj (ho.symm.trans hcurrent)
      exact hnew hi type htype
    · have hw := h.wraps hl.2 hcurrent
      have hsize := lt_size_of_written hforest hl.2
      have hapart : ∀ y, b.Reach x y → ¬ b.Reach a y :=
        fun y hy => reach_disjoint hforest hl.2 ha (Ne.symm heq) hy
      have htype : s'.types.get? current = some type := htype
      rw [hc.types x current hsize (hapart x .refl) hw] at htype
      obtain ⟨hcoherent, hnull⟩ := h.operand (hseen other hi (Ne.symm heq)) hl hcurrent htype
      refine ⟨?_, hnull⟩
      exact hcoherent.confined h.confined.continues h.confined.owned hforest.closed hsize hw hc
        (fun y hy => hforest.lt_size_of_reach (lt_size_of_written hforest ha) hy)
        fun y hy => ⟨hapart y hy, hapart y hy⟩

/-- Nothing is touched below the operands; where the call is pointed at another operand, this one has no
    type. -/
theorem Reads.untouched (h : c.Reads view start seen f)
    (hc : b.Confined (fun _ => False) (· = c.call) f.session s') {operands : List NodeId}
    (htracks : CallFrame.Tracks b.tree c.written ⟨s', operands⟩)
    (hsynced : s'.tree.node? c.call = some (.call c.name (operands.take c.written.length)))
    (hsame : ∀ (index : Nat) (operand : NodeId) (type : DataType), operands[index]? = some operand →
      s'.types.get? operand = some type → f.operands[index]? = some operand) :
    c.Reads view start seen ⟨s', operands⟩ where
  confined := h.confined.trans (hc.mono (fun _ hx => hx.elim) (by rintro _ rfl; exact .refl))
  tracks := htracks
  synced := hsynced
  operand {other x current type} hi hl hcurrent htype := by
    have hbefore := hsame other current type hcurrent htype
    have hw := h.wraps hl.2 hbefore
    have hsize := lt_size_of_written hforest hl.2
    have htype : s'.types.get? current = some type := htype
    rw [hc.types x current hsize (fun hx => hx) hw] at htype
    obtain ⟨hcoherent, hnull⟩ := h.operand hi hl hbefore htype
    refine ⟨?_, hnull⟩
    refine hcoherent.confined h.confined.continues h.confined.owned hforest.closed hsize hw hc
      (fun _ hx => hx.elim) fun y hy => ⟨fun hx => hx, ?_⟩
    rintro rfl
    exact not_reach_call hforest hl.2 hy

/-- An operand is replaced by a cast of it. -/
theorem Reads.inserted (h : c.Reads view start seen f) (ha : c.written[index]? = some a)
    (ho : f.operands[index]? = some operand) (hn : (f.session.tree.node? operand).isSome = true)
    (hne : f.session.tree.node? operand ≠ some .default) {target : CastTarget} {tree : Tree}
    (ht : (f.session.tree.pushCast operand target true).replaceOperand? c.call index
      f.session.tree.nextId = some tree) :
    c.Reads view start seen
      ⟨{ f.session with tree }, f.operands.set index f.session.tree.nextId⟩ := by
  have hs := h.confined.continues
  obtain ⟨htree, hclosed, hkeep, hwrap, hself⟩ := hs.rewrites.rewritten.insertCast hs.rewrites.closed
    c.node ha (h.wraps ha ho) hn hne ht
  have hwithin : b.Within (fun _ => False) (· = c.call) f.session { f.session with tree } := by
    refine ⟨⟨⟨htree, hclosed⟩, hs.operators, hs.engine, hs.settings, fun id hid =>
      Nat.lt_of_lt_of_le (hs.recorded id hid) hkeep.size_le⟩, hkeep, fun id hid hcall => ?_,
      fun _ _ _ _ _ => rfl⟩
    rw [Tree.node?_replaceOperand?_ne ht hcall, Tree.pushCast, Tree.node?_push, if_neg]
    exact Tree.ne_nextId_of_lt (Nat.lt_of_lt_of_le hid hs.rewrites.rewritten.size_le)
  have hmoved := h.tracks.onSession (s := { f.session with tree }) ⟨htree, hclosed⟩ hkeep
  obtain ⟨hi, -⟩ := List.getElem?_eq_some_iff.mp ha
  obtain ⟨hi', -⟩ := List.getElem?_eq_some_iff.mp ho
  refine h.untouched hforest (.of_within hwithin h.confined.owned rfl rfl)
    ⟨⟨htree, hclosed⟩, fun other current hc => ?_⟩ ?_ fun other current type hc htype => ?_
  · by_cases heq : index = other
    · subst heq
      rw [List.getElem?_set_self hi'] at hc
      obtain rfl := Option.some.inj hc
      exact .inl ⟨a, ha, hwrap, by rw [hself]; rfl⟩
    · rw [List.getElem?_set_ne heq] at hc
      exact hmoved.operand other current hc
  · show tree.node? c.call = some (.call c.name ((f.operands.set _ _).take _))
    rw [Tree.node?_insertCast h.synced ht, List.take_set]
  -- The cast has no type yet.
  · by_cases heq : index = other
    · subst heq
      rw [List.getElem?_set_self hi'] at hc
      obtain rfl := Option.some.inj hc
      have htype : f.session.types.get? f.session.tree.nextId = some type := htype
      rw [hs.types_nextId] at htype
      cases htype
    · rwa [List.getElem?_set_ne heq] at hc

/-- A placeholder is looked at. -/
theorem Reads.placeholder (hv : v.Coheres b) (h : c.Reads view start seen f)
    (hnew : b.tree.size ≤ operand.index) (hn : f.session.tree.node? operand = some .default) :
    c.Reads view start seen ⟨(v.expression scope operand f.session).2, f.operands⟩ := by
  have hc : b.Confined (fun _ => False) (fun _ => False) f.session
      (v.expression scope operand f.session).2 :=
    hv.placeholder h.confined.continues h.confined.owned hnew hn
  refine h.untouched hforest (hc.mono (fun _ hx => hx) fun _ hx => hx.elim)
    (h.tracks.onSession hc.continues.rewrites hc.added) ?_ fun _ _ _ ho _ => ho
  rw [hc.node? c.call (Tree.lt_size_of_node? c.node) fun hx => hx]
  exact h.synced

section

variable (hstart : b.Poised (b.Reach c.call) start scope view)

include hstart

omit hforest in
/-- Validation of an operand goes on from the scope of the call. -/
theorem Reads.poised (h : c.Reads view start seen f) (ha : c.written[index]? = some a) :
    b.Poised (b.Reach a) f.session scope view :=
  hstart.confined h.confined (fun _ hx => hx.to_reflTransGen) fun _ hx =>
    .head (child_of_written ha) hx

variable (hv : v.Coheres b)

include hv

/-- An operand is validated with a result. -/
theorem Reads.typed (h : c.Reads view start seen f) (ha : c.written[index]? = some a)
    (ho : f.operands[index]? = some operand) {type : DataType}
    (hok : v.expression scope operand f.session = (.ok type, s')) :
    c.Reads view start (fun i => seen i ∨ i = index) ⟨s', f.operands⟩ ∧
      s'.types.get? operand = some type := by
  have hp := h.poised hstart ha
  have hsize := lt_size_of_written hforest ha
  have hc := hv.confinedExpression hp hsize (h.wraps ha ho)
  obtain ⟨hcoherent, hrecorded, hnull⟩ := hv.expression hp hsize (h.wraps ha ho) hok
  rw [hok] at hc
  refine ⟨h.visited hforest ha ho hc (fun i hi hne => hi.resolve_right hne) fun _ found hfound => ?_,
    hrecorded⟩
  obtain rfl := Option.some.inj (hrecorded.symm.trans hfound)
  exact ⟨hcoherent, hnull⟩

/-- An operand is refused: if it had no type, it has none now. -/
theorem Reads.refused (h : c.Reads view start seen f) (ha : c.written[index]? = some a)
    (ho : f.operands[index]? = some operand) {e : Fault}
    (herror : v.expression scope operand f.session = (.error e, s'))
    (hnone : seen index → f.session.types.get? operand = none) :
    c.Reads view start seen ⟨s', f.operands⟩ := by
  have hp := h.poised hstart ha
  have hsize := lt_size_of_written hforest ha
  have hc := hv.confinedExpression hp hsize (h.wraps ha ho)
  have hsame := hv.refused hp hsize (h.wraps ha ho) herror
  rw [herror] at hc
  refine h.visited hforest ha ho hc (fun i hi _ => hi) fun hi type htype => ?_
  rw [hsame, hnone hi] at htype
  cases htype

/-! ### The check -/

/-- The type of an operand that has none is looked for. -/
theorem Reads.looked (h : c.Reads view start (fun _ => True) f)
    (ho : f.operands[index]? = some operand) (hnone : f.session.types.get? operand = none) :
    c.Reads view start (fun _ => True) ⟨(v.expression scope operand f.session).2, f.operands⟩ := by
  rcases h.tracks.operand index operand ho with ⟨a, ha, -, -⟩ | ⟨-, hnew, hdefault⟩
  · cases hr : v.expression scope operand f.session with
    | mk r s' =>
      cases r with
      | ok type => exact (h.typed hforest hstart hv ha ho hr).1.mono fun _ _ _ _ => .inl trivial
      | error e => exact h.refused hforest hstart hv ha ho hr fun _ => hnone
  · exact h.placeholder hforest hv hnew hdefault

theorem keeps_typeOf_reads (index : Nat) : (CallFrame.typeOf v scope c.op index).Keeps
    (c.Reads view start fun _ => True) := by
  refine keeps_state_bind fun f hf => ?_
  cases ho : f.operands[index]? with
  | none => exact hf
  | some operand =>
    simp only
    split
    · exact hf
    · unfold CallFrame.onSession Checking.focus Visit.On.recorded
      rw [bind_of_ok (state_apply f.session)]
      cases hrecorded : f.session.types.get? operand with
      | some type => exact hf
      | none => exact hf.looked hforest hstart hv ho hrecorded

/-- A cast is put around an operand and validated; it has no type before. -/
theorem keeps_castTo_reads (index : Nat) (target : DataType) :
    (CallFrame.castTo v scope c.call index target).Keeps (c.Reads view start fun _ => True) := by
  intro f hf
  rcases hf.tracks.castTo_synced v scope hf.synced index target with
    hnone | ⟨a, operand, tree, ha, ho, hn, hne, htree, hcast⟩
  · rw [hnone]
    exact hf
  have hinserted := hf.inserted hforest ha ho hn hne htree
  have hnew : (f.operands.set index f.session.tree.nextId)[index]? =
      some f.session.tree.nextId := by
    obtain ⟨hi, -⟩ := List.getElem?_eq_some_iff.mp ho
    simp [hi]
  have hend := hinserted.looked hforest hstart hv hnew hf.confined.continues.types_nextId
  rw [hcast]
  cases hr : v.expression scope f.session.tree.nextId { f.session with tree } with
  | mk r s' =>
    rw [hr] at hend
    cases r with
    | ok type => exact hend
    | error e => exact hend

/-- The check of a call, whatever its engine does and whatever it answers. -/
theorem Reads.checked {s : Session} {all : List NodeId}
    (h : c.Reads view start (fun _ => True) ⟨s, all⟩) :
    ∃ operands, c.Reads view start (fun _ => True) ⟨(checkCall v scope c.call c.op all s).2, operands⟩ := by
  have hview : (CallFrame.view v scope c.call c.op s.settings s.engine).Keeps
      (c.Reads view start fun _ => True) fun _ => True := by
    refine CallView.Keeps.of_castTo (keeps_typeOf_reads hforest hstart hv)
      (fun _ => keeps_castTo_reads hforest hstart hv) fun request f hf => ?_
    have hs := hf.confined.continues
    have htracks : CallFrame.Tracks b.tree c.written
        { f with session := { f.session with requests := f.session.requests ++ [request] } } :=
      hf.tracks.onSession ⟨hs.rewrites.rewritten, hs.rewrites.closed⟩ (.refl _ _)
    refine hf.untouched hforest ?_ htracks hf.synced fun _ _ _ ho _ => ho
    exact .of_same hs rfl rfl rfl rfl rfl (.refl _) id (fun _ _ he _ => he) (fun _ _ => rfl)
      (fun _ _ => rfl) hf.confined.owned
  have hend := hview.check c.op.signature (fun _ _ _ _ _ _ => trivial) ⟨s, all⟩ h
  rw [snd_checkCall]
  exact ⟨_, hend⟩

/-! ### Before and after the check -/

/-- The operands written are validated in order. -/
theorem runs_visitOperands {s : Session} {all : List NodeId} (operands : List NodeId)
    (hlength : index + operands.length ≤ c.written.length) (hfrom : FromIndex all index operands)
    (h : c.Reads view start (· < index) ⟨s, all⟩) :
    Runs (fun _ => b.Confined (b.Beneath c.call) (b.Reach c.call) start) (fun _ => True) s
      (visitOperands v scope c.op.signature index operands)
      fun _ s' => c.Reads view start (· < index + operands.length) ⟨s', all⟩ := by
  induction operands generalizing index s with
  | nil => exact .pure h.confined h
  | cons operand rest ih =>
    obtain ⟨ho, hrest⟩ := hfrom.tail
    rw [List.length_cons] at hlength ⊢
    rw [show index + (rest.length + 1) = index + 1 + rest.length by omega]
    have hlength : index + 1 + rest.length ≤ c.written.length := by omega
    have ha : c.written[index]? = some c.written[index] := List.getElem?_eq_getElem (by omega)
    unfold visitOperands
    refine .ite (fun hkey => ?_) fun hkey => ?_
    · cases hr : v.expression scope operand s with
      | mk r s₁ =>
        cases r with
        | ok type =>
          have hnext := (h.typed hforest hstart hv ha ho hr).1
          refine (ih hlength hrest (hnext.mono fun i _ hi _ => ?_)).of_apply (bind_of_ok hr _)
          exact Nat.lt_succ_iff_lt_or_eq.mp hi
        | error e =>
          have hnone : c.Reads view start (fun _ => False) ⟨s, all⟩ := h.mono fun _ _ hi => hi.elim
          have hend := hnone.refused hforest hstart hv ha ho hr fun hi => hi.elim
          exact (Runs.fail (e := e) hend.confined trivial).of_apply (bind_of_error hr _)
    -- A keyword is nothing to look at.
    · refine ih hlength hrest (h.mono fun i x hi hx => Nat.lt_of_le_of_ne (Nat.le_of_lt_succ hi) ?_)
      rintro rfl
      simp [hx.1] at hkey

/-- Validating an operand that has no type leaves those that are recorded for the others. -/
theorem Reads.retains (h : c.Reads view start seen f) (ha : c.written[index]? = some a)
    (ho : f.operands[index]? = some operand) (hnone : f.session.types.get? operand = none) :
    c.Retains f.operands f.session (v.expression scope operand f.session).2 := by
  intro other x current type hx hcurrent htype
  have hne : index ≠ other := by
    rintro rfl
    obtain rfl := Option.some.inj (ho.symm.trans hcurrent)
    rw [hnone] at htype
    cases htype
  have hc := hv.confinedExpression (h.poised hstart ha) (lt_size_of_written hforest ha) (h.wraps ha ho)
  rw [hc.types x current (lt_size_of_written hforest hx)
    (reach_disjoint hforest hx ha (Ne.symm hne) .refl) (h.wraps hx hcurrent)]
  exact htype

/-- The type of an operand is read. When it is not recorded it is looked for, and no other one is lost. -/
theorem Reads.runs_recorded {s : Session} {all : List NodeId}
    (h : c.Reads view start (fun _ => True) ⟨s, all⟩) (ha : c.written[index]? = some a)
    (ho : all[index]? = some operand) :
    Runs (fun _ => b.Confined (b.Beneath c.call) (b.Reach c.call) start) (fun _ => True) s
      (v.recorded scope operand)
      fun type s' => c.Reads view start (fun _ => True) ⟨s', all⟩ ∧
        s'.types.get? operand = some type ∧ c.Retains all s s' := by
  cases hrecorded : s.types.get? operand with
  | some type =>
    exact (Runs.pure h.confined ⟨h, hrecorded, .refl c all s⟩).of_apply (recorded_of_some hrecorded)
  | none =>
    have hrun : v.recorded scope operand s = v.expression scope operand s := recorded_of_none hrecorded
    have hretains := h.retains hforest hstart hv ha ho hrecorded
    cases hr : v.expression scope operand s with
    | mk r s' =>
      rw [hr] at hretains
      cases r with
      | ok type =>
        obtain ⟨h', htype⟩ := h.typed hforest hstart hv ha ho hr
        have h' : c.Reads view start (fun _ => True) ⟨s', all⟩ := h'.mono fun _ _ _ _ => .inl trivial
        exact (Runs.pure h'.confined ⟨h', htype, hretains⟩).of_apply (hrun.trans hr)
      | error e =>
        have hend := h.refused hforest hstart hv ha ho hr fun _ => hrecorded
        exact (Runs.fail hend.confined trivial).of_apply (hrun.trans hr)

/-- The types of the operands are read, and no type that is recorded is lost. -/
theorem runs_operandTypes {s : Session} {all : List NodeId} (operands : List NodeId)
    (hlength : index + operands.length ≤ c.written.length) (hfrom : FromIndex all index operands)
    (h : c.Reads view start (fun _ => True) ⟨s, all⟩) :
    Runs (fun _ => b.Confined (b.Beneath c.call) (b.Reach c.call) start) (fun _ => True) s
      (operandTypes v scope c.op.signature index operands)
      fun types s' => c.Reads view start (fun _ => True) ⟨s', all⟩ ∧
        s'.Shows c.op.signature index operands types ∧ c.Retains all s s' := by
  induction operands generalizing index s with
  | nil => exact .pure h.confined ⟨h, .nil, .refl c all s⟩
  | cons operand rest ih =>
    obtain ⟨ho, hrest⟩ := hfrom.tail
    rw [List.length_cons] at hlength
    have hlength : index + 1 + rest.length ≤ c.written.length := by omega
    have ha : c.written[index]? = some c.written[index] := List.getElem?_eq_getElem (by omega)
    unfold operandTypes
    refine .ite (fun hkey => ?_) fun hkey => ?_
    · refine (Runs.bind course_of_invariant (ih hlength hrest h) fun types s' _ hq => ?_).of_apply
        (bind_of_ok (pure_apply _ s) _)
      exact .pure hq.1.confined ⟨hq.1, .keyword hkey hq.2.1, hq.2.2⟩
    · have hkey : c.op.signature.isKeyword index = false := by simpa using hkey
      refine (h.runs_recorded hforest hstart hv ha ho).bind course_of_invariant fun type s₁ _ h₁ => ?_
      obtain ⟨hreads, htype, hkept⟩ := h₁
      refine Runs.bind course_of_invariant (ih hlength hrest hreads) fun types s' _ hq => ?_
      obtain ⟨hend, hshows, hlater⟩ := hq
      -- What has been recorded for the first operand is there in the end.
      exact .pure hend.confined
        ⟨hend, .recorded hkey (hlater index _ _ _ ha ho htype) hshows, hkept.trans hlater⟩

end

end

end CallSite

/-! ### The call -/

section

variable {b s : Session} {v : Visit} {view : Outlook} {scope : ScopeId} {call : NodeId} {name : String}
  {operands : List NodeId}

/-- Operands whose types are as nullable as the text says are shown so to a return rule. -/
theorem Session.Shows.eventually_operandNulls {signature : Signature} {index : Nat}
    {written : List NodeId} {types : List DataType} (h : s.Shows signature index operands types)
    (hlength : written.length = operands.length)
    (hnull : ∀ (k : Nat) (a operand : NodeId) (type : DataType), signature.isKeyword (index + k) = false →
      written[k]? = some a → operands[k]? = some operand → s.types.get? operand = some type →
        b.MayBeNull view a type.nullable) :
    ∀ᶠ depth in atTop, Session.operandNulls (b.outlineAt depth) view signature index written =
      types.map (·.nullable) := by
  induction h generalizing written with
  | nil =>
    obtain rfl := List.eq_nil_of_length_eq_zero hlength
    exact .of_forall fun _ => rfl
  | @keyword index operand operands types hkey _ ih =>
    obtain ⟨a, rest, rfl⟩ := List.exists_cons_of_length_eq_add_one hlength
    have hrest := ih (Nat.succ.inj hlength) fun k x current type hk => hnull (k + 1) x current type (by
      rwa [Nat.add_assoc, Nat.add_comm 1 k] at hk)
    filter_upwards [hrest] with depth hd
    unfold Session.operandNulls
    rw [hd, if_pos hkey]
    rfl
  | @recorded index operand operands type types hkey htype _ ih =>
    obtain ⟨a, rest, rfl⟩ := List.exists_cons_of_length_eq_add_one hlength
    have hrest := ih (Nat.succ.inj hlength) fun k x current type hk => hnull (k + 1) x current type (by
      rwa [Nat.add_assoc, Nat.add_comm 1 k] at hk)
    filter_upwards [hrest, hnull 0 a operand type hkey rfl rfl htype] with depth hd hfirst
    unfold Session.operandNulls
    rw [hd, if_neg (by simp [hkey]), hfirst]
    rfl

/-- An operand that is no keyword has a type when it is shown with one. -/
theorem Session.Shows.exists_type {signature : Signature} {index k : Nat} {operand : NodeId}
    {types : List DataType} (h : s.Shows signature index operands types)
    (hkey : signature.isKeyword (index + k) = false) (ho : operands[k]? = some operand) :
    ∃ type, s.types.get? operand = some type := by
  induction h generalizing k with
  | nil => cases ho
  | keyword hfirst _ ih =>
    cases k with
    | zero =>
      rw [Nat.add_zero, hfirst] at hkey
      cases hkey
    | succ k =>
      refine ih ?_ ho
      rwa [Nat.add_assoc, Nat.add_comm 1 k]
  | recorded _ htype _ ih =>
    cases k with
    | zero =>
      cases ho
      exact ⟨_, htype⟩
    | succ k =>
      refine ih ?_ ho
      rwa [Nat.add_assoc, Nat.add_comm 1 k]

namespace CallSite

variable {c : CallSite b} {s' : Session} {all shown : List NodeId} {type : DataType}
  {types : List DataType}

/-- Placeholders are added, and nothing is known of the operands. -/
theorem reads_padded (hs : b.Continues s) (howned : s.sources.Owned)
    (hn : s.tree.node? c.call = some (.call c.name operands))
    (hpad : padded c.op.signature operands s = (.ok all, s')) :
    c.Reads view s (· < 0) ⟨s', all⟩ ∧ operands = all.take c.written.length := by
  obtain ⟨hfollows, htake⟩ := follows_padded hs hn hpad
  have hsame : s'.scopes = s.scopes ∧ s'.sources = s.sources := by
    rw [padded_apply] at hpad
    split at hpad
    · cases hpad
      exact ⟨rfl, rfl⟩
    · cases hpad
      exact ⟨rfl, rfl⟩
  refine ⟨⟨.of_within (hfollows.within.mono (fun _ hx => Tree.StrictlyBelow.child hx)
    fun _ hx => Tree.Below.child hx) howned hsame.1 hsame.2, hfollows.tracks, hfollows.synced,
    fun hi => absurd hi (Nat.not_lt_zero _)⟩, htake⟩

/-- A call whose operands are shown to its return rule has come to its type. -/
theorem Reads.called {start : Session} (h : c.Reads view start (fun _ => True) ⟨s', shown⟩)
    (hshows : s'.Shows c.op.signature 0 (shown.take c.written.length) types)
    (hinfer : c.op.returns.infer types = .ok type) :
    b.Judged s' c.call (.call c.name (shown.take c.written.length)) type ∧
      (∀ x ∈ (Node.call c.name (shown.take c.written.length)).visited b.operators, b.CoherentFrom s' x) ∧
        b.MayBeNull view c.call type.nullable := by
  -- An operand that is looked at has a type by now.
  have hlooked : ∀ k operand, c.op.signature.isKeyword k = false →
      (shown.take c.written.length)[k]? = some operand → ∃ a type, c.Looks k a ∧
        shown[k]? = some operand ∧ s'.types.get? operand = some type := by
    intro k operand hkey ho
    obtain ⟨type, htype⟩ := hshows.exists_type (by rwa [Nat.zero_add]) ho
    rw [List.getElem?_take] at ho
    split at ho
    · rename_i hk
      exact ⟨c.written[k], type, ⟨hkey, List.getElem?_eq_getElem hk⟩, ho, htype⟩
    · cases ho
  refine ⟨⟨h.synced, ⟨c.op, types, ?_, hshows, hinfer⟩, nofun⟩, fun operand ho => ?_, ?_⟩
  · rw [h.confined.continues.operators]
    exact c.operator
  · obtain ⟨found, k, hfound, hkey, hk⟩ := OperatorTable.exists_of_mem_visitedOperands ho
    obtain rfl := Option.some.inj (c.operator.symm.trans hfound)
    obtain ⟨a, type, hl, hshown, htype⟩ := hlooked k operand hkey hk
    exact (h.operand trivial hl hshown htype).1
  · have hnulls : ∀ᶠ depth in atTop, Session.operandNulls (b.outlineAt depth) view c.op.signature 0
        c.written = types.map (·.nullable) := by
      refine hshows.eventually_operandNulls ?_ fun k a operand type hkey ha ho htype => ?_
      · have hle : c.written.length ≤ shown.length := h.written_length_le
        rw [List.length_take]
        omega
      · rw [Nat.zero_add] at hkey
        obtain ⟨x, known, hl, hshown, -⟩ := hlooked k operand hkey ho
        obtain rfl := Option.some.inj (ha.symm.trans hl.2)
        exact (h.operand trivial hl hshown htype).2
    refine .of_step (hnulls.mono fun depth hd => ?_)
    unfold Session.outlineStep
    simp only [c.node, c.operator]
    rw [ReturnRule.nullable_of_infer hinfer, ← hd]

end CallSite

/-- However the validation of a call ends, nothing but what is below it has got types; with a result the call
    has come to its type. -/
theorem Visit.Coheres.runs_callType (hv : v.Coheres b) (hforest : b.tree.IsForest)
    (hs : b.Poised (b.Reach call) s scope view)
    (hn : s.tree.node? call = some (.call name operands)) :
    Runs (fun _ => b.Confined (b.Beneath call) (b.Reach call) s) (fun _ => True) s
      (callType v scope call name operands)
      fun type s' => ∃ node, b.Judged s' call node type ∧
        (∀ x ∈ node.visited b.operators, b.CoherentFrom s' x) ∧ b.MayBeNull view call type.nullable := by
  obtain ⟨written, hwritten, hw⟩ := hs.continues.rewrites.rewritten.call_of_call hn
  have hstay : b.Confined (b.Beneath call) (b.Reach call) s s := .refl hs.continues hs.owned
  unfold callType
  refine .state_bind ?_
  cases hop : s.operators.lookup? name with
  | none => exact .fail hstay trivial
  | some op =>
    refine .ite (fun _ => .fail hstay trivial) fun _ => ?_
    let c : CallSite b :=
      { call, name, written, op, node := hwritten, operator := by rw [← hs.continues.operators, hop] }
    obtain ⟨all, s₁, hpad⟩ := exists_padded op.signature operands s
    obtain ⟨hpadded, htake⟩ := CallSite.reads_padded (c := c) hs.continues hs.owned hn hpad
    have hlength : operands.length = c.written.length := hw.length_eq.symm
    refine Runs.of_apply ?_ (bind_of_ok hpad _)
    have hvisit := CallSite.runs_visitOperands hforest hs hv (c := c) operands (by omega)
      (by rw [htake]; exact .take all c.written.length) hpadded
    refine hvisit.bind course_of_invariant fun _ s₂ _ hseen => ?_
    have hseen : c.Reads view s (fun _ => True) ⟨s₂, all⟩ := hseen.mono fun i a _ hl => by
      obtain ⟨hi, -⟩ := List.getElem?_eq_some_iff.mp hl.2
      omega
    obtain ⟨shown, hchecked⟩ := hseen.checked hforest hs hv
    cases hcheck : checkCall v scope c.call c.op all s₂ with
    | mk r s₃ =>
      rw [hcheck] at hchecked
      cases r with
      | error e => exact (Runs.fail (e := e) hchecked.confined trivial).of_apply (bind_of_error hcheck _)
      | ok answer =>
        refine Runs.of_apply ?_ (bind_of_ok hcheck _)
        -- The operands are read again: casts may have been put around them.
        have hread : (s₃.tree.operands? call).getD [] = shown.take c.written.length := by
          unfold Tree.operands?
          rw [hchecked.synced]
          rfl
        refine .state_bind ?_
        rw [Host.session_self, hread]
        have htypes := CallSite.runs_operandTypes hforest hs hv (c := c)
          (shown.take c.written.length) (by simp) (.take shown c.written.length) hchecked
        refine htypes.bind course_of_invariant fun types s₄ _ hq => ?_
        exact .ofExcept hq.1.confined (fun type hinfer => ⟨_, hq.1.called hq.2.1 hinfer⟩)
          fun _ _ => trivial

end

end SqlTyping
