import SqlTyping.Proofs.Session.Traversal
import SqlTyping.Proofs.Tree.Rewriting
import SqlTyping.Proofs.Tree.Skeleton

namespace SqlTyping

/-!
# Validation only inserts implicit casts

Whatever validation finds, and whichever engine converts the operands, the statement afterwards is
the statement as written with implicit casts around operands of calls (`validation_inserts_casts`).

The operands of a call under validation are kept in its frame. A validation inside may rewrite the
same call, so the frame need not agree with the tree; but each of its operands still wraps the
operand that was written (`CallFrame.Tracks`), and this is all that a cast inserted next needs. An
invariant that the operands of the call keep is kept by the call (`Visit.KeepsOperands.keeps_call`).
-/

/-- The tree of a session is `t₀` with casts inserted, and refers to no missing node. -/
structure Session.Rewrites (t₀ : Tree) (s : Session) : Prop where
  rewritten : Tree.RewrittenFrom t₀ s.tree
  closed : s.tree.NoDangling

/-- Nothing that was added is a query or an entry of one. -/
theorem Session.Rewrites.node?_of_isClause {t₀ : Tree} {s : Session} (h : s.Rewrites t₀) {id : NodeId}
    {node : Node} (hn : s.tree.node? id = some node) (hclause : node.isClause = true) :
    t₀.node? id = some node := by
  by_cases hid : id.index < t₀.size
  · refine h.rewritten.node?_eq hid hn ?_
    cases node with
    | call => cases hclause
    | _ => rfl
  · rcases h.rewritten.added id (by omega) (Tree.lt_size_of_node? hn) with ⟨_, _, hc, -⟩ | ⟨hc, -⟩
    · rw [hn] at hc
      cases hc
      cases hclause
    · rw [hn] at hc
      cases hc
      cases hclause

/-- The same, and the nodes that were added by the time of `t₁` are as they were. -/
def Session.RewritesSince (t₀ t₁ : Tree) (s : Session) : Prop :=
  s.Rewrites t₀ ∧ Tree.KeepsAdded t₀ t₁ s.tree

/-- A node wraps the operand that was `written` at a place in `t₀`, or it is a placeholder behind
    the operands that were written. -/
def Tree.OperandAt (t₀ : Tree) (written : List NodeId) (t : Tree) (index : Nat) (current : NodeId) :
    Prop :=
  (∃ a, written[index]? = some a ∧ Tree.Wraps t₀ t a current ∧ (t.node? current).isSome = true) ∨
    (written.length ≤ index ∧ t₀.size ≤ current.index ∧ t.node? current = some .default)

/-- Every operand of the frame wraps one of the operands `written` in `t₀`, or is a placeholder
    behind them. -/
structure CallFrame.Tracks (t₀ : Tree) (written : List NodeId) (f : CallFrame) : Prop where
  rewrites : f.session.Rewrites t₀
  operand : ∀ index current, f.operands[index]? = some current →
    Tree.OperandAt t₀ written f.session.tree index current

open Checking

variable {t₀ : Tree}

namespace CallFrame

variable {written : List NodeId} {f : CallFrame}

/-- The frame still tracks the operands after changes that keep the added nodes. -/
theorem Tracks.onSession {s : Session} (h : f.Tracks t₀ written) (hs : s.Rewrites t₀)
    (hk : Tree.KeepsAdded t₀ f.session.tree s.tree) :
    CallFrame.Tracks t₀ written { f with session := s } where
  rewrites := hs
  operand index current hc := by
    rcases h.operand index current hc with ⟨a, ha, hw, hn⟩ | ⟨hi, hnew, hn⟩
    · refine .inl ⟨a, ha, hw.mono hk, ?_⟩
      have := hk.size_le
      rw [Tree.isSome_node?_iff] at hn ⊢
      exact Nat.lt_of_lt_of_le hn this
    · exact .inr ⟨hi, hnew, (hk.node? current hnew (Tree.lt_size_of_node? hn)).trans hn⟩

/-- An operand that can be cast is one of those written. -/
theorem Tracks.written_of_not_isDefault {index : Nat} {current : NodeId} (h : f.Tracks t₀ written)
    (hc : f.operands[index]? = some current) (hd : f.isDefault index = false) :
    ∃ a, written[index]? = some a ∧ Tree.Wraps t₀ f.session.tree a current ∧
      (f.session.tree.node? current).isSome = true ∧
      f.session.tree.node? current ≠ some .default := by
  have hne : f.session.tree.node? current ≠ some .default := by
    intro hn
    rw [(isDefault_iff hc).mpr hn] at hd
    cases hd
  rcases h.operand index current hc with ⟨a, ha, hw, hn⟩ | ⟨-, -, hn⟩
  · exact ⟨a, ha, hw, hn, hne⟩
  · exact absurd hn hne

/-- Behind the operands written there are placeholders. -/
theorem Tracks.isDefault_of_length_le {index : Nat} (h : f.Tracks t₀ written)
    (hi : index < f.operands.length) (hbehind : written.length ≤ index) : f.isDefault index = true := by
  have hc : f.operands[index]? = some f.operands[index] := List.getElem?_eq_getElem hi
  rcases h.operand index _ hc with ⟨a, ha, -⟩ | ⟨-, -, hn⟩
  · obtain ⟨hlt, -⟩ := List.getElem?_eq_some_iff.mp ha
    omega
  · exact (isDefault_iff hc).mpr hn

end CallFrame

/-! ### One call -/

section

variable {written : List NodeId} {t₁ : Tree} {v : Visit} {scope : ScopeId} {call : NodeId}
  {op : Operator}

/-- The frame tracks the operands, and the nodes that were added by the time of `t₁` are as they
    were. -/
def CallFrame.TracksSince (t₀ t₁ : Tree) (written : List NodeId) (f : CallFrame) : Prop :=
  f.Tracks t₀ written ∧ Tree.KeepsAdded t₀ t₁ f.session.tree

/-- A frame goes on tracking its operands while the session is validated further. -/
theorem CallFrame.TracksSince.onSession {f : CallFrame} {s : Session}
    (h : f.TracksSince t₀ t₁ written) (hs : s.RewritesSince t₀ f.session.tree) :
    CallFrame.TracksSince t₀ t₁ written { f with session := s } :=
  ⟨h.1.onSession hs.1 hs.2, h.2.trans hs.2⟩

/-- Validating the operands of a call, from the scope of the call, keeps `J`; so do the changes to
    the statement and the requests to the engine that come with a call. -/
structure Visit.KeepsOperands (t₀ : Tree) (written : List NodeId) (scope : ScopeId)
    (J : Session → Prop) (v : Visit) : Prop where
  tree : ∀ s tree, s.tree.Inserts tree → Session.Rewrites t₀ { s with tree } → J s → J { s with tree }
  requests : ∀ s requests, J s → J { s with requests }
  operand : ∀ s index id, s.Rewrites t₀ → J s → Tree.OperandAt t₀ written s.tree index id →
    J (v.expression scope id s).2

/-- A frame that tracks its operands, in a session with `J`. -/
def CallFrame.TracksWith (t₀ t₁ : Tree) (written : List NodeId) (J : Session → Prop)
    (f : CallFrame) : Prop :=
  f.TracksSince t₀ t₁ written ∧ J f.session

variable {J : Session → Prop}

/-- Validating one of its operands keeps a frame tracking them. -/
theorem Visit.KeepsOperands.keeps_expression (hj : v.KeepsOperands t₀ written scope J)
    (hv : ∀ t, v.Keeps (Session.RewritesSince t₀ t)) {operands : List NodeId} {operand : NodeId}
    (ho : operand ∈ operands) : (v.expression scope operand).Keeps
      fun s => CallFrame.TracksWith t₀ t₁ written J ⟨s, operands⟩ := by
  rintro s ⟨hs, hJ⟩
  obtain ⟨index, hi, rfl⟩ := List.getElem_of_mem ho
  have hat := hs.1.operand index _ (List.getElem?_eq_getElem hi)
  refine ⟨?_, hj.operand s index _ hs.1.rewrites hJ hat⟩
  exact hs.onSession ((hv s.tree).expression scope _ s ⟨hs.1.rewrites, .refl _ _⟩)

section

variable {f : CallFrame} {name : String} {index : Nat} {current : NodeId} (hf : f.Tracks t₀ written)
  (hcall : t₀.node? call = some (.call name written)) (hc : f.operands[index]? = some current)
  (hd : f.isDefault index = false) (target : CastTarget)

include hf hcall hc hd

/-- A cast of an operand is added to the tree. -/
theorem CallFrame.Tracks.pushCast :
    Session.RewritesSince t₀ f.session.tree
        { f.session with tree := f.session.tree.pushCast current target true } ∧
      f.session.tree.Inserts (f.session.tree.pushCast current target true) ∧
      Tree.Recast t₀ call f.session.tree (f.session.tree.pushCast current target true) := by
  obtain ⟨a, ha, hw, hn, hne⟩ := hf.written_of_not_isDefault hc hd
  obtain ⟨hr, hclosed⟩ := hf.rewrites
  obtain ⟨hgrown, hgrownClosed⟩ := hr.pushCast target hclosed hn hne
  refine ⟨⟨⟨hgrown, hgrownClosed⟩, Tree.keepsAdded_push _ _⟩, .looseCast current target hn, ?_⟩
  refine Tree.recast_push hr.size_le (.inr ⟨_, a, hcall, List.mem_of_getElem? ha, ?_⟩)
  exact .cast hr.size_le (Tree.node?_pushCast_nextId _ _ _) (hw.mono (Tree.keepsAdded_push _ _))

/-- The call is pointed at the cast, which is the operand from then on. -/
theorem CallFrame.Tracks.insertCast {tree : Tree}
    (ht : (f.session.tree.pushCast current target true).replaceOperand? call index
      f.session.tree.nextId = some tree) :
    Session.RewritesSince t₀ f.session.tree { f.session with tree } ∧
      f.session.tree.Inserts tree ∧ Tree.Recast t₀ call f.session.tree tree ∧
      CallFrame.Tracks t₀ written
        ⟨{ f.session with tree }, f.operands.set index f.session.tree.nextId⟩ := by
  obtain ⟨a, ha, hw, hn, hne⟩ := hf.written_of_not_isDefault hc hd
  have hpush := (hf.pushCast hcall hc hd target).2.2
  obtain ⟨hr, hclosed⟩ := hf.rewrites
  obtain ⟨htree, htreeClosed, hkeep, hwrap, hself⟩ := hr.insertCast hclosed hcall ha hw hn hne ht
  have hsame := hpush.replaceOperand hr.size_le (Tree.lt_size_of_node? hcall) ht
  have hmoved : CallFrame.Tracks t₀ written { f with session := { f.session with tree } } :=
    hf.onSession ⟨htree, htreeClosed⟩ hkeep
  have hi : index < f.operands.length := (List.getElem?_eq_some_iff.mp hc).1
  refine ⟨⟨⟨htree, htreeClosed⟩, hkeep⟩, .cast call index current target hn ht, hsame, hmoved.rewrites,
    fun i b hb => ?_⟩
  simp only [List.getElem?_set, hi, if_true] at hb
  split at hb
  · rename_i heq
    subst heq
    cases hb
    exact .inl ⟨a, ha, hwrap, by rw [hself]; rfl⟩
  · exact hmoved.operand i b hb

end

/-- What a cast of an operand comes to: nothing, a cast that no call points at, or a cast that is the
    operand from then on and is validated. -/
theorem CallFrame.Tracks.castTo_cases (v : Visit) (scope : ScopeId) {f : CallFrame} {name : String}
    (hf : f.Tracks t₀ written) (hcall : t₀.node? call = some (.call name written)) (index : Nat)
    (target : DataType) :
    CallFrame.castTo v scope call index target f = (.ok false, f) ∨
      ∃ tree, Session.RewritesSince t₀ f.session.tree { f.session with tree } ∧
        f.session.tree.Inserts tree ∧ Tree.Recast t₀ call f.session.tree tree ∧
        (CallFrame.castTo v scope call index target f =
            (.ok false, { f with session := { f.session with tree } }) ∨
          index < f.operands.length ∧
            CallFrame.Tracks t₀ written
              ⟨{ f.session with tree }, f.operands.set index f.session.tree.nextId⟩ ∧
            CallFrame.castTo v scope call index target f =
              match v.expression scope f.session.tree.nextId { f.session with tree } with
              | (.ok _, s) => (.ok true, ⟨s, f.operands.set index f.session.tree.nextId⟩)
              | (.error e, s) => (.error e, ⟨s, f.operands.set index f.session.tree.nextId⟩)) := by
  cases hd : f.isDefault index with
  | true => exact .inl (CallFrame.castTo_of_isDefault hd ..)
  | false =>
  cases hc : f.operands[index]? with
  | none => exact .inl (CallFrame.castTo_of_none hc ..)
  | some current =>
  right
  rw [CallFrame.castTo_of_operand hd hc]
  split
  · obtain ⟨hsince, hinserts, hpush⟩ := hf.pushCast hcall hc hd target.toTarget
    exact ⟨_, hsince, hinserts, hpush, .inl rfl⟩
  · rename_i tree ht
    obtain ⟨hsince, hinserts, hrecast, htracks⟩ := hf.insertCast hcall hc hd target.toTarget ht
    exact ⟨tree, hsince, hinserts, hrecast, .inr ⟨(List.getElem?_eq_some_iff.mp hc).1, htracks, rfl⟩⟩

/-- The same when the call in the tree has the operands of the frame: then a cast is inserted whenever there
    is an operand that is no placeholder. -/
theorem CallFrame.Tracks.castTo_synced (v : Visit) (scope : ScopeId) {f : CallFrame} {name : String}
    (hf : f.Tracks t₀ written)
    (hsynced : f.session.tree.node? call = some (.call name (f.operands.take written.length)))
    (index : Nat) (target : DataType) :
    CallFrame.castTo v scope call index target f = (.ok false, f) ∨
      ∃ a operand tree, written[index]? = some a ∧ f.operands[index]? = some operand ∧
        (f.session.tree.node? operand).isSome = true ∧
        f.session.tree.node? operand ≠ some .default ∧
        (f.session.tree.pushCast operand target.toTarget true).replaceOperand? call index
          f.session.tree.nextId = some tree ∧
        CallFrame.castTo v scope call index target f =
          match v.expression scope f.session.tree.nextId { f.session with tree } with
          | (.ok _, s) => (.ok true, ⟨s, f.operands.set index f.session.tree.nextId⟩)
          | (.error e, s) => (.error e, ⟨s, f.operands.set index f.session.tree.nextId⟩) := by
  cases hd : f.isDefault index with
  | true => exact .inl (CallFrame.castTo_of_isDefault hd ..)
  | false =>
  cases ho : f.operands[index]? with
  | none => exact .inl (CallFrame.castTo_of_none ho v scope call target)
  | some operand =>
    obtain ⟨a, ha, hw, hn, hne⟩ := hf.written_of_not_isDefault ho hd
    obtain ⟨hi, -⟩ := List.getElem?_eq_some_iff.mp ha
    obtain ⟨hi', -⟩ := List.getElem?_eq_some_iff.mp ho
    have hlt : index < (f.operands.take written.length).length := by
      rw [List.length_take]
      omega
    obtain ⟨tree, ht⟩ : ∃ tree, (f.session.tree.pushCast operand target.toTarget true).replaceOperand?
        call index f.session.tree.nextId = some tree := Tree.exists_insertCast hsynced hlt
    refine .inr ⟨a, operand, tree, ha, rfl, hn, hne, ht, ?_⟩
    rewrite [CallFrame.castTo_of_operand hd ho, ht]
    rfl

/-- A cast of an operand keeps the frame tracking its operands, whether or not it finds one. -/
theorem keeps_castTo {name : String} (hj : v.KeepsOperands t₀ written scope J)
    (hv : ∀ t, v.Keeps (Session.RewritesSince t₀ t))
    (hcall : t₀.node? call = some (.call name written)) (index : Nat) (target : DataType) :
    (CallFrame.castTo v scope call index target).Keeps
      (CallFrame.TracksWith t₀ t₁ written J) := by
  rintro f ⟨hf, hJ⟩
  rcases hf.1.castTo_cases v scope hcall index target with
    h | ⟨tree, hsince, hinserts, -, h | ⟨hi, htracks, h⟩⟩
  · rw [h]
    exact ⟨hf, hJ⟩
  · rw [h]
    exact ⟨hf.onSession hsince, hj.tree _ _ hinserts hsince.1 hJ⟩
  · have hvisit := hj.keeps_expression hv (List.mem_set hi f.session.tree.nextId)
      { f.session with tree } ⟨⟨htracks, hf.2.trans hsince.2⟩, hj.tree _ _ hinserts hsince.1 hJ⟩
    rw [h]
    cases hx : v.expression scope f.session.tree.nextId { f.session with tree } with
    | mk r s =>
      rw [hx] at hvisit
      cases r with
      | ok type => exact hvisit
      | error e => exact hvisit

/-- The type of an operand is looked up without losing track of the operands. -/
theorem keeps_typeOf (hj : v.KeepsOperands t₀ written scope J)
    (hv : ∀ t, v.Keeps (Session.RewritesSince t₀ t)) (index : Nat) :
    (CallFrame.typeOf v scope op index).Keeps (CallFrame.TracksWith t₀ t₁ written J) := by
  refine keeps_state_bind fun f hf => ?_
  cases ho : f.operands[index]? with
  | none => exact hf
  | some operand =>
    simp only
    split
    · exact hf
    · exact keeps_recorded (hj.keeps_expression hv (List.mem_of_getElem? ho)) f.session hf

/-- The operator's check of a call keeps track of its operands. -/
theorem keeps_checkCall {name : String} (hj : v.KeepsOperands t₀ written scope J)
    (hv : ∀ t, v.Keeps (Session.RewritesSince t₀ t))
    (hcall : t₀.node? call = some (.call name written)) (all : List NodeId) :
    (checkCall v scope call op all).Keeps
      fun s => CallFrame.TracksWith t₀ t₁ written J ⟨s, all⟩ := by
  rintro s ⟨hs, hJ⟩
  have hview : (CallFrame.view v scope call op s.settings s.engine).Keeps
      (CallFrame.TracksWith t₀ s.tree written J) fun _ => True := by
    refine CallView.Keeps.of_castTo (keeps_typeOf hj hv) (fun _ => keeps_castTo hj hv hcall) ?_
    rintro request f ⟨hf, hJ⟩
    refine ⟨?_, hj.requests _ _ hJ⟩
    exact hf.onSession (s := { f.session with requests := f.session.requests ++ [request] })
      ⟨⟨hf.1.rewrites.1, hf.1.rewrites.2⟩, .refl _ _⟩
  -- The operands of the frame may have moved; those of `s` are still tracked.
  have hend := hview.check op.signature (fun _ _ _ _ _ _ => trivial) ⟨s, all⟩
    ⟨⟨hs.1, .refl _ _⟩, hJ⟩
  rw [snd_checkCall]
  exact ⟨hs.onSession ⟨hend.1.1.rewrites, hend.1.2⟩, hend.2⟩

/-- The operands that a call has now are tracked. -/
theorem Session.Rewrites.tracks {name : String} {operands : List NodeId} {s : Session}
    (hs : s.Rewrites t₀) (hcall : s.tree.node? call = some (.call name operands))
    (hw : List.Forall₂ (Tree.Wraps t₀ s.tree) written operands) :
    CallFrame.Tracks t₀ written ⟨s, operands⟩ := by
  refine ⟨hs, fun index current hc => .inl ?_⟩
  obtain ⟨hi, rfl⟩ := List.getElem?_eq_some_iff.mp hc
  have hi' : index < written.length := by
    rw [hw.length_eq]
    exact hi
  refine ⟨written[index], List.getElem?_eq_getElem hi', ?_, ?_⟩
  · exact hw.get hi' hi
  · exact hs.closed call _ hcall _ (List.getElem_mem hi)

/-- The operands of a call that are read from the tree are tracked. -/
theorem Session.Rewrites.tracks_operands {name : String} {s : Session} (hs : s.Rewrites t₀)
    (hcall : t₀.node? call = some (.call name written)) :
    written.length = ((s.tree.operands? call).getD []).length ∧
      CallFrame.Tracks t₀ written ⟨s, (s.tree.operands? call).getD []⟩ := by
  obtain ⟨current, hcurrent, hwraps⟩ := hs.rewritten.call call name written hcall
  have hread : (s.tree.operands? call).getD [] = current := by
    unfold Tree.operands?
    rw [hcurrent]
    rfl
  rw [hread]
  exact ⟨hwraps.length_eq, hs.tracks hcurrent hwraps⟩

/-- The operands of a call and new placeholders behind them are tracked. -/
theorem tracksSince_padded {name : String} {operands all : List NodeId} {s s' : Session}
    {signature : Signature} (hs : s.RewritesSince t₀ t₁)
    (hcall : s.tree.node? call = some (.call name operands))
    (hw : List.Forall₂ (Tree.Wraps t₀ s.tree) written operands)
    (hpad : padded signature operands s = (.ok all, s')) :
    CallFrame.TracksSince t₀ t₁ written ⟨s', all⟩ := by
  obtain ⟨⟨hr, hclosed⟩, hk⟩ := hs
  have htracks := Session.Rewrites.tracks ⟨hr, hclosed⟩ hcall hw
  rw [padded_apply] at hpad
  split at hpad
  · cases hpad
    exact ⟨htracks, hk⟩
  · cases hpad
    have hpush : Tree.KeepsAdded t₀ s.tree (s.tree.push .default) := Tree.keepsAdded_push _ _
    obtain ⟨hgrown, hgrownClosed⟩ := hr.push_default hclosed
    have hmoved := htracks.onSession (s := { s with tree := s.tree.push .default })
      ⟨hgrown, hgrownClosed⟩ hpush
    refine ⟨⟨⟨hgrown, hgrownClosed⟩, fun index current hc => ?_⟩, hk.trans hpush⟩
    rw [List.getElem?_append] at hc
    split at hc
    · exact hmoved.operand index current hc
    · rename_i hi
      obtain ⟨-, rfl⟩ := List.mem_replicate.mp (List.mem_of_getElem? hc)
      refine .inr ⟨?_, hr.size_le, ?_⟩
      · rw [hw.length_eq]
        omega
      · rw [Tree.node?_push, if_pos rfl]

/-- A call keeps an invariant that its operands keep. -/
theorem Visit.KeepsOperands.keeps_call {name : String} {operands : List NodeId} {s : Session}
    (hj : v.KeepsOperands t₀ written scope J) (hv : ∀ t, v.Keeps (Session.RewritesSince t₀ t))
    (hcall : t₀.node? call = some (.call name written)) (hs : s.RewritesSince t₀ t₁) (hJ : J s)
    (hn : s.tree.node? call = some (.call name operands))
    (hw : List.Forall₂ (Tree.Wraps t₀ s.tree) written operands) :
    (callType v scope call name operands s).2.RewritesSince t₀ t₁ ∧
      J (callType v scope call name operands s).2 := by
  refine keeps_callType (P := fun s => s.RewritesSince t₀ t₁ ∧ J s)
    (Q := fun all s => CallFrame.TracksWith t₀ t₁ written J ⟨s, all⟩) ⟨hs, hJ⟩ ?_
    (fun all operand ho => hj.keeps_expression hv ho) (fun op all => keeps_checkCall hj hv hcall all)
    ?_ fun all s' hs' => ⟨⟨hs'.1.1.rewrites, hs'.1.2⟩, hs'.2⟩
  · intro op all s' hpad
    have htracks := tracksSince_padded hs hn hw hpad
    refine ⟨htracks, ?_⟩
    rw [padded_apply] at hpad
    split at hpad
    · cases hpad
      exact hJ
    · cases hpad
      exact hj.tree _ _ .placeholder htracks.1.rewrites hJ
  -- The check leaves a call of the same operator, whose operands wrap those that were written.
  · intro all s' hs'
    exact ⟨⟨(hs'.1.1.rewrites.tracks_operands hcall).2, hs'.1.2⟩, hs'.2⟩

end

/-! ### Whole runs -/

/-- Validation to any depth rewrites the tree by casts, and does not touch what it added before. -/
theorem visitAt_rewrites (t₀ t₁ : Tree) (depth : Nat) :
    (visitAt depth).Keeps (Session.RewritesSince t₀ t₁) := by
  refine visitAt_keeps (fun _ => 0) (Session.RewritesSince t₀)
    (fun t => Session.Invariant.ofTree ?_) ?_ depth t₁
  · rintro s s' htree - ⟨⟨hr, hclosed⟩, hk⟩
    exact ⟨⟨htree ▸ hr, htree ▸ hclosed⟩, htree ▸ hk⟩
  · intro v hv t scope id name operands s hs hn
    obtain ⟨written, hcall, hw⟩ := hs.1.rewritten.call_of_call hn
    have hj : v.KeepsOperands t₀ written scope fun _ => True :=
      ⟨fun _ _ _ _ h => h, fun _ _ h => h, fun _ _ _ _ h _ => h⟩
    exact (hj.keeps_call hv hcall hs trivial hn hw).1

/-- Operands may not be converted, and every node of `t₀` is in the tree as it was. -/
def Session.LeavesNodes (t₀ : Tree) (s : Session) : Prop :=
  s.settings.coercion = false ∧
    ∀ id node, t₀.node? id = some node → s.tree.node? id = some node

/-- Without conversion validation to any depth leaves every node as it was. -/
theorem visitAt_leavesNodes (t₀ : Tree) (depth : Nat) :
    (visitAt depth).Keeps (Session.LeavesNodes t₀) := by
  refine visitAt_keeps (fun _ : Unit => 0) (fun _ => Session.LeavesNodes t₀)
    (fun _ => Session.Invariant.ofTree ?_) ?_ depth ()
  · rintro s s' htree hsettings ⟨hc, hnodes⟩
    exact ⟨hsettings ▸ hc, htree ▸ hnodes⟩
  · intro v hv _ scope id name operands s hs hn
    refine keeps_callType (Q := fun _ => Session.LeavesNodes t₀) hs ?_
      (fun _ operand _ => (hv ()).expression scope operand) ?_ (fun _ _ h => h) fun _ _ h => h
    · intro op all s' hpad
      rw [padded_apply] at hpad
      split at hpad
      · cases hpad
        exact hs
      · cases hpad
        refine ⟨hs.1, fun id node hid => ?_⟩
        have hid' := hs.2 id node hid
        rw [Tree.node?_push, if_neg (Tree.ne_nextId_of_lt (Tree.lt_size_of_node? hid'))]
        exact hid'
    · intro op all s hs
      -- The call asks for no cast, as its operands may not be converted.
      have hview : (CallFrame.view v scope id op s.settings s.engine).Keeps
          (fun f => f.session.LeavesNodes t₀) fun _ => True := by
        refine CallView.Keeps.of_castTo (fun index => ?_)
          (fun hc => absurd hc (by simp [CallFrame.view, hs.1])) fun _ _ hf => hf
        refine keeps_state.bind fun f => ?_
        split
        · exact keeps_fail _
        · refine Keeps.ite (fun _ => keeps_pure _) fun _ => Keeps.focus fun f hf => ?_
          exact keeps_recorded ((hv ()).expression scope _) f.session hf
      exact hview.check op.signature (fun _ _ _ _ _ _ => trivial) ⟨s, all⟩ hs

/-- However a validation ends, the statement is the one it started with, with implicit casts around
    operands of calls; without conversion every node is as it was. -/
structure Validation.InsertsCasts {α : Type} (x : Validation α) (s : Session) : Prop where
  rewritten : s.tree.RewrittenFrom (x s).2.tree
  unchanged : s.settings.coercion = false → ∀ id node, s.tree.node? id = some node →
    (x s).2.tree.node? id = some node

/-- Validating a query or an expression inserts implicit casts into the statement and does nothing
    else to it, in every session, in every scope, with every engine, and also when it fails. -/
theorem validation_inserts_casts (s : Session) (hd : s.tree.NoDangling) (scope : ScopeId)
    (id : NodeId) :
    (Session.validateQuery id).InsertsCasts s ∧
      (Session.validateQueryIn scope id).InsertsCasts s ∧
      (Session.deriveType scope id).InsertsCasts s := by
  have hstart : s.RewritesSince s.tree s.tree := ⟨⟨.refl _, hd⟩, .refl _ _⟩
  have hrewrites := visitAt_rewrites s.tree s.tree s.maxDepth
  have hleaves := visitAt_leavesNodes s.tree s.maxDepth
  have hquery : ∀ scope, (Session.validateQueryIn scope id).InsertsCasts s := by
    intro scope
    exact ⟨(hrewrites.query scope id s hstart).1.rewritten,
      fun hc => (hleaves.query scope id s ⟨hc, fun _ _ h => h⟩).2⟩
  refine ⟨hquery ScopeTree.rootId, hquery scope, ?_, ?_⟩
  · exact (hrewrites.expression scope id s hstart).1.rewritten
  · exact fun hc => (hleaves.expression scope id s ⟨hc, fun _ _ h => h⟩).2

/-- `UPPER(5)`, whose operand is cast to a string. -/
theorem validation_inserts_casts_upper :
    (Tree.mk #[⟨.literal (.integer 5), ⟨6, 7⟩⟩, ⟨.call "UPPER" [⟨0⟩], ⟨0, 8⟩⟩]).NoDangling ∧
      (Session.deriveType ScopeTree.rootId ⟨1⟩).InsertsCasts
        { tree := ⟨#[⟨.literal (.integer 5), ⟨6, 7⟩⟩, ⟨.call "UPPER" [⟨0⟩], ⟨0, 8⟩⟩]⟩ } := by
  have hd : (Tree.mk #[⟨.literal (.integer 5), ⟨6, 7⟩⟩,
      ⟨.call "UPPER" [⟨0⟩], ⟨0, 8⟩⟩]).NoDangling := by decide
  exact ⟨hd, (validation_inserts_casts { tree := ⟨#[⟨.literal (.integer 5), ⟨6, 7⟩⟩,
    ⟨.call "UPPER" [⟨0⟩], ⟨0, 8⟩⟩]⟩ } hd ScopeTree.rootId ⟨1⟩).2.2⟩

end SqlTyping
