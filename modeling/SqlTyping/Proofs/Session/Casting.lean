import SqlTyping.Proofs.Mirroring
import SqlTyping.Proofs.Session.Traversal

namespace SqlTyping

/-!
# Casts in two calls

An operand of a call is cast in the tree and in the frame of the call, and the cast is validated at once.
Two calls that correspond get casts alike when their trees do:

* `CallFrame.castTo_of_inserted` — the cast of an operand, once the call has been pointed at it;
* `CallFrame.CastAlike` — operands of two frames get casts alike;
* `CallFrame.endAlike_castTo` — then the frames end alike, also where there is nothing to cast.
-/

open Checking

variable {R : CallFrame → CallFrame → Prop} {Q : DataType → DataType → Prop} {v v' : Visit}
  {scope scope' : ScopeId} {call : NodeId} {index : Nat} {target target' : DataType} {f g : CallFrame}

/-- The cast of an operand is validated once the call has been pointed at it. -/
theorem CallFrame.castTo_of_inserted {operand : NodeId} {tree : Tree} (hd : f.isDefault index = false)
    (ho : f.operands[index]? = some operand)
    (ht : (f.session.tree.pushCast operand target.toTarget true).replaceOperand? call index
      f.session.tree.nextId = some tree) :
    CallFrame.castTo v scope call index target f = (do
      let _ ← CallFrame.onSession (v.expression scope f.session.tree.nextId)
      return true : Checking CallFrame Bool)
        ⟨{ f.session with tree }, f.operands.set index f.session.tree.nextId⟩ := by
  rewrite [castTo_of_operand hd ho, ht]
  exact (onSession_then_true (v.expression scope f.session.tree.nextId)
    ⟨{ f.session with tree }, f.operands.set index f.session.tree.nextId⟩).symm

/-- Operands of two frames get casts alike: either both calls can be pointed at their casts, which are
    validated alike, or neither can. -/
structure CallFrame.CastAlike (R : CallFrame → CallFrame → Prop) (Q : DataType → DataType → Prop)
    (v v' : Visit) (scope scope' : ScopeId) (call : NodeId) (index : Nat) (target target' : DataType)
    (f g : CallFrame) (operand operand' : NodeId) : Prop where
  grown : (f.session.tree.pushCast operand target.toTarget true).replaceOperand? call index
      f.session.tree.nextId = none →
    R { f with session := { f.session with
          tree := f.session.tree.pushCast operand target.toTarget true } }
      { g with session := { g.session with
          tree := g.session.tree.pushCast operand' target'.toTarget true } }
  inserted : Option.Rel (fun tree tree' => EndAlike
      (fun s t => R ⟨s, f.operands.set index f.session.tree.nextId⟩
        ⟨t, g.operands.set index g.session.tree.nextId⟩) Q
      { f.session with tree } { g.session with tree := tree' }
      (v.expression scope f.session.tree.nextId) (v'.expression scope' g.session.tree.nextId))
    ((f.session.tree.pushCast operand target.toTarget true).replaceOperand? call index
      f.session.tree.nextId)
    ((g.session.tree.pushCast operand' target'.toTarget true).replaceOperand? call index
      g.session.tree.nextId)

/-- Frames whose operands get casts alike end alike. -/
theorem CallFrame.endAlike_castTo (h : R f g) (hdefault : g.isDefault index = f.isDefault index)
    (hoperands : Option.Rel (fun operand operand' => f.isDefault index = false →
      CastAlike R Q v v' scope scope' call index target target' f g operand operand')
      f.operands[index]? g.operands[index]?) :
    EndAlike R Eq f g (CallFrame.castTo v scope call index target)
      (CallFrame.castTo v' scope' call index target') := by
  generalize ho : f.operands[index]? = o, ho' : g.operands[index]? = o' at hoperands
  cases hoperands with
  | none => exact .ok (castTo_of_none ho ..) (castTo_of_none ho' ..) rfl h
  | @some operand operand' halike =>
  cases hd : f.isDefault index with
  | true => exact .ok (castTo_of_isDefault hd ..) (castTo_of_isDefault (hdefault.trans hd) ..) rfl h
  | false =>
    obtain ⟨hgrown, hinserted⟩ := halike hd
    have hd' := hdefault.trans hd
    generalize hr : (f.session.tree.pushCast operand target.toTarget true).replaceOperand? call index
      f.session.tree.nextId = r, hr' : (g.session.tree.pushCast operand'
      target'.toTarget true).replaceOperand? call index g.session.tree.nextId = r' at hinserted
    cases hinserted with
    -- The casts are in the trees, and no call points at them.
    | none =>
      have hx := castTo_of_operand hd ho v scope call target
      have hy := castTo_of_operand hd' ho' v' scope' call target'
      rw [hr] at hx
      rw [hr'] at hy
      exact .ok hx hy rfl (hgrown hr)
    | @some tree tree' hvisit =>
      have hwaited : EndAlike R Q ⟨{ f.session with tree }, f.operands.set index f.session.tree.nextId⟩
          ⟨{ g.session with tree := tree' }, g.operands.set index g.session.tree.nextId⟩
          (onSession (v.expression scope f.session.tree.nextId))
          (onSession (v'.expression scope' g.session.tree.nextId)) :=
        Follows.focus hvisit fun _ _ hend => hend
      exact (hwaited.bind fun _ _ _ _ _ _ hend => .pure hend rfl).of_apply
        (castTo_of_inserted hd ho hr) (castTo_of_inserted hd' ho' hr')

/-- Frames with the same operands and the same tree get the same casts. -/
theorem CallFrame.endAlike_castTo_of_same (h : R f g) (hoperands : g.operands = f.operands)
    (htree : g.session.tree = f.session.tree) (htarget : target'.toTarget = target.toTarget)
    (hgrown : ∀ tree, R { f with session := { f.session with tree } }
      { g with session := { g.session with tree } })
    (hvisit : ∀ tree, EndAlike (fun s t => ∀ operands, R ⟨s, operands⟩ ⟨t, operands⟩) Q
      { f.session with tree } { g.session with tree }
      (v.expression scope f.session.tree.nextId) (v'.expression scope' f.session.tree.nextId)) :
    EndAlike R Eq f g (CallFrame.castTo v scope call index target)
      (CallFrame.castTo v' scope' call index target') := by
  refine endAlike_castTo (Q := Q) h (isDefault_congr hoperands htree index) ?_
  rw [hoperands]
  cases f.operands[index]? with
  | none => exact .none
  | some operand =>
    refine .some fun _ => ⟨fun _ => ?_, ?_⟩
    · rw [htree, htarget]
      exact hgrown _
    · rw [htree, htarget, hoperands]
      cases (f.session.tree.pushCast operand target.toTarget true).replaceOperand? call index
          f.session.tree.nextId with
      | none => exact .none
      | some tree => exact .some ((hvisit tree).imp fun hend => hend _)

end SqlTyping
