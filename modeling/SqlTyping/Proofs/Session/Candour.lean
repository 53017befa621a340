import SqlTyping.Proofs.Session.Padding
import SqlTyping.Proofs.Signature.Asking

namespace SqlTyping

/-!
# What the answer of a check is worth

Validation runs the operator's check on every call, and a fault of the check refuses the call. The
answer of the check is another matter: `false`, by which a check says that the signature is not for
this call, is taken like `true`. For most signatures there is no such answer:

* `CallFrame.stable_view` — once its operands have been validated, looking at a call of a statement changes
  nothing that it shows;
* `CallFrame.candid_view` — and the standard engine does not deny what it has converted there;
* `Session.checkedCall_answer` — a choice never answers `false` when the check ends without a fault, nor
  does a list of families with a candid engine;
* `Session.deriveType_call_eq_ok_iff` — a call has a type exactly when its check ends without a fault
  and a type can be inferred, whatever the answer was;
* `Session.deriveType_ignores_answer` — a call that has a type although its check answered `false`.
-/

open Checking

/-! ### Calls of a statement -/

namespace CallFrame

variable {depth : Nat} {scope : ScopeId} {call : NodeId} {op : Operator} {settings : Settings}
  {engine : CoercionEngine} {f g : CallFrame} {index : Nat}

/-- An operand whose type is not at hand is a placeholder, and it gets the type ANY. -/
theorem typeOf_of_unknown (hf : f.KnowsAll op) {operand : NodeId} (ho : f.operands[index]? = some operand)
    (hknown : f.known? op index = none) :
    CallFrame.typeOf (visitAt (depth + 1)) scope op index f =
      (.ok .any, { f with session := { f.session with types := f.session.types.put operand .any } }) := by
  have hi := (List.getElem?_eq_some_iff.mp ho).1
  have hdefault : f.session.tree.node? operand = some .default := by
    rw [← isDefault_iff ho]
    by_contra hd
    obtain ⟨type, htype⟩ := hf index hi (by simpa using hd)
    rw [hknown] at htype
    cases htype
  unfold known? at hknown
  by_cases hkey : op.signature.isKeyword index = true
  · rw [if_pos hkey] at hknown
    cases hknown
  rw [if_neg hkey, ho] at hknown
  have hvisit : (visitAt (depth + 1)).recorded scope operand f.session = (.ok .any, _) :=
    (recorded_of_none hknown).trans (expressionStep_placeholder hdefault)
  rw [typeOf_of_operand (by simpa using hkey) ho]
  unfold CallFrame.onSession focus
  rw [hvisit]

/-- Where the types of the operands are at hand, asking for one has an answer that is known. -/
theorem fst_typeOf (hf : f.KnowsAll op) (scope : ScopeId) (index : Nat) :
    (CallFrame.typeOf (visitAt (depth + 1)) scope op index f).1 =
      if index < f.operands.length then .ok ((f.known? op index).getD .any)
      else .error (.internal s!"{op.name} has no operand {index}") := by
  by_cases hi : index < f.operands.length
  · rw [if_pos hi]
    have ho : f.operands[index]? = some f.operands[index] := List.getElem?_eq_getElem hi
    cases hknown : f.known? op index with
    | none => rw [typeOf_of_unknown hf ho hknown, Option.getD_none]
    | some type => rw [typeOf_of_known hi hknown, Option.getD_some]
  · rw [if_neg hi, typeOf_of_none (List.getElem?_eq_none (Nat.le_of_not_lt hi))]

/-- Frames with the same operands and types of them show the same. -/
theorem showsSame_of_known (hf : f.KnowsAll op) (hg : g.KnowsAll op) (hoperands : g.operands = f.operands)
    (hnode : ∀ index, g.isNull index = f.isNull index ∧ g.isDefault index = f.isDefault index)
    (hknown : ∀ index, (g.known? op index).getD .any = (f.known? op index).getD .any) :
    (CallFrame.view (visitAt (depth + 1)) scope call op settings engine).ShowsSame f g where
  count := congrArg List.length hoperands
  isNull index := (hnode index).1
  isDefault index := (hnode index).2
  typeOf index := by
    show (CallFrame.typeOf _ scope op index g).1 = (CallFrame.typeOf _ scope op index f).1
    rw [fst_typeOf hf, fst_typeOf hg, hoperands, hknown]

/-- A type that is found for an operand is at hand from then on. -/
theorem known?_put {operand : NodeId} (hunknown : f.known? op index = none)
    (ho : f.operands[index]? = some operand) (other : Nat) :
    CallFrame.known? op { f with session := { f.session with types := f.session.types.put operand .any } }
        other =
      if f.operands[other]? = some operand ∧ f.known? op other = none then some .any
      else f.known? op other := by
  unfold known? at hunknown ⊢
  dsimp only
  by_cases hkey : op.signature.isKeyword index = true
  · rw [if_pos hkey] at hunknown
    cases hunknown
  rw [if_neg hkey, ho] at hunknown
  have hunknown : f.session.types.get? operand = none := hunknown
  by_cases hkey' : op.signature.isKeyword other = true
  · rw [if_pos hkey', if_pos hkey', if_neg (by simp)]
  rw [if_neg hkey', if_neg hkey']
  cases ho' : f.operands[other]? with
  | none => rw [if_neg (by simp)]; rfl
  | some operand' =>
    rw [Option.bind_some, Option.bind_some, OrderedMap.get?_put]
    by_cases hsame : operand' = operand
    · subst hsame
      rw [if_pos rfl, if_pos ⟨rfl, hunknown⟩]
    · rw [if_neg hsame, if_neg fun h => hsame (Option.some.inj h.1)]

/-- Once its operands have been validated, looking at a call of a statement changes nothing that it
    shows. -/
theorem stable_view (depth : Nat) (scope : ScopeId) (call : NodeId) (op : Operator) (settings : Settings)
    (engine : CoercionEngine) :
    (CallFrame.view (visitAt (depth + 1)) scope call op settings engine).Stable (KnowsAll op) where
  typeOf index f hf := by
    show KnowsAll op (CallFrame.typeOf _ scope op index f).2 ∧
      CallView.ShowsSame _ f (CallFrame.typeOf _ scope op index f).2
    cases ho : f.operands[index]? with
    | none =>
      rw [typeOf_of_none ho]
      exact ⟨hf, .refl _ f⟩
    | some operand =>
      cases hknown : f.known? op index with
      | some type =>
        rw [typeOf_of_known (List.getElem?_eq_some_iff.mp ho).1 hknown]
        exact ⟨hf, .refl _ f⟩
      | none =>
        rw [typeOf_of_unknown hf ho hknown]
        have hput := known?_put hknown ho
        have hg : KnowsAll op
            { f with session := { f.session with types := f.session.types.put operand .any } } := by
          intro other hi hd
          obtain ⟨type, htype⟩ := hf other hi hd
          exact ⟨type, (hput other).trans (by rw [if_neg (by simp [htype]), htype])⟩
        refine ⟨hg, showsSame_of_known hf hg rfl (fun _ => ⟨rfl, rfl⟩) fun other => ?_⟩
        rw [hput]
        split
        · rename_i h
          rw [h.2, Option.getD_none, Option.getD_some]
        · rfl
  note request f hf := ⟨hf, showsSame_of_known hf hf rfl (fun _ => ⟨rfl, rfl⟩) fun _ => rfl⟩

/-- A cast that no call points at is no operand, nor does it make one of what was none. -/
theorem node?_pushCast (f : CallFrame) (operand : NodeId) (target : CastTarget) (index : Nat) :
    let g : CallFrame :=
      { f with session := { f.session with tree := f.session.tree.pushCast operand target true } }
    g.isNull index = f.isNull index ∧ g.isDefault index = f.isDefault index := by
  intro g
  have hnode : ∀ id, f.session.tree.node? id = none ∧
        g.session.tree.node? id = some (.cast operand target true) ∨
      g.session.tree.node? id = f.session.tree.node? id := by
    intro id
    by_cases hid : id = f.session.tree.nextId
    · subst hid
      have hnone : f.session.tree.node? f.session.tree.nextId = none :=
        Option.not_isSome_iff_eq_none.mp fun h => Nat.lt_irrefl _ (Tree.isSome_node?_iff.mp h)
      exact .inl ⟨hnone, Tree.node?_pushCast_nextId operand target _⟩
    · refine .inr ?_
      show (f.session.tree.pushCast operand target true).node? id = _
      rw [Tree.pushCast, Tree.node?_push, if_neg hid]
  unfold On.isNull On.isDefault On.node?
  show ((f.operands[index]?).bind g.session.tree.node?).any _ =
      ((f.operands[index]?).bind f.session.tree.node?).any _ ∧
    ((f.operands[index]?).bind g.session.tree.node?).any _ =
      ((f.operands[index]?).bind f.session.tree.node?).any _
  cases f.operands[index]? with
  | none => exact ⟨rfl, rfl⟩
  | some id =>
    rw [Option.bind_some, Option.bind_some]
    rcases hnode id with ⟨hnone, hcast⟩ | hsame
    · rw [hnone, hcast]
      exact ⟨rfl, rfl⟩
    · rw [hsame]
      exact ⟨rfl, rfl⟩

/-- The standard engine does not deny what it has converted there. -/
theorem candid_view (depth : Nat) (scope : ScopeId) (call : NodeId) (op : Operator) (settings : Settings) :
    (CallFrame.view (visitAt (depth + 1)) scope call op settings .implicitCasts).Candid
      (KnowsAll op) := by
  refine .of_implicitCasts (stable_view ..) rfl fun index target f g hf hcast => ?_
  have hcast : CallFrame.castTo (visitAt (depth + 1)) scope call index target f = (.ok false, g) := hcast
  cases hd : f.isDefault index with
  | true =>
    rw [castTo_of_isDefault hd] at hcast
    cases hcast
    exact ⟨hf, .refl _ f⟩
  | false =>
  cases ho : f.operands[index]? with
  | none =>
    rw [castTo_of_none ho] at hcast
    cases hcast
    exact ⟨hf, .refl _ f⟩
  | some operand =>
    rw [castTo_of_operand hd ho] at hcast
    split at hcast
    · cases hcast
      have hnode := node?_pushCast f operand target.toTarget
      have hg : KnowsAll op { f with session := { f.session with
          tree := f.session.tree.pushCast operand target.toTarget true } } := fun other hi hd =>
        hf other hi ((hnode other).2.symm.trans hd)
      exact ⟨hg, showsSame_of_known hf hg rfl hnode fun _ => rfl⟩
    -- Once the cast is the operand, its validation ends with `true` or a fault.
    · split at hcast
      · cases hcast
      · cases hcast

end CallFrame

/-! ### Answers -/

/-- A choice accepts a call or refuses it by a fault. -/
theorem Signature.check_oneOf_eq_ok {σ : Type} {c : CallView σ} {alternatives : List Signature} {s s' : σ}
    {answer : Bool} (h : (Signature.oneOf alternatives).check c s = (.ok answer, s')) : answer = true := by
  unfold Signature.check at h
  obtain ⟨fitted, s₁, -, h⟩ := bind_eq_ok_iff.mp h
  cases fitted with
  | true =>
    cases h
    rfl
  | false =>
    obtain ⟨found, s₂, -, h⟩ := bind_eq_ok_iff.mp h
    cases found with
    | true =>
      cases h
      rfl
    | false =>
      obtain ⟨text, s₃, -, hfail⟩ := bind_eq_ok_iff.mp h
      cases hfail

/-- Outside calls nothing is changed of what a session is validated with. -/
theorem Session.invariant_setUpAs (s : Session) : Session.Invariant 0 s.SetUpAs where
  base_le _ := Nat.zero_le _
  record _ _ h := ⟨h.settings, h.operators, h.engine⟩
  newScope h _ := ⟨h.settings, h.operators, h.engine⟩
  addBinding h _ _ := ⟨h.settings, h.operators, h.engine⟩
  register _ _ _ h := ⟨h.settings, h.operators, h.engine⟩
  selfView h _ := ⟨h.settings, h.operators, h.engine⟩
  setRow h _ _ := ⟨h.settings, h.operators, h.engine⟩
  selfReference _ h := ⟨h.settings, h.operators, h.engine⟩

theorem visitAt_setUpAs (s : Session) (depth : Nat) : (visitAt depth).Keeps s.SetUpAs :=
  visitAt_keeps_apart (fun _ _ h => ⟨h.settings, h.operators, h.engine⟩)
    (fun _ _ h => ⟨h.settings, h.operators, h.engine⟩) s.invariant_setUpAs depth

namespace Session

variable {s s₁ s₂ t : Session} {scope : ScopeId} {call : NodeId} {name : String}
  {operands all : List NodeId} {op : Operator} {answer : Bool} {type : DataType}

/-- The check of a call is run with what the call has been validated with. -/
theorem setUpAs_of_visited (hpad : padded op.signature operands s = (.ok all, s₁))
    (hvisit : visitOperands (visitAt s.tree.size) scope op.signature 0 operands s₁ = (.ok (), s₂)) :
    s.SetUpAs s₂ := by
  have hpadded : s.SetUpAs s₁ := by
    rw [padded_apply] at hpad
    split at hpad <;> cases hpad
    · exact .refl s
    · exact ⟨rfl, rfl, rfl⟩
  have hkeeps := keeps_visitOperands op.signature 0 fun operand (_ : operand ∈ operands) =>
    (visitAt_setUpAs s s.tree.size).expression scope operand
  have hend := hkeeps s₁ hpadded
  rwa [hvisit] at hend

/-- What the check of a call may have answered. A choice accepts the call. So does a list of families, when
    the engine does not deny what it has converted in this call. An open-ended signature has one answer for
    all calls. -/
theorem checkedCall_answer
    (h : checkedCall (visitAt s.tree.size) scope call name operands s = (.ok (op, answer), s₁)) :
    match op.signature with
    | .oneOf _ => answer = true
    | .families _ _ =>
      (CallFrame.view (visitAt s.tree.size) scope call op s.settings s.engine).Candid
        (CallFrame.KnowsAll op) → answer = true
    | .openEnded _ fixed => answer = fixed := by
  obtain ⟨all, u, s₂, hop, hadmits, hpad, hvisit, hcheck⟩ := exists_of_checkedCall h
  obtain ⟨f, hanswer⟩ : ∃ f, op.signature.check (CallFrame.view (visitAt s.tree.size) scope call op
      s₂.settings s₂.engine) ⟨s₂, all⟩ = (.ok answer, f) :=
    ⟨_, Prod.ext ((fst_checkCall ..).symm.trans (congrArg Prod.fst hcheck)) rfl⟩
  cases hsig : op.signature with
  | oneOf alternatives =>
    rw [hsig] at hanswer
    exact Signature.check_oneOf_eq_ok hanswer
  | openEnded least fixed =>
    rw [hsig] at hanswer
    exact (Except.ok.inj (congrArg Prod.fst hanswer)).symm
  | families positions omittable =>
    intro hcandid
    have hsetUp := setUpAs_of_visited hpad hvisit
    have hretains := retains_visitOperands hvisit
    have hknows := CallFrame.knowsAll hpad (fun _ => hretains.default) hvisit
    have hcompletes := completes_padded hsig hadmits hpad hretains
    rw [hsig, hsetUp.settings, hsetUp.engine] at hanswer
    cases answer with
    | true => rfl
    | false => exact absurd hcompletes.count.symm (hcandid.length_ne hknows (congrArg Prod.fst hanswer))

/-- A call has a type exactly when its operator is known, the number of operands is admitted, the
    operands have types, the operator's check ends without a fault, and a type is inferred from the
    operands. The answer of the check, the last thing that `checkedCall` finds, is of no account. It is
    `true` all the same for a choice, and for a list of families when the engine does not deny what it has
    converted; so `false` is the answer of an open-ended signature that has no other, or that of an engine. -/
theorem deriveType_call_eq_ok_iff (hcall : s.tree.node? call = some (.call name operands)) :
    (deriveType scope call s = (.ok type, t) ↔
      ∃ op answer s₁ s₂,
        checkedCall (visitAt s.tree.size) scope call name operands s = (.ok (op, answer), s₁) ∧
          typedCall (visitAt s.tree.size) scope call op s₁ = (.ok type, s₂) ∧
            t = { s₂ with types := s₂.types.put call type }) ∧
    ∀ op answer s₁,
      checkedCall (visitAt s.tree.size) scope call name operands s = (.ok (op, answer), s₁) →
        match op.signature with
        | .oneOf _ => answer = true
        | .families _ _ =>
          (CallFrame.view (visitAt s.tree.size) scope call op s.settings s.engine).Candid
            (CallFrame.KnowsAll op) → answer = true
        | .openEnded _ fixed => answer = fixed :=
  ⟨deriveType_iff_typedCall hcall, fun _ _ _ h => checkedCall_answer h⟩

/-- The call `F(5)`, in which the check of `F` answers `false` to every call. -/
def refusedCall : Session where
  tree := ⟨#[⟨.literal (.integer 5), ⟨2, 3⟩⟩, ⟨.call "F" [⟨0⟩], ⟨0, 4⟩⟩]⟩
  operators := OperatorTable.empty.register
    ⟨"F", .openEnded 0 false, .fixed (.notNull .integer)⟩

/-- The same call, in which `F` asks for a text: the number is cast. -/
def convertedCall : Session where
  tree := refusedCall.tree
  operators := OperatorTable.empty.register
    ⟨"F", .required [.character], .fixed (.notNull .integer)⟩

/-- `F(5)` has a type in both cases, so its check has ended without a fault. Where `F` asks for a text, it
    has been answered `true`. -/
theorem deriveType_call_of_five :
    refusedCall.tree.node? ⟨1⟩ = some (.call "F" [⟨0⟩]) ∧
    (∃ op answer s₁, checkedCall (visitAt 2) ScopeTree.rootId ⟨1⟩ "F" [⟨0⟩] refusedCall =
      (.ok (op, answer), s₁)) ∧
    ∃ op s₁, checkedCall (visitAt 2) ScopeTree.rootId ⟨1⟩ "F" [⟨0⟩] convertedCall =
      (.ok (op, true), s₁) := by
  have hcall : refusedCall.tree.node? ⟨1⟩ = some (.call "F" [⟨0⟩]) := rfl
  have hcall' : convertedCall.tree.node? ⟨1⟩ = some (.call "F" [⟨0⟩]) := rfl
  have hderived : (deriveType ScopeTree.rootId ⟨1⟩ refusedCall).1 = .ok (.notNull .integer) := by
    decide +kernel
  have hderived' : (deriveType ScopeTree.rootId ⟨1⟩ convertedCall).1 = .ok (.notNull .integer) := by
    decide +kernel
  obtain ⟨op, answer, s₁, -, hchecked, -⟩ :=
    (deriveType_call_eq_ok_iff hcall).1.mp (Prod.ext hderived rfl)
  obtain ⟨hiff, hanswer⟩ := deriveType_call_eq_ok_iff hcall'
  obtain ⟨op', answer', s₁', -, hchecked', -⟩ := hiff.mp (Prod.ext hderived' rfl)
  obtain ⟨-, -, -, hop, -⟩ := exists_of_checkedCall hchecked'
  cases hop
  have htrue : answer' = true := hanswer _ _ _ hchecked' (CallFrame.candid_view 1 _ _ _ _)
  exact ⟨hcall, ⟨op, answer, s₁, hchecked⟩, _, s₁', htrue ▸ hchecked'⟩

/-- It is not so that the check of every call with a type has answered `true`. -/
theorem deriveType_ignores_answer :
    ¬ ∀ (s t : Session) (scope : ScopeId) (call : NodeId) (name : String) (operands : List NodeId)
      (type : DataType), s.tree.node? call = some (.call name operands) →
        deriveType scope call s = (.ok type, t) →
          ∃ op s₁, checkedCall (visitAt s.tree.size) scope call name operands s =
            (.ok (op, true), s₁) := by
  intro h
  have hderived : (deriveType ScopeTree.rootId ⟨1⟩ refusedCall).1 = .ok (.notNull .integer) := by
    decide +kernel
  have hanswer : (checkedCall (visitAt 2) ScopeTree.rootId ⟨1⟩ "F" [⟨0⟩] refusedCall).1.map
      (·.2) = .ok false := by decide +kernel
  obtain ⟨op, s₁, hchecked⟩ := h refusedCall _ ScopeTree.rootId ⟨1⟩ "F" [⟨0⟩] (.notNull .integer) rfl
    (Prod.ext hderived rfl)
  have hchecked : checkedCall (visitAt 2) ScopeTree.rootId ⟨1⟩ "F" [⟨0⟩] refusedCall =
    (.ok (op, true), s₁) := hchecked
  rw [hchecked] at hanswer
  cases hanswer

end Session

end SqlTyping
