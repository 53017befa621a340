import Mathlib.Order.Bounds.Defs
import SqlTyping.Proofs.Session.Conservativity
import SqlTyping.Proofs.Session.CountFaults

namespace SqlTyping

/-!
# The number of operands of a call

For an operator with a list of families three numbers have to agree: how many operands a call must at
least write, how many placeholders are added for the others, and how many operands the list is checked
against.

* `Tree.Retains`, `visitAt_retains` — validation leaves a call with as many operands as it had, and every
  other node as it was;
* `CallFrame.Completes` — a call shows its written operands, and behind them placeholders where operands
  may be omitted, up to the number of families;
* `Signature.familiesCheck_eq_false` — a list of families checked against as many operands answers `false`
  only when the engine, asked about these operands, has answered `false`;
* `Session.padding_meets_arity` — a call is refused for the number of its operands exactly when too many
  of them are missing or there are too many, and completed otherwise.
-/

open Checking

/-! ### What stays of a node -/

/-- The same node, or a call of the same name with as many operands. -/
inductive Node.Resembles : Node → Node → Prop
  | same (node : Node) : Resembles node node
  | call (name : String) {operands operands' : List NodeId} (h : operands'.length = operands.length) :
    Resembles (.call name operands) (.call name operands')

theorem Node.Resembles.trans {a b c : Node} (h : a.Resembles b) (h' : b.Resembles c) :
    a.Resembles c := by
  cases h with
  | same => exact h'
  | call name hl =>
    cases h' with
    | same => exact .call name hl
    | call _ hl' => exact .call name (hl'.trans hl)

/-- Every node of the first tree is in the second one, but for the operands that calls point at. -/
def Tree.Retains (t t' : Tree) : Prop :=
  ∀ id node, t.node? id = some node → ∃ node', t'.node? id = some node' ∧ node.Resembles node'

namespace Tree.Retains

variable {t t' t'' : Tree} {id : NodeId}

theorem refl (t : Tree) : t.Retains t := fun _ node hn => ⟨node, hn, .same node⟩

theorem trans (h : t.Retains t') (h' : t'.Retains t'') : t.Retains t'' := by
  intro id node hn
  obtain ⟨node', hn', hsame⟩ := h id node hn
  obtain ⟨node'', hn'', hsame'⟩ := h' id node' hn'
  exact ⟨node'', hn'', hsame.trans hsame'⟩

theorem push (t : Tree) (node : Node) (span : Span) : t.Retains (t.push node span) := by
  intro id found hn
  refine ⟨found, ?_, .same found⟩
  rw [node?_push, if_neg (ne_nextId_of_lt (lt_size_of_node? hn))]
  exact hn

theorem replaceOperand {call replacement : NodeId} {index : Nat}
    (h : t.replaceOperand? call index replacement = some t') : t.Retains t' := by
  intro id node hn
  by_cases hid : id = call
  · subst hid
    unfold replaceOperand? at h
    split at h
    · rename_i operator operands hcall
      split at h
      · obtain rfl := Option.some.inj h
        obtain rfl := Option.some.inj (hcall.symm.trans hn)
        refine ⟨.call operator (operands.set index replacement), ?_, .call operator List.length_set⟩
        rw [node?_setNode, if_pos rfl, hn]
        rfl
      · cases h
    · cases h
  · exact ⟨node, (node?_replaceOperand?_ne h hid).trans hn, .same node⟩

/-- A placeholder stays a placeholder. -/
theorem default (h : t.Retains t') (hn : t.node? id = some .default) : t'.node? id = some .default := by
  obtain ⟨node, hn', hsame⟩ := h id _ hn
  cases hsame
  exact hn'

/-- A call stays a call with as many operands. -/
theorem call (h : t.Retains t') {name : String} {operands : List NodeId}
    (hn : t.node? id = some (.call name operands)) :
    ∃ current, t'.node? id = some (.call name current) ∧ current.length = operands.length := by
  obtain ⟨node, hn', hsame⟩ := h id _ hn
  cases hsame with
  | same => exact ⟨operands, hn', rfl⟩
  | call _ hl => exact ⟨_, hn', hl⟩

end Tree.Retains

/-- Validation to any depth only adds nodes and points operands of calls elsewhere. -/
theorem visitAt_retains (t : Tree) (depth : Nat) : (visitAt depth).Keeps fun s => t.Retains s.tree := by
  refine visitAt_keeps (fun _ : Unit => 0) (fun _ s => t.Retains s.tree)
    (fun _ => .ofTree fun s s' htree _ hs => htree ▸ hs) (fun v hv _ scope id name operands s hs _ => ?_)
    depth ()
  exact keeps_callType_of_tree (fun _ _ _ hs => hs.trans (.push _ _ _))
    (fun _ _ _ _ _ htree hs => hs.trans (.replaceOperand htree)) (fun _ _ hs => hs)
    ((hv ()).expression scope) id name operands s hs

/-! ### Lists of families -/

/-- Where the number of operands is right and their types are at hand, the answer `false` is the engine's
    report that it has converted nothing, when it was told the types of the operands; and then the operands
    have been checked once more and passed. -/
theorem Signature.familiesCheck_eq_false {σ : Type} {c : CallView σ} {positions : List Family}
    {omittable : Nat → Bool} {s t : σ} (hrests : c.Rests s) (hl : positions.length = c.count s)
    (h : familiesCheck c positions omittable s = (.ok false, t)) :
    c.coerces = true ∧ ∃ types s₁ s₂, c.types s = (.ok types, s₁) ∧
      c.coerce types positions s₁ = (.ok false, s₂) ∧ checkAll c positions omittable s₂ = (.ok (), t) := by
  cases hcoerces : c.coerces with
  | false =>
    -- A call that does not fit is looked at once more, and refused.
    have hrules := hrests.rules_familiesCheck hcoerces omittable hl
    by_cases haccepts : c.Accepts c.Reads [.families positions omittable] s
    · have htrue := hrules.1 haccepts
      rw [h] at htrue
      cases htrue
    · obtain ⟨e, -, he⟩ := hrules.2 haccepts
      rw [h] at he
      cases he
  | true =>
    refine ⟨rfl, ?_⟩
    -- The first look at the call leaves it as it is.
    obtain ⟨fitted, hstrict, -⟩ := (hrests.judges_familiesStrict positions omittable).tolerant
    unfold familiesCheck at h
    rw [bind_of_ok (state_apply s), if_pos hl, bind_of_ok hstrict] at h
    cases fitted with
    | true => cases h
    | false =>
      simp only [Bool.false_eq_true, if_false, hcoerces, if_true] at h
      obtain ⟨types, s₁, htypes, h⟩ := bind_eq_ok_iff.mp h
      obtain ⟨converted, s₂, hcoerce, h⟩ := bind_eq_ok_iff.mp h
      obtain ⟨⟨⟩, s₃, hall, hpure⟩ := bind_eq_ok_iff.mp h
      cases hpure
      exact ⟨types, s₁, s₂, htypes, hcoerce, hall⟩

/-- A list of families asks for the least number of operands behind which all of them may be omitted. -/
theorem requiredCount_eq_of_isLeast {omittable : Nat → Bool} {count least : Nat}
    (h : IsLeast {k | ∀ index, k ≤ index → index < count → omittable index = true} least) :
    requiredCount omittable count = least :=
  Nat.le_antisymm (Form.requiredCount_le_of h.1)
    (h.2 fun _ hi hlt => omittable_of_requiredCount_le hi hlt)

/-! ### Calls -/

/-- The call shows as many operands as there are families: those that are written and, behind them,
    placeholders where operands may be omitted. -/
structure CallFrame.Completes (f : CallFrame) (written : List NodeId) (positions : List Family)
    (omittable : Nat → Bool) : Prop where
  count : f.operands.length = positions.length
  starts : f.operands.take written.length = written
  omitted : ∀ index, written.length ≤ index → index < positions.length →
    f.isDefault index = true ∧ omittable index = true

namespace Session

variable {s s₁ s₂ : Session} {scope : ScopeId} {call : NodeId} {name : String}
  {operands all : List NodeId} {op : Operator} {positions : List Family} {omittable : Nat → Bool}
  {least : Nat}

/-- A call with too few or too many operands is refused before anything else is done. -/
theorem deriveType_of_not_admits (hcall : s.tree.node? call = some (.call name operands))
    (hop : s.operators.lookup? name = some op) (hnot : op.arity.admits operands.length = false) :
    deriveType scope call s =
      (.error (.operandCount op.name op.arity.text operands.length), s) := by
  have hstep : deriveType scope call s = expressionStep (visitAt s.tree.size) scope call s := rfl
  rw [hstep, expressionStep_call hcall, callType_eq, bind_assoc,
    bind_of_error (checkedCall_of_not_admits hop hnot)]

/-- Any other call is filled up with placeholders. Then its operands are validated, the operator's check
    is run, and the type is found. -/
theorem deriveType_of_admits (hcall : s.tree.node? call = some (.call name operands))
    (hop : s.operators.lookup? name = some op) (hadmits : op.arity.admits operands.length = true)
    (hpad : padded op.signature operands s = (.ok all, s₁)) :
    deriveType scope call s = (do
      visitOperands (visitAt s.tree.size) scope op.signature 0 operands
      let _ ← checkCall (visitAt s.tree.size) scope call op all
      let type ← typedCall (visitAt s.tree.size) scope call op
      Validation.record call type
      return type : Validation DataType) s₁ := by
  have hstep : deriveType scope call s = expressionStep (visitAt s.tree.size) scope call s := rfl
  have hchecked : checkedCall (visitAt s.tree.size) scope call name operands s =
      (visitOperands (visitAt s.tree.size) scope op.signature 0 operands >>= fun _ =>
        checkCall (visitAt s.tree.size) scope call op all >>= fun answer => pure (op, answer)) s₁ :=
    (checkedCall_of_admits hop hadmits).trans (bind_of_ok hpad _)
  rw [hstep, expressionStep_call hcall, callType_eq, bind_assoc, bind_apply, hchecked, ← bind_apply,
    bind_assoc]
  simp only [bind_assoc, pure_bind]

/-- Once its operands have been validated, a call is completed. -/
theorem completes_padded (hsig : op.signature = .families positions omittable)
    (hadmits : op.arity.admits operands.length = true)
    (hpad : padded op.signature operands s = (.ok all, s₁)) (hretains : s₁.tree.Retains s₂.tree) :
    CallFrame.Completes ⟨s₂, all⟩ operands positions omittable := by
  have hcount : all.length = positions.length :=
    (length_padded hpad).trans (length_eq_shownCount hadmits hsig).symm
  refine ⟨hcount, ?_, fun index hbehind hi => ⟨?_, ?_⟩⟩
  · obtain ⟨placeholder, rfl, -⟩ := padded_eq hpad
    exact List.take_left
  · exact isDefault_padded hpad (fun _ => hretains.default) hbehind (hcount ▸ hi)
  · have hleast : op.arity.least ≤ operands.length := (Arity.admits_iff.mp hadmits).1
    unfold Operator.arity at hleast
    rw [hsig] at hleast
    exact omittable_of_requiredCount_le (Nat.le_trans hleast hbehind) hi

/-- Validation of the operands of a call leaves all nodes what they are. -/
theorem retains_visitOperands
    (hvisit : visitOperands (visitAt s.tree.size) scope op.signature 0 operands s₁ = (.ok (), s₂)) :
    s₁.tree.Retains s₂.tree := by
  have hkeeps := keeps_visitOperands op.signature 0 fun operand (_ : operand ∈ operands) =>
    (visitAt_retains s₁.tree s.tree.size).expression scope operand
  have hend := hkeeps s₁ (.refl _)
  rwa [hvisit] at hend

/-- The host and the operator's check agree on the number of operands of a call. Let the operator have a
    list of families, and let `least` be the least number of operands behind which all may be omitted.
    The call is refused for its number of operands, at once, when it writes fewer than `least` or more
    than there are families, and only then. Any other call gets placeholders, and once its operands have
    been validated, the check is run on as many operands as there are families. So it does not answer
    `false` for their number: when it does, it has asked the engine to convert these operands, with the
    types that they had, the engine has reported that it converted nothing, and still all operands fit then.
    Whatever happens, the call has as many operands in the statement afterwards as it was written with. -/
theorem padding_meets_arity (scope : ScopeId)
    (hcall : s.tree.node? call = some (.call name operands))
    (hop : s.operators.lookup? name = some op) (hsig : op.signature = .families positions omittable)
    (hleast : IsLeast {k | ∀ index, k ≤ index → index < positions.length → omittable index = true}
      least) :
    let refusal : Fault :=
      .operandCount op.name (Arity.between least positions.length).text operands.length
    (operands.length < least ∨ positions.length < operands.length →
      deriveType scope call s = (.error refusal, s)) ∧
    (s.engine.FaultsWithin Fault.CountsRightly → (deriveType scope call s).1 = .error refusal →
      operands.length < least ∨ positions.length < operands.length) ∧
    (least ≤ operands.length → operands.length ≤ positions.length →
      ∃ all s₁, padded op.signature operands s = (.ok all, s₁) ∧
        deriveType scope call s = (do
          visitOperands (visitAt s.tree.size) scope op.signature 0 operands
          let _ ← checkCall (visitAt s.tree.size) scope call op all
          let type ← typedCall (visitAt s.tree.size) scope call op
          Validation.record call type
          return type : Validation DataType) s₁ ∧
        ∀ s₂, visitOperands (visitAt s.tree.size) scope op.signature 0 operands s₁ = (.ok (), s₂) →
          CallFrame.Completes ⟨s₂, all⟩ operands positions omittable ∧
          let view := CallFrame.view (visitAt s.tree.size) scope call op s₂.settings s₂.engine
          ∀ f, op.signature.check view ⟨s₂, all⟩ = (.ok false, f) →
            s₂.settings.coercion = true ∧
              ∃ types f₁ f₂, view.types ⟨s₂, all⟩ = (.ok types, f₁) ∧
                view.coerce types positions f₁ = (.ok false, f₂) ∧
                  Signature.checkAll view positions omittable f₂ = (.ok (), f)) ∧
    ∃ current, (deriveType scope call s).2.tree.node? call = some (.call name current) ∧
      current.length = operands.length := by
  intro refusal
  have harity : op.arity = .between least positions.length := by
    unfold Operator.arity
    rw [hsig, ← requiredCount_eq_of_isLeast hleast]
    rfl
  have hadmits : op.arity.admits operands.length = true ↔
      least ≤ operands.length ∧ operands.length ≤ positions.length := by
    rw [harity, Arity.admits_iff]
    simp [Arity.between]
  refine ⟨fun hcount => ?_, fun hengine hfault => ?_, fun hle hmost => ?_, ?_⟩
  · have hnot : op.arity.admits operands.length = false := by
      rw [Bool.eq_false_iff, ne_eq, hadmits]
      omega
    rw [deriveType_of_not_admits hcall hop hnot, harity]
  -- A fault with this text is about this number of operands, whichever call it comes from.
  · have hrun := (visitAt_countsRightly s.maxDepth).expression scope call s hengine
    obtain ⟨a, htext, hnot⟩ : refusal.CountsRightly := (hrun.of_error (Prod.ext hfault rfl)).2
    rw [Arity.text_injective htext, ← harity] at hnot
    by_contra hwithin
    rw [hadmits.mpr (by omega)] at hnot
    cases hnot
  · have hadmits := hadmits.mpr ⟨hle, hmost⟩
    obtain ⟨all, s₁, hpad⟩ := exists_padded op.signature operands s
    refine ⟨all, s₁, hpad, deriveType_of_admits hcall hop hadmits hpad, fun s₂ hvisit => ?_⟩
    have hretains := retains_visitOperands hvisit
    have hcompletes := completes_padded hsig hadmits hpad hretains
    refine ⟨hcompletes, ?_⟩
    intro view f hanswer
    have hknows := CallFrame.knowsAll hpad (fun _ => hretains.default) hvisit
    rw [hsig] at hanswer
    exact Signature.familiesCheck_eq_false (hknows.rests : view.Rests _) hcompletes.count.symm hanswer
  · exact ((visitAt_retains s.tree s.maxDepth).expression scope call s (.refl _)).call hcall

/-- A text, a number and a date, of which the text and the date may be omitted. -/
def gapOperator : Operator :=
  ⟨"PICK", .families [.character, .numeric, .date] (· != 1), .fixed (.notNull .integer)⟩

/-- The calls `PICK('a', 5)` and `PICK('a')` in one statement. -/
def gapCalls : Session where
  tree := ⟨#[⟨.literal (.string "a"), ⟨5, 8⟩⟩, ⟨.literal (.integer 5), ⟨10, 11⟩⟩,
    ⟨.call "PICK" [⟨0⟩, ⟨1⟩], ⟨0, 12⟩⟩, ⟨.literal (.string "a"), ⟨18, 21⟩⟩,
    ⟨.call "PICK" [⟨3⟩], ⟨13, 22⟩⟩]⟩
  operators := OperatorTable.empty.register gapOperator

/-- The text may be omitted but for what stands behind it: `PICK('a')` is refused, as the number is missing,
    and `PICK('a', 5)` is completed by a placeholder for the date. -/
theorem padding_meets_arity_gap :
    IsLeast {k | ∀ index, k ≤ index → index < 3 → (index != 1) = true} 2 ∧
      gapCalls.engine.FaultsWithin Fault.CountsRightly ∧
      (deriveType ScopeTree.rootId ⟨4⟩ gapCalls).1 = .error (.operandCount "PICK" "2 to 3" 1) ∧
      (deriveType ScopeTree.rootId ⟨2⟩ gapCalls).1 ≠ .error (.operandCount "PICK" "2 to 3" 2) ∧
      (∃ all s₁ s₂, padded gapOperator.signature [⟨0⟩, ⟨1⟩] gapCalls = (.ok all, s₁) ∧
        visitOperands (visitAt 5) ScopeTree.rootId gapOperator.signature 0 [⟨0⟩, ⟨1⟩] s₁ = (.ok (), s₂) ∧
        CallFrame.Completes ⟨s₂, all⟩ [⟨0⟩, ⟨1⟩] [.character, .numeric, .date] (· != 1)) ∧
      ∃ current, (deriveType ScopeTree.rootId ⟨2⟩ gapCalls).2.tree.node? ⟨2⟩ =
        some (.call "PICK" current) ∧ current.length = 2 := by
  have hleast : IsLeast {k | ∀ index, k ≤ index → index < 3 → (index != 1) = true} 2 := by
    refine ⟨fun index hi _ => by simpa using (by omega : index ≠ 1), fun k hk => ?_⟩
    by_contra hlt
    have := hk 1 (by omega) (by decide)
    cases this
  have hengine : gapCalls.engine.FaultsWithin Fault.CountsRightly :=
    CoercionEngine.faultsWithin_implicitCasts
  have hop : gapCalls.operators.lookup? "PICK" = some gapOperator := rfl
  have hsig : gapOperator.signature = .families [.character, .numeric, .date] (· != 1) := rfl
  have hshort : gapCalls.tree.node? ⟨4⟩ = some (.call "PICK" [⟨3⟩]) := rfl
  have hlong : gapCalls.tree.node? ⟨2⟩ = some (.call "PICK" [⟨0⟩, ⟨1⟩]) := rfl
  obtain ⟨hrefused, -⟩ := padding_meets_arity ScopeTree.rootId hshort hop hsig hleast
  obtain ⟨-, hfault, hcompletes, hkept⟩ := padding_meets_arity ScopeTree.rootId hlong hop hsig hleast
  refine ⟨hleast, hengine, congrArg Prod.fst (hrefused (.inl (by decide))), fun h => ?_, ?_, hkept⟩
  · have hcount := hfault hengine h
    simp at hcount
  obtain ⟨all, s₁, hpad, -, hrest⟩ := hcompletes (by decide) (by decide)
  have hs₁ : s₁ = (padded gapOperator.signature [⟨0⟩, ⟨1⟩] gapCalls).2 := by rw [hpad]
  have hvisit : (visitOperands (visitAt 5) ScopeTree.rootId gapOperator.signature 0 [⟨0⟩, ⟨1⟩] s₁).1 =
      .ok () := by
    rw [hs₁]
    decide +kernel
  exact ⟨all, s₁, _, hpad, Prod.ext hvisit rfl, (hrest _ (Prod.ext hvisit rfl)).1⟩

end Session

end SqlTyping
