import SqlTyping.Proofs.Session.Answers
import SqlTyping.Proofs.Session.Retyping
import SqlTyping.Proofs.Signature.Looking
import SqlTyping.Proofs.Signature.Positions

namespace SqlTyping

/-!
# Calls with omitted operands

Without conversion a call is accepted or not by what its operands are, each by itself, and by how many
placeholders the call shows behind them:

* `Session.Derives` — the operands of a call have been validated, with what they are then;
* `Session.deriveType_isOk_iff` — when a call is accepted;
* `Session.ChoiceCall.oneOf_judges_padded` — a choice judges a call with the placeholders for its longest
  alternative, an alternative alone with those for its own length;
* `Session.ChoiceCall.oneOf_accepts_iff` — where that makes no difference, the choice accepts what some
  alternative accepts alone;
* `Session.ChoiceCall.oneOf_not_some_alone` — where it does.
-/

open Checking

/-- The operands of a call with those that it does not write, `count` together. -/
def Operand.padded (os : List Operand) (count : Nat) : List Operand :=
  os ++ List.replicate (count - os.length) .omitted

/-- What a node is as an operand, once its type is recorded. -/
inductive Session.Finds (s : Session) (id : NodeId) : Operand → Prop
  | omitted (hd : s.isDefault id = true) (ht : s.types.get? id = some .any) : Finds s id .omitted
  | null (hd : s.isDefault id = false) (hn : s.isNull id = true)
    (ht : s.types.get? id = some .null) : Finds s id .null
  | typed {type} (hd : s.isDefault id = false) (hn : s.isNull id = false)
    (ht : s.types.get? id = some type) : Finds s id (.typed type)

/-- In the validation of a call of `op` its operands are validated, and are then `os`. -/
def Session.Derives (s : Session) (scope : ScopeId) (op : Operator) (operands : List NodeId)
    (os : List Operand) : Prop :=
  ∃ all s₁ s₂, SqlTyping.padded op.signature operands s = (.ok all, s₁) ∧
    visitOperands (visitAt s.tree.size) scope op.signature 0 operands s₁ = (.ok (), s₂) ∧
      List.Forall₂ s₂.Finds operands os

section

variable {v : Visit} {s s₁ s₂ : Session} {scope : ScopeId} {call : NodeId} {name : String}
  {operands all : List NodeId} {op : Operator} {os : List Operand}

/-- Placeholders stand behind the written operands; nothing else of the session is touched. -/
theorem padded_eq (hpad : padded op.signature operands s = (.ok all, s₁)) :
    ∃ placeholder, all = operands ++
        List.replicate (op.signature.shownCount operands.length - operands.length) placeholder ∧
      (op.signature.shownCount operands.length ≠ operands.length →
        s₁.tree.node? placeholder = some .default) ∧
      s₁.settings = s.settings ∧
        ∀ id node, s.tree.node? id = some node → s₁.tree.node? id = some node := by
  have hle := Signature.le_shownCount op.signature operands.length
  rw [padded_apply] at hpad
  split at hpad
  · rename_i hnone
    cases hpad
    exact ⟨⟨0⟩, by rw [hnone]; simp, fun hne => by omega, rfl, fun _ _ h => h⟩
  · cases hpad
    refine ⟨s.tree.nextId, rfl, fun _ => by rw [Tree.node?_push, if_pos rfl], rfl, ?_⟩
    intro id node hnode
    rw [Tree.node?_push, if_neg (Tree.ne_nextId_of_lt (Tree.lt_size_of_node? hnode))]
    exact hnode

/-- A call is padded to the number of operands that its signature shows. -/
theorem length_padded (hpad : padded op.signature operands s = (.ok all, s₁)) :
    all.length = op.signature.shownCount operands.length := by
  obtain ⟨placeholder, rfl, -, -⟩ := padded_eq hpad
  have hle := Signature.le_shownCount op.signature operands.length
  rw [List.length_append, List.length_replicate]
  omega

/-- That is the number of families, when the operator has a list of them that admits the call. -/
theorem length_eq_shownCount {positions : List Family} {omittable : Nat → Bool}
    (hadmits : op.arity.admits operands.length = true)
    (hfamilies : op.signature = .families positions omittable) :
    positions.length = op.signature.shownCount operands.length := by
  rw [hfamilies]
  refine (Signature.shownCount_of_admits ?_).symm
  rw [← hfamilies]
  exact hadmits

/-- The written operands come first. -/
theorem getElem?_padded (hpad : padded op.signature operands s = (.ok all, s₁)) {index : Nat}
    (hi : index < operands.length) : all[index]? = operands[index]? := by
  obtain ⟨placeholder, rfl, -, -⟩ := padded_eq hpad
  exact List.getElem?_append_left hi

/-- Behind the written operands there are placeholders only. -/
theorem isDefault_padded (hpad : padded op.signature operands s = (.ok all, s₁))
    (hkept : ∀ id, s₁.tree.node? id = some .default → s₂.tree.node? id = some .default) {index : Nat}
    (hbehind : operands.length ≤ index) (hi : index < all.length) :
    CallFrame.On.isDefault ⟨s₂, all⟩ index = true := by
  obtain ⟨placeholder, rfl, hdefault, -⟩ := padded_eq hpad
  rw [List.length_append, List.length_replicate] at hi
  have hnode := hkept _ (hdefault (by omega))
  have hget : (operands ++ List.replicate (op.signature.shownCount operands.length -
      operands.length) placeholder)[index]? = some placeholder := by
    rw [List.getElem?_append_right hbehind, List.getElem?_replicate, if_pos (by omega)]
  exact (CallFrame.isDefault_iff hget).mpr hnode

/-- An operand of a call is seen as what its node is. -/
theorem Session.Finds.shows {settings : Settings} {engine : CoercionEngine} {f : CallFrame}
    {index : Nat} {operand : NodeId} {o : Operand} (h : f.session.Finds operand o)
    (ho : f.operands[index]? = some operand) (hkey : op.signature.isKeyword index = false) :
    (CallFrame.view v scope call op settings engine).Shows f index o := by
  have hdefault : f.isDefault index = f.session.isDefault operand := by
    unfold CallFrame.On.isDefault CallFrame.On.node?
    rw [ho]
    rfl
  have hnull : f.isNull index = f.session.isNull operand := by
    unfold CallFrame.On.isNull CallFrame.On.node?
    rw [ho]
    rfl
  cases h with
  | omitted hd _ => exact hdefault.trans hd
  | null hd hn ht =>
    exact ⟨hdefault.trans hd, hnull.trans hn, CallFrame.typeOf_of_recorded hkey ho ht⟩
  | typed hd hn ht =>
    exact ⟨hdefault.trans hd, hnull.trans hn, CallFrame.typeOf_of_recorded hkey ho ht⟩

/-- A call shows its written operands and then placeholders. -/
theorem showsAll_padded {settings : Settings} {engine : CoercionEngine}
    (hpad : padded op.signature operands s = (.ok all, s₁))
    (hkept : ∀ id node, s₁.tree.node? id = some node → s₂.tree.node? id = some node)
    (hkey : ∀ index, index < operands.length → op.signature.isKeyword index = false)
    (hfinds : List.Forall₂ s₂.Finds operands os) :
    (CallFrame.view v scope call op settings engine).ShowsAll ⟨s₂, all⟩
      (Operand.padded os (op.signature.shownCount operands.length)) := by
  have hlength := hfinds.length_eq
  have hcount := length_padded hpad
  have hle := Signature.le_shownCount op.signature operands.length
  refine ⟨?_, fun index o ho => ?_⟩
  · show all.length = _
    simp only [Operand.padded, List.length_append, List.length_replicate]
    omega
  unfold Operand.padded at ho
  rw [List.getElem?_append] at ho
  split at ho
  -- A written operand.
  · rename_i hi
    have hi' : index < operands.length := by omega
    obtain rfl : os[index] = o := Option.some.inj ((List.getElem?_eq_getElem hi).symm.trans ho)
    have hfound : s₂.Finds operands[index] os[index] := hfinds.get hi' hi
    exact hfound.shows ((getElem?_padded hpad hi').trans (List.getElem?_eq_getElem hi'))
      (hkey index hi')
  -- A placeholder.
  · have hshort : index - os.length < op.signature.shownCount operands.length - os.length := by
      obtain ⟨hlt, -⟩ := List.getElem?_eq_some_iff.mp ho
      simpa using hlt
    obtain rfl : o = .omitted := (List.mem_replicate.mp (List.mem_of_getElem? ho)).2
    exact isDefault_padded hpad (fun id => hkept id _) (by omega) (by omega)

/-- A list of families that admits the written operands of a call is as long as what the call
    shows. -/
theorem length_eq_count {c : CallView CallFrame} {f : CallFrame}
    (hadmits : op.arity.admits operands.length = true)
    (hshown : c.ShowsAll f (Operand.padded os (op.signature.shownCount operands.length)))
    (hos : os.length = operands.length) (positions : List Family) (omittable : Nat → Bool)
    (hfamilies : op.signature = .families positions omittable) :
    positions.length = c.count f := by
  have hle := Signature.le_shownCount op.signature operands.length
  rw [hshown.count, length_eq_shownCount hadmits hfamilies]
  simp only [Operand.padded, List.length_append, List.length_replicate]
  omega

/-- Operands that have been found have types. -/
theorem recorded_of_finds (h : List.Forall₂ s.Finds operands os) :
    ∀ operand ∈ operands, ∃ type, s.types.get? operand = some type := by
  induction h with
  | nil => simp
  | cons hfirst _ ih =>
    intro operand ho
    rcases List.mem_cons.mp ho with rfl | ho
    · cases hfirst with
      | omitted _ ht => exact ⟨_, ht⟩
      | null _ _ ht => exact ⟨_, ht⟩
      | typed _ _ ht => exact ⟨_, ht⟩
    · exact ih operand ho

variable (call) in
/-- Without conversion no node of the statement is touched before the check of a call, which then shows its
    written operands and placeholders. -/
theorem Session.Derives.exists_shown (hcoercion : s.settings.coercion = false)
    (hkey : ∀ index, index < operands.length → op.signature.isKeyword index = false)
    (hderives : s.Derives scope op operands os) :
    ∃ all s₁ s₂, padded op.signature operands s = (.ok all, s₁) ∧
      visitOperands (visitAt s.tree.size) scope op.signature 0 operands s₁ = (.ok (), s₂) ∧
        s₂.settings.coercion = false ∧ List.Forall₂ s₂.Finds operands os ∧
          (∀ id node, s.tree.node? id = some node → s₂.tree.node? id = some node) ∧
            (CallFrame.view (visitAt s.tree.size) scope call op s₂.settings s₂.engine).ShowsAll
              ⟨s₂, all⟩ (Operand.padded os (op.signature.shownCount operands.length)) := by
  obtain ⟨all, s₁, s₂, hpad, hvisit, hfinds⟩ := hderives
  obtain ⟨-, -, -, hsettings, hkept⟩ := padded_eq hpad
  have hleaves : s₂.LeavesNodes s₁.tree := by
    have hkeeps := keeps_visitOperands op.signature 0 fun operand (_ : operand ∈ operands) =>
      (visitAt_leavesNodes s₁.tree s.tree.size).expression scope operand
    have hend := hkeeps s₁ ⟨hsettings ▸ hcoercion, fun _ _ h => h⟩
    rwa [hvisit] at hend
  exact ⟨all, s₁, s₂, hpad, hvisit, hleaves.1, hfinds, fun id node h => hleaves.2 _ _ (hkept _ _ h),
    showsAll_padded hpad hleaves.2 hkey hfinds⟩

/-- A call whose check has left its operands alone has a type, when the operands that its type is taken from
    are there. -/
theorem exists_typedCall (hcall : s.tree.node? call = some (.call name operands))
    (hfinds : List.Forall₂ s.Finds operands os)
    (hrule : ∀ index, op.returns.source? = some index → index < operands.length) :
    ∃ type, typedCall v scope call op s = (.ok type, s) := by
  obtain ⟨types, hlength, htypes⟩ : ∃ types, types.length = operands.length ∧
      operandTypes v scope op.signature 0 operands s = (.ok types, s) := by
    refine ⟨_, by simp, operandTypes_of_recorded
      (fun operand => (s.types.get? operand).getD .any) 0 fun k operand ho _ => ?_⟩
    obtain ⟨type, htype⟩ := recorded_of_finds hfinds operand (List.mem_of_getElem? ho)
    rw [htype]
    rfl
  obtain ⟨type, htype⟩ := (ReturnRule.infer_isOk_iff types op.returns).mpr
    fun index hi => hlength ▸ hrule index hi
  have hcurrent : (s.tree.operands? call).getD [] = operands := by
    simp [Tree.operands?, hcall, Node.operands?]
  refine ⟨type, ?_⟩
  unfold typedCall
  rw [bind_of_ok (state_apply s), hcurrent, bind_of_ok htypes, htype]
  rfl

/-- Without conversion a call is accepted exactly when the number of its operands is admitted and
    they fit some list of families, with placeholders for those that the call does not write. -/
theorem Session.deriveType_isOk_iff (hcoercion : s.settings.coercion = false)
    (hcall : s.tree.node? call = some (.call name operands))
    (hop : s.operators.lookup? name = some op) (hfinite : op.signature.IsFinite)
    (hkey : ∀ index, index < operands.length → op.signature.isKeyword index = false)
    (hrule : ∀ index, op.returns.source? = some index → index < operands.length)
    (hderives : s.Derives scope op operands os) :
    (∃ type t, Session.deriveType scope call s = (.ok type, t)) ↔
      op.arity.admits operands.length = true ∧ ∃ positions omittable,
        Signature.families positions omittable ∈ op.signature.leaves ∧
          Form.fits false ⟨positions, omittable⟩
            (Operand.padded os (op.signature.shownCount operands.length)) = true := by
  obtain ⟨all, s₁, s₂, hpad, hvisit, hcoercion₂, hfinds, hkept, hshown⟩ :=
    hderives.exists_shown call hcoercion hkey
  by_cases hadmits : op.arity.admits operands.length = true
  · have hrules := hshown.rests.rules_check hcoercion₂ hfinite
      (length_eq_count hadmits hshown hfinds.length_eq.symm)
    have haccepts := hshown.accepts_iff op.signature.leaves
    rw [show (CallFrame.view (visitAt s.tree.size) scope call op s₂.settings s₂.engine).coerces =
      false from hcoercion₂] at haccepts
    rw [and_iff_right hadmits, ← haccepts]
    have hchecked : checkedCall (visitAt s.tree.size) scope call name operands s = _ :=
      checkedCall_of_visited hop hadmits hpad hvisit
    constructor
    · rintro ⟨type, t, hok⟩
      obtain ⟨found, answer, s₃, s₄, hfound, -⟩ := (deriveType_iff_typedCall hcall).mp hok
      rw [hchecked] at hfound
      obtain ⟨answer', s', hcheck, -⟩ := bind_eq_ok_iff.mp hfound
      refine Classical.byContradiction fun hrefused => ?_
      obtain ⟨e, -, he⟩ := hrules.2 hrefused
      cases (checkCall_of_check he).symm.trans hcheck
    · intro hfits
      have hcheck : checkCall (visitAt s.tree.size) scope call op all s₂ = (.ok true, s₂) :=
        checkCall_of_check (hrules.1 hfits)
      -- The check has left the call alone, so the types are those found before it.
      obtain ⟨type, htyped⟩ := exists_typedCall (hkept _ _ hcall) hfinds hrule
      refine ⟨type, _, (deriveType_iff_typedCall hcall).mpr ⟨op, true, s₂, s₂, ?_, htyped, rfl⟩⟩
      rw [hchecked, bind_of_ok hcheck]
      rfl
  · refine ⟨?_, fun h => absurd h.1 hadmits⟩
    rintro ⟨type, t, hok⟩
    obtain ⟨found, answer, s₃, s₄, hfound, -⟩ := (deriveType_iff_typedCall hcall).mp hok
    rw [checkedCall_of_not_admits hop (by simpa using hadmits)] at hfound
    cases hfound

end

/-! ### Choices of lists of families -/

namespace Form

/-- The choice between lists of families. -/
def choice (forms : List Form) : Signature := .oneOf (forms.map signature)

variable {forms : List Form} {f : Form} {index count : Nat}

theorem leaves_choice (forms : List Form) : (choice forms).leaves = forms.map signature := by
  show Signature.leavesOf (forms.map signature) = _
  induction forms with
  | nil => rfl
  | cons f rest ih =>
    rw [List.map_cons, Signature.leavesOf, ih]
    rfl

theorem isFinite_choice (forms : List Form) : (choice forms).IsFinite := by
  intro least answer hleaf
  rw [leaves_choice] at hleaf
  obtain ⟨f, -, hf⟩ := List.mem_map.mp hleaf
  cases hf

theorem isFinite_signature (f : Form) : f.signature.IsFinite := by
  intro least answer hleaf
  cases List.mem_singleton.mp hleaf

/-- What alternatives ask for at a position is asked for by one of them. -/
theorem exists_of_mem_familiesAt {entry : Option Family}
    (h : entry ∈ Signature.familiesAt index (forms.map signature)) :
    ∃ f ∈ forms, f.positions[index]? = entry := by
  induction forms with
  | nil => cases h
  | cons f rest ih =>
    rw [List.map_cons, Signature.familiesAt] at h
    split at h
    · rcases List.mem_cons.mp h with rfl | h
      · exact ⟨f, by simp, rfl⟩
      · obtain ⟨g, hg, hentry⟩ := ih h
        exact ⟨g, by simp [hg], hentry⟩
    · obtain ⟨g, hg, hentry⟩ := ih h
      exact ⟨g, by simp [hg], hentry⟩

/-- A position that some alternative looks at, and that none ignores, holds no keyword. -/
theorem isKeyword_choice (h : ∀ f ∈ forms, f.positions[index]? ≠ some .ignore) :
    (choice forms).isKeyword index = false := by
  refine Bool.eq_false_iff.mpr fun hkey => ?_
  have hcommon : Signature.common? (Signature.familiesAt index (forms.map signature)) =
      some .ignore := by simpa [Signature.isKeyword, choice, Signature.familyAt?] using hkey
  have hall := Signature.common?_eq_some hcommon
  cases hentries : Signature.familiesAt index (forms.map signature) with
  | nil =>
    rw [hentries] at hcommon
    cases hcommon
  | cons entry rest =>
    have hmem : entry ∈ Signature.familiesAt index (forms.map signature) := by simp [hentries]
    obtain ⟨f, hf, hentry⟩ := exists_of_mem_familiesAt hmem
    exact h f hf (hentry.trans (hall entry hmem))

theorem isKeyword_signature (h : f.positions[index]? ≠ some .ignore) :
    f.signature.isKeyword index = false := by
  simpa [Signature.isKeyword, signature, Signature.familyAt?] using h

/-- What can be cut off behind `count` operands is not required. -/
theorem requiredCount_le_of {omittable : Nat → Bool} {length : Nat}
    (h : ∀ index, count ≤ index → index < length → omittable index = true) :
    requiredCount omittable length ≤ count := by
  induction length with
  | zero => exact Nat.zero_le _
  | succ length ih =>
    unfold requiredCount
    split
    · exact ih fun index hi hlt => h index hi (by omega)
    · rename_i hrequired
      by_cases hle : count ≤ length
      · exact absurd (h length hle (by omega)) hrequired
      · omega

/-- Each operand fits the family of its position. -/
theorem fits_of_fitsFrom {coerces : Bool} {omittable : Nat → Bool} {start : Nat}
    {families : List Family} {os : List Operand} {family : Family} {o : Operand}
    (h : fitsFrom coerces omittable start families os = true) (hf : families[index]? = some family)
    (ho : os[index]? = some o) : o.fits coerces family (omittable (start + index)) = true := by
  induction families generalizing start os index with
  | nil => simp at hf
  | cons first rest ih =>
    cases os with
    | nil => simp at ho
    | cons o' os =>
      simp only [fitsFrom, Bool.and_eq_true] at h
      cases index with
      | zero =>
        cases hf
        cases ho
        exact h.1
      | succ index =>
        have := ih h.2 hf ho
        rwa [show start + 1 + index = start + (index + 1) by omega] at this

/-- Where no position is ignored, the operands that a call omits may be omitted. -/
theorem admits_of_fits {os : List Operand} (hle : os.length ≤ f.positions.length)
    (hlooked : ∀ index : Nat, f.positions[index]? ≠ some .ignore)
    (hfits : f.fits false (Operand.padded os f.positions.length) = true) :
    f.signature.arity.admits os.length = true := by
  rw [Arity.admits_iff]
  refine ⟨?_, fun most hmost => ?_⟩
  · show requiredCount f.omittable f.positions.length ≤ os.length
    refine requiredCount_le_of fun index hi hlt => ?_
    have ho : (Operand.padded os f.positions.length)[index]? = some .omitted := by
      unfold Operand.padded
      rw [List.getElem?_append_right hi, List.getElem?_replicate, if_pos (by omega)]
    have hf : f.positions[index]? = some f.positions[index] := List.getElem?_eq_getElem hlt
    have hone := fits_of_fitsFrom hfits hf ho
    rw [Nat.zero_add] at hone
    have hne : f.positions[index] ≠ .ignore := fun heq => hlooked index (heq ▸ hf)
    simpa [Operand.fits, hne] using hone
  · obtain rfl : f.positions.length = most := Option.some.inj hmost
    exact hle

end Form

/-- The session with one more operator. -/
def Session.withOperator (s : Session) (op : Operator) : Session :=
  { s with operators := s.operators.register op }

/-- Whether a call has a type when the operator is registered. -/
def Session.AcceptsWith (s : Session) (scope : ScopeId) (call : NodeId) (op : Operator) : Prop :=
  ∃ type t, Session.deriveType scope call (s.withOperator op) = (.ok type, t)

/-- A call of an operator that is registered with a choice of lists of families or with one of them
    alone. Operands are not converted, none of those written stands where some list does not look,
    their types are found under every registration, and the type of the call can be inferred. -/
structure Session.ChoiceCall (s : Session) (scope : ScopeId) (call : NodeId) (name : String)
    (operands : List NodeId) (operator : String) (forms : List Form) (returns : ReturnRule)
    (os : List Operand) : Prop where
  coercion : s.settings.coercion = false
  node : s.tree.node? call = some (.call name operands)
  fold : Text.fold name = Text.fold operator
  looked : ∀ f ∈ forms, ∀ index, index < operands.length → f.positions[index]? ≠ some .ignore
  rule : ∀ index, returns.source? = some index → index < operands.length
  derives : ∀ signature, signature = Form.choice forms ∨ signature ∈ forms.map Form.signature →
    (s.withOperator ⟨operator, signature, returns⟩).Derives scope ⟨operator, signature, returns⟩
      operands os

namespace Session.ChoiceCall

variable {s : Session} {scope : ScopeId} {call : NodeId} {name operator : String}
  {operands : List NodeId} {forms : List Form} {returns : ReturnRule} {os : List Operand}

/-- The call under one registration. -/
theorem acceptsWith_iff (h : s.ChoiceCall scope call name operands operator forms returns os)
    {signature : Signature}
    (hs : signature = Form.choice forms ∨ signature ∈ forms.map Form.signature)
    (hfinite : signature.IsFinite)
    (hkey : ∀ index, index < operands.length → signature.isKeyword index = false) :
    s.AcceptsWith scope call ⟨operator, signature, returns⟩ ↔
      signature.arity.admits operands.length = true ∧ ∃ positions omittable,
        Signature.families positions omittable ∈ signature.leaves ∧
          Form.fits false ⟨positions, omittable⟩
            (Operand.padded os (signature.shownCount operands.length)) = true := by
  refine Session.deriveType_isOk_iff (s := s.withOperator ⟨operator, signature, returns⟩) h.coercion
    h.node ?_ hfinite hkey h.rule (h.derives signature hs)
  show (s.operators.register _).lookup? name = _
  rw [OperatorTable.lookup?_register, if_pos h.fold]

/-- A choice judges a call with placeholders up to its largest number of operands, where some
    alternative lets every missing one be omitted; only alternatives of exactly that length count.
    An alternative alone judges the call with placeholders up to its own length. -/
theorem oneOf_judges_padded
    (h : s.ChoiceCall scope call name operands operator forms returns os) :
    (s.AcceptsWith scope call ⟨operator, Form.choice forms, returns⟩ ↔
      (Form.choice forms).arity.admits operands.length = true ∧ ∃ f ∈ forms,
        f.fits false (Operand.padded os ((Form.choice forms).shownCount operands.length)) = true) ∧
    ∀ f ∈ forms, (s.AcceptsWith scope call ⟨operator, f.signature, returns⟩ ↔
      f.signature.arity.admits operands.length = true ∧
        f.fits false (Operand.padded os f.positions.length) = true) := by
  refine ⟨?_, fun f hf => ?_⟩
  · rw [h.acceptsWith_iff (.inl rfl) (Form.isFinite_choice forms) fun index hi =>
      Form.isKeyword_choice fun f hf => h.looked f hf index hi]
    refine and_congr_right fun _ => ⟨?_, ?_⟩
    · rintro ⟨positions, omittable, hleaf, hfits⟩
      rw [Form.leaves_choice] at hleaf
      obtain ⟨f, hf, heq⟩ := List.mem_map.mp hleaf
      cases heq
      exact ⟨f, hf, hfits⟩
    · rintro ⟨f, hf, hfits⟩
      refine ⟨f.positions, f.omittable, ?_, hfits⟩
      rw [Form.leaves_choice]
      exact List.mem_map.mpr ⟨f, hf, rfl⟩
  · rw [h.acceptsWith_iff (.inr (List.mem_map.mpr ⟨f, hf, rfl⟩)) (Form.isFinite_signature f)
      fun index hi => Form.isKeyword_signature (h.looked f hf index hi)]
    refine and_congr_right fun hadmits => ?_
    have hcount : f.signature.shownCount operands.length = f.positions.length :=
      Signature.shownCount_of_admits hadmits
    rw [hcount]
    constructor
    · rintro ⟨positions, omittable, hleaf, hfits⟩
      cases List.mem_singleton.mp hleaf
      exact hfits
    · intro hfits
      exact ⟨f.positions, f.omittable, List.mem_singleton.mpr rfl, hfits⟩

/-- Where the alternatives that admit the written operands all have the length that the call shows,
    and every list looks at all its positions, a choice accepts what some alternative accepts alone. -/
theorem oneOf_accepts_iff
    (h : s.ChoiceCall scope call name operands operator forms returns os)
    (hos : os.length = operands.length)
    (hlength : ∀ f ∈ forms, f.signature.arity.admits operands.length = true →
      f.positions.length = (Form.choice forms).shownCount operands.length)
    (hlooked : ∀ f ∈ forms, ∀ index : Nat, f.positions[index]? ≠ some .ignore) :
    s.AcceptsWith scope call ⟨operator, Form.choice forms, returns⟩ ↔
      ∃ f ∈ forms, s.AcceptsWith scope call ⟨operator, f.signature, returns⟩ := by
  obtain ⟨hchoice, halone⟩ := h.oneOf_judges_padded
  have hle := Signature.le_shownCount (Form.choice forms) operands.length
  rw [hchoice]
  constructor
  · rintro ⟨-, f, hf, hfits⟩
    have hshown : f.positions.length = (Form.choice forms).shownCount operands.length := by
      have hequal := Form.length_eq_of_fitsFrom hfits
      simp only [Operand.padded, List.length_append, List.length_replicate] at hequal
      omega
    rw [← hshown] at hfits hle
    refine ⟨f, hf, (halone f hf).mpr ⟨?_, hfits⟩⟩
    rw [← hos]
    exact Form.admits_of_fits (by omega) (hlooked f hf) hfits
  · rintro ⟨f, hf, haccepts⟩
    obtain ⟨hadmits, hfits⟩ := (halone f hf).mp haccepts
    refine ⟨Signature.admits_oneOf (List.mem_map.mpr ⟨f, hf, rfl⟩) hadmits, f, hf, ?_⟩
    rwa [← hlength f hf hadmits]

/-! ### A longer alternative in the way of a shorter one -/

/-- One operand of type CHARACTER, or a NUMERIC one and perhaps another. -/
def textOrNumbers : List Form :=
  [⟨[.character], fun _ => false⟩, ⟨[.numeric, .numeric], fun index => index == 1⟩]

/-- The call `F('a')` in a statement of its own. -/
def textCall : Session where
  settings := { coercion := false }
  tree := ⟨#[⟨.literal (.string "a"), ⟨2, 5⟩⟩, ⟨.call "F" [⟨0⟩], ⟨0, 6⟩⟩]⟩
  operators := .empty

/-- Its operand has a type, whatever signature the operator has, as long as it is looked at. -/
theorem derives_text (signature : Signature) (hkey : signature.isKeyword 0 = false) :
    (textCall.withOperator ⟨"F", signature, .fixed (.notNull .integer)⟩).Derives ScopeTree.rootId
      ⟨"F", signature, .fixed (.notNull .integer)⟩ [⟨0⟩]
      [.typed (Literal.string "a").type] := by
  let op : Operator := ⟨"F", signature, .fixed (.notNull .integer)⟩
  obtain ⟨all, s₁, hpad⟩ := exists_padded op.signature [⟨0⟩] (textCall.withOperator op)
  obtain ⟨-, -, -, -, hkept⟩ := padded_eq hpad
  have hnode := hkept ⟨0⟩ (.literal (.string "a")) rfl
  refine ⟨all, s₁, { s₁ with types := s₁.types.put ⟨0⟩ (Literal.string "a").type }, hpad, ?_,
    .cons (.typed ?_ ?_ ?_) .nil⟩
  · show visitOperands (visitAt 2) ScopeTree.rootId signature 0 [⟨0⟩] s₁ = _
    unfold visitOperands
    rw [hkey]
    exact bind_of_ok (expressionStep_literal hnode) _
  · simp [Session.isDefault, hnode, Node.isDefault]
  · simp [Session.isNull, hnode, Node.isNullLiteral, Literal.isNull]
  · simp [OrderedMap.get?_put]

/-- Its operand has a type, whichever list of families is asked. -/
theorem choiceCall_text : textCall.ChoiceCall ScopeTree.rootId ⟨1⟩ "F" [⟨0⟩] "F" textOrNumbers
    (.fixed (.notNull .integer)) [.typed (Literal.string "a").type] where
  coercion := rfl
  node := rfl
  fold := rfl
  looked := by simp [textOrNumbers]
  rule := by simp [ReturnRule.source?]
  derives signature hs := by
    refine derives_text signature ?_
    rcases hs with rfl | hs
    · decide
    · simp [textOrNumbers] at hs
      rcases hs with rfl | rfl
      · decide
      · decide

/-- `F('a')` with the longer list of families behind the shorter one: the call shows two operands, so
    the choice refuses it, and the list of one family alone accepts it. -/
theorem oneOf_judges_padded_text :
    textCall.ChoiceCall ScopeTree.rootId ⟨1⟩ "F" [⟨0⟩] "F" textOrNumbers
        (.fixed (.notNull .integer)) [.typed (Literal.string "a").type] ∧
      ¬ textCall.AcceptsWith ScopeTree.rootId ⟨1⟩
        ⟨"F", Form.choice textOrNumbers, .fixed (.notNull .integer)⟩ ∧
      textCall.AcceptsWith ScopeTree.rootId ⟨1⟩
        ⟨"F", .required [.character], .fixed (.notNull .integer)⟩ := by
  obtain ⟨hchoice, halone⟩ := oneOf_judges_padded choiceCall_text
  refine ⟨choiceCall_text, ?_, ?_⟩
  · rw [hchoice]
    decide
  · exact (halone ⟨[.character], fun _ => false⟩ (by simp [textOrNumbers])).mpr (by decide)

/-- It is not so that a choice accepts a call exactly when some alternative alone accepts it. -/
theorem oneOf_not_some_alone :
    ¬ ∀ (s : Session) (scope : ScopeId) (call : NodeId) (name operator : String)
      (operands : List NodeId) (forms : List Form) (returns : ReturnRule) (os : List Operand),
        s.ChoiceCall scope call name operands operator forms returns os →
          (s.AcceptsWith scope call ⟨operator, Form.choice forms, returns⟩ ↔
            ∃ f ∈ forms, s.AcceptsWith scope call ⟨operator, f.signature, returns⟩) := by
  intro h
  have halone : (Session.deriveType ScopeTree.rootId ⟨1⟩ (textCall.withOperator
      ⟨"F", .required [.character], .fixed (.notNull .integer)⟩)).1 = .ok (.notNull .integer) := by
    decide +kernel
  have hrefused : (Session.deriveType ScopeTree.rootId ⟨1⟩ (textCall.withOperator
      ⟨"F", Form.choice textOrNumbers, .fixed (.notNull .integer)⟩)).1.toOption = none := by
    decide +kernel
  obtain ⟨type, t, hok⟩ := (h _ _ _ _ _ _ _ _ _ choiceCall_text).mpr
    ⟨_, List.mem_cons_self .., _, _, Prod.ext halone rfl⟩
  rw [hok] at hrefused
  cases hrefused

end Session.ChoiceCall

end SqlTyping
