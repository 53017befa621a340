import SqlTyping.Proofs.Session.Acceptance
import SqlTyping.Proofs.Session.Following
import SqlTyping.Proofs.Session.Omission
import SqlTyping.Proofs.Session.WithItems

namespace SqlTyping

/-!
# Conversion that is not needed

A query that is accepted while operands must not be converted is accepted in the same way when they may
be. The operators' checks only look at types that are recorded by then, so a call that fits is accepted
as it stands, whatever is allowed:

* `visitAt_records` — the validation of an expression records its type;
* `CallFrame.knowsAll` — so the types of a call's operands are at hand after their validation;
* `CallFrame.LooksLike.accepts` — then only what is at hand decides whether the call is accepted;
* `Session.checks_conversion` — so checks that accept without conversion do the same with it;
* `Session.conversion_conservative` — and so does the validation of a query.
-/

open Checking

section

variable {depth : Nat} {scope : ScopeId} {id : NodeId} {s s' : Session} {type : DataType}

/-! ### Recorded types -/

/-- A node that has a type keeps having one. -/
theorem visitAt_keeps_recorded (depth : Nat) (id : NodeId) :
    (visitAt depth).Keeps fun s => (s.types.get? id).isSome = true := by
  have hrecords : Session.Invariant 0 fun s => (s.types.get? id).isSome = true := by
    refine ⟨fun _ => Nat.zero_le _, fun other type h => ?_, fun h _ => h, fun h _ _ => h,
      fun _ _ _ h => h, fun h _ => h, fun h _ _ => h, fun _ h => h⟩
    simp only [OrderedMap.get?_put]
    split
    · rfl
    · exact h
  exact visitAt_keeps_apart (fun _ _ h => h) (fun _ _ h => h) hrecords depth

/-- The type of an expression is recorded, also when casts stand around it. -/
theorem visitAt_records (h : (visitAt depth).expression scope id s = (.ok type, s')) :
    (s'.types.get? id).isSome = true := by
  cases depth with
  | zero => cases h
  | succ depth =>
    have hhead := Tree.head?_peelCasts s.tree s.tree.size id
    change expressionStep (visitAt depth) scope id s = _ at h
    unfold expressionStep at h
    rw [bind_of_ok (state_apply s)] at h
    generalize s.tree.peelCasts s.tree.size id = peeled at h hhead
    obtain ⟨casts, core⟩ := peeled
    obtain ⟨n, s₁, -, h⟩ := bind_eq_ok_iff.mp h
    obtain ⟨found, s₂, -, h⟩ := bind_eq_ok_iff.mp h
    obtain ⟨result, s₃, hrecord, -, hlast⟩ := exists_recordTypes found casts core s₂
    obtain ⟨-, rfl⟩ := Prod.mk.inj (hrecord.symm.trans h)
    exact Option.isSome_iff_exists.mpr ⟨result, hlast id hhead⟩

/-- The types of the written operands are recorded, but for keywords. -/
theorem visitOperands_records {signature : Signature} {start : Nat} {operands : List NodeId}
    (h : visitOperands (visitAt depth) scope signature start operands s = (.ok (), s')) {index : Nat}
    {operand : NodeId} (ho : operands[index]? = some operand)
    (hkey : signature.isKeyword (start + index) = false) :
    (s'.types.get? operand).isSome = true := by
  induction operands generalizing s start index with
  | nil => cases ho
  | cons first rest ih =>
    unfold visitOperands at h
    have hrest : ∀ {s₁}, visitOperands (visitAt depth) scope signature (start + 1) rest s₁ =
        (.ok (), s') → ∀ {index}, rest[index]? = some operand →
          signature.isKeyword (start + (index + 1)) = false → (s'.types.get? operand).isSome = true :=
      fun hvisit index ho hkey => ih hvisit ho (by rwa [Nat.add_right_comm])
    cases index with
    | zero =>
      cases ho
      rw [Nat.add_zero] at hkey
      rw [hkey] at h
      obtain ⟨found, s₁, hfirst, hvisit⟩ := bind_eq_ok_iff.mp h
      -- What is validated behind the operand leaves it its type.
      have hkeeps := keeps_visitOperands signature (start + 1) fun o (_ : o ∈ rest) =>
        (visitAt_keeps_recorded depth operand).expression scope o
      have hend := hkeeps s₁ (visitAt_records hfirst)
      have hvisit : visitOperands (visitAt depth) scope signature (start + 1) rest s₁ = (.ok (), s') :=
        hvisit
      rwa [hvisit] at hend
    | succ index =>
      split at h
      · obtain ⟨found, s₁, -, hvisit⟩ := bind_eq_ok_iff.mp h
        exact hrest hvisit ho hkey
      · exact hrest h ho hkey

/-- While operands must not be converted, their validation leaves the nodes of the statement alone. -/
theorem visitOperands_leavesNodes {signature : Signature} {start : Nat} {operands : List NodeId}
    (hoff : s.settings.coercion = false)
    (h : visitOperands (visitAt depth) scope signature start operands s = (.ok (), s')) :
    s'.LeavesNodes s.tree := by
  have hkeeps := keeps_visitOperands signature start fun operand (_ : operand ∈ operands) =>
    (visitAt_leavesNodes s.tree depth).expression scope operand
  have hend := hkeeps s ⟨hoff, fun _ _ hid => hid⟩
  rwa [h] at hend

end

/-! ### Calls at rest -/

namespace CallFrame

/-- The type of an operand that is at hand: SYMBOL for a keyword, else the recorded type. -/
def known? (op : Operator) (f : CallFrame) (index : Nat) : Option DataType :=
  if op.signature.isKeyword index then some .symbol
  else (f.operands[index]?).bind f.session.types.get?

/-- The types of all operands are at hand, but for placeholders. -/
def KnowsAll (op : Operator) (f : CallFrame) : Prop :=
  ∀ index, index < f.operands.length → f.isDefault index = false →
    ∃ type, f.known? op index = some type

/-- The same can be seen of the call in both frames without validating anything. -/
structure LooksLike (op : Operator) (f g : CallFrame) : Prop where
  operands : g.operands = f.operands
  tree : g.session.tree = f.session.tree
  known : ∀ index, g.known? op index = f.known? op index

section

variable {v : Visit} {depth : Nat} {scope : ScopeId} {call : NodeId} {op : Operator}
  {settings : Settings} {engine : CoercionEngine} {f g : CallFrame} {index : Nat} {type : DataType}

theorem typeOf_of_known (hi : index < f.operands.length) (h : f.known? op index = some type) :
    CallFrame.typeOf v scope op index f = (.ok type, f) := by
  have ho : f.operands[index]? = some f.operands[index] := List.getElem?_eq_getElem hi
  unfold known? at h
  by_cases hkey : op.signature.isKeyword index = true
  · rw [if_pos hkey] at h
    cases h
    exact CallFrame.typeOf_of_keyword hkey ho
  · rw [if_neg hkey, ho] at h
    exact CallFrame.typeOf_of_recorded (by simpa using hkey) ho h

theorem reads_of_known (hi : index < f.operands.length) (h : f.known? op index = some type) :
    (CallFrame.view v scope call op settings engine).Reads f index type := typeOf_of_known hi h

theorem KnowsAll.rests (h : f.KnowsAll op) :
    (CallFrame.view v scope call op settings engine).Rests f := by
  intro index hi hd
  obtain ⟨type, hk⟩ := h index hi hd
  exact ⟨type, reads_of_known hi hk⟩

/-- After its written operands have been validated, the types of all operands of a call are at hand,
    but for placeholders. -/
theorem knowsAll {operands all : List NodeId} {s s₁ s₂ : Session}
    (hpad : padded op.signature operands s = (.ok all, s₁))
    (hkept : ∀ id, s₁.tree.node? id = some .default → s₂.tree.node? id = some .default)
    (hvisit : visitOperands (visitAt depth) scope op.signature 0 operands s₁ = (.ok (), s₂)) :
    KnowsAll op ⟨s₂, all⟩ := by
  intro index hi hd
  have hwritten : index < operands.length := by
    by_contra hbehind
    have hdefault := isDefault_padded hpad hkept (Nat.le_of_not_lt hbehind) hi
    rw [hd] at hdefault
    cases hdefault
  unfold known?
  by_cases hkey : op.signature.isKeyword index = true
  · exact ⟨.symbol, if_pos hkey⟩
  have ho : operands[index]? = some operands[index] := List.getElem?_eq_getElem hwritten
  have hrecorded := visitOperands_records hvisit ho (by simpa using hkey)
  rw [if_neg hkey]
  dsimp only
  rw [getElem?_padded hpad hwritten, ho]
  exact Option.isSome_iff_exists.mp hrecorded

namespace LooksLike

theorem knowsAll (h : f.LooksLike op g) (hf : f.KnowsAll op) : g.KnowsAll op := by
  intro index hi hd
  rw [h.operands] at hi
  rw [isDefault_congr h.operands h.tree] at hd
  rw [h.known]
  exact hf index hi hd

/-- A call that is accepted as it stands is accepted where it looks the same, also when operands may be
    converted there only. -/
theorem accepts {leaves : List Signature} {settings' : Settings} {engine' : CoercionEngine}
    (h : f.LooksLike op g) (hf : f.KnowsAll op)
    (hcoerces : settings.coercion = true → settings'.coercion = true)
    (haccepts : (CallFrame.view v scope call op settings engine).Accepts
      (CallFrame.view v scope call op settings engine).Reads leaves f) :
    (CallFrame.view v scope call op settings' engine').Accepts
      (CallFrame.view v scope call op settings' engine').Reads leaves g := by
  obtain ⟨positions, omittable, hleaf, hcount, hfits⟩ := haccepts
  have hcount : positions.length = f.operands.length := hcount
  refine ⟨positions, omittable, hleaf, ?_, fun index family hfamily => ?_⟩
  · show positions.length = g.operands.length
    rw [h.operands]
    exact hcount
  have hi : 0 + index < f.operands.length := by
    have hlt := (List.getElem?_eq_some_iff.mp hfamily).1
    omega
  have hlegal := hfits index family hfamily
  unfold CallView.Admits at hlegal ⊢
  show Legal _ _ (g.isDefault (0 + index)) (g.isNull (0 + index)) _ _
  rw [isDefault_congr h.operands h.tree, isNull_congr h.operands h.tree]
  -- What is read there is the type at hand, which is the same in both.
  refine Legal.imp hlegal (fun hd type hreads => ?_) fun _ hc => hcoerces hc
  obtain ⟨known, hk⟩ := hf _ hi hd
  obtain rfl := hreads.unique (reads_of_known hi hk)
  exact reads_of_known (h.operands ▸ hi) ((h.known _).trans hk)

/-- There the operator's check accepts the call and leaves it alone. -/
theorem check_eq {settings' : Settings} {engine' : CoercionEngine} (h : f.LooksLike op g)
    (hf : f.KnowsAll op) (hfinite : op.signature.IsFinite)
    (hcoerces : settings.coercion = true → settings'.coercion = true)
    (haccepts : (CallFrame.view v scope call op settings engine).Accepts
      (CallFrame.view v scope call op settings engine).Reads op.signature.leaves f) :
    op.signature.check (CallFrame.view v scope call op settings' engine') g = (.ok true, g) :=
  (h.knowsAll hf).rests.check_of_accepts hfinite (h.accepts hf hcoerces haccepts)

end LooksLike

end

end CallFrame

/-! ### Queries -/

/-- The session in which operands may be converted. -/
def Session.allowingConversion (s : Session) : Session :=
  { s with settings := { s.settings with coercion := true } }

/-- The comparison of a session with the one in which operands may be converted. Neither makes requests
    to the engine. -/
def Session.conversion (s : Session) : Comparison where
  likeness := .equality
  operators := s.operators
  engine := s.engine
  settings := s.settings
  settings' := { s.settings with coercion := true }
  caseSensitive := rfl
  noted l l' := l = s.requests ∧ l' = s.requests

variable {s s' : Session}

theorem Session.compares_allowingConversion (s : Session) :
    s.Compares s.conversion s.allowingConversion where
  settings := rfl
  settings' := rfl
  operators := rfl
  operators' := rfl
  engine := rfl
  engine' := rfl
  tree := rfl
  scopes := rfl
  sources := by
    refine ⟨rfl, fun id => ?_, rfl, rfl⟩
    show Option.Rel (RowSource.Alike .equality) (s.sources.get? id) (s.sources.get? id)
    cases s.sources.get? id with
    | none => exact .none
    | some e => exact .some ⟨rfl, rfl, rfl, rfl⟩
  types id := by
    show Option.Rel Eq (s.types.get? id) (s.types.get? id)
    cases s.types.get? id with
    | none => exact .none
    | some type => exact .some rfl
  selfReferences := rfl
  requests := ⟨rfl, rfl⟩

/-- Types are recorded alike, so a call looks the same. -/
theorem Session.Compares.looksLike {b t : Session} (h : s.Compares b.conversion t) (op : Operator)
    (operands : List NodeId) : CallFrame.LooksLike op ⟨s, operands⟩ ⟨t, operands⟩ := by
  have htypes : ∀ id, t.types.get? id = s.types.get? id := by
    intro id
    have htype : Option.Rel Eq (s.types.get? id) (t.types.get? id) := h.types id
    generalize s.types.get? id = type, t.types.get? id = type' at htype
    cases htype with
    | none => rfl
    | some heq => rw [heq]
  refine ⟨rfl, h.tree, fun index => ?_⟩
  unfold CallFrame.known?
  rw [funext htypes]

/-- A check that accepts a call while operands must not be converted accepts it when they may be, and
    leaves it alone in both cases. -/
theorem Session.checks_conversion (hoff : s.settings.coercion = false)
    (hfinite : s.operators.IsFinite) (depth : Nat) :
    (visitAt depth).ChecksFollow False s.conversion := by
  intro scope call name op operands all s₀ s₁ t₁ s₂ t₂ hop hadmits hpad h₁ hvisit h₂
  have hleaves : s₂.LeavesNodes s₁.tree :=
    visitOperands_leavesNodes (by rw [h₁.settings]; exact hoff) hvisit
  have hknows := CallFrame.knowsAll hpad (fun id => hleaves.2 id _) hvisit
  have hlooks := h₂.looksLike op all
  have hlength : ∀ positions omittable, op.signature = .families positions omittable →
      positions.length = all.length := fun _ _ hfamilies =>
    (length_eq_shownCount hadmits hfamilies).trans (length_padded hpad).symm
  have hrests : (CallFrame.view (visitAt depth) scope call op s₂.settings s₂.engine).Rests
      ⟨s₂, all⟩ := hknows.rests
  have hrules := hrests.rules_check hleaves.1 (hfinite name op hop) hlength
  by_cases haccepts : (CallFrame.view (visitAt depth) scope call op s₂.settings s₂.engine).Accepts
      (CallFrame.view (visitAt depth) scope call op s₂.settings s₂.engine).Reads op.signature.leaves
      ⟨s₂, all⟩
  · have hcoerces : s₂.settings.coercion = true → t₂.settings.coercion = true := fun hc =>
      absurd hc (by rw [hleaves.1]; exact Bool.false_ne_true)
    have hx : checkCall (visitAt depth) scope call op all s₂ = (.ok true, s₂) :=
      checkCall_of_check (hrules.1 haccepts)
    have hy : checkCall (visitAt depth) scope call op all t₂ = (.ok true, t₂) :=
      checkCall_of_check (hlooks.check_eq hknows (hfinite name op hop) hcoerces haccepts)
    exact .ok hx hy rfl h₂
  · obtain ⟨e, -, he⟩ := hrules.2 haccepts
    have hx : checkCall (visitAt depth) scope call op all s₂ = (.error e, s₂) := checkCall_of_check he
    exact .error hx nofun

/-- A query that is accepted while operands must not be converted is accepted when they may be, with the
    same row type. The engine is asked for nothing, and no node that was there is touched. -/
theorem Session.conversion_conservative {query : NodeId} {row : DataType}
    (hoff : s.settings.coercion = false) (hfinite : s.operators.IsFinite)
    (hok : Session.validateQuery query s = (.ok row, s')) :
    ∃ t, Session.validateQuery query s.allowingConversion = (.ok row, t) ∧
      t.requests = s.requests ∧ t.tree = s'.tree ∧
        ∀ id node, s.tree.node? id = some node → t.tree.node? id = some node := by
  have hfollows := visitAt_follows (fun depth _ => Session.checks_conversion hoff hfinite depth)
    s.maxDepth
  obtain ⟨row', t, hrun, hrow, h⟩ :=
    (hfollows.query ScopeTree.rootId query s.compares_allowingConversion).of_ok hok
  obtain rfl : row = row' := hrow
  have hleaves := (visitAt_leavesNodes s.tree s.maxDepth).query ScopeTree.rootId query s
    ⟨hoff, fun _ _ h => h⟩
  have hend : (visitAt s.maxDepth).query ScopeTree.rootId query s = (.ok row, s') := hok
  rw [hend] at hleaves
  refine ⟨t, hrun, h.requests.2, h.tree, fun id node hid => ?_⟩
  rw [h.tree]
  exact hleaves.2 id node hid

/-- `SELECT UPPER(IF(TRUE, 'a', NULL))`, where NULL could be converted to any type. -/
theorem Session.conversion_conservative_if :
    let s : Session := { settings := { coercion := false }, tree := ((((((({} : Tree).push
      (.literal (.boolean true))).push (.literal (.string "a"))).push (.literal .null)).push
        (.call "IF" [⟨0⟩, ⟨1⟩, ⟨2⟩])).push (.call "UPPER" [⟨3⟩])).push
      (.select { items := [.expression ⟨4⟩ none], sources := [], condition := none })) }
    ∃ t, Session.validateQuery ⟨5⟩ s.allowingConversion =
        (.ok (.row [("EXPR$0", { name := .char, nullable := true, precision := some 1 })]), t) ∧
      t.requests = [] ∧ t.tree.node? ⟨3⟩ = some (.call "IF" [⟨0⟩, ⟨1⟩, ⟨2⟩]) := by
  intro s
  have hrow : (Session.validateQuery ⟨5⟩ s).1 =
      .ok (.row [("EXPR$0", { name := .char, nullable := true, precision := some 1 })]) := by
    decide +kernel
  cases hok : Session.validateQuery ⟨5⟩ s with
  | mk r s' =>
    rw [hok] at hrow
    cases hrow
    obtain ⟨t, hrun, hrequests, -, hnodes⟩ :=
      Session.conversion_conservative rfl OperatorTable.isFinite_standard hok
    exact ⟨t, hrun, hrequests, hnodes ⟨3⟩ _ rfl⟩

end SqlTyping
