import SqlTyping.Proofs.Session.Casting

namespace SqlTyping

/-!
# Validation on a host

A host may keep a record of a validation, but it does not change it:

* `LawfulHost` — whatever a host does, it takes each step on its session;
* `Host.Of` — a host of a given session;
* `Visit.On.Hosts` — on a host the parts below a node are validated as on its session;
* `Host.mirrors_queryStep`, `Host.mirrors_expressionStep` — then so is the node;
* `Host.visitOn_hosts` — so is everything, to any depth.
-/

/-- A host takes each step on its session, whatever else it does. -/
class LawfulHost (σ : Type) [Host σ] : Prop where
  lift_eq : ∀ {α : Type} (x : Validation α) (g : σ),
    x (Host.session g) = ((Host.lift x g).1, Host.session (Host.lift x g).2)
  noting_eq : ∀ {α : Type} (moment : Moment) (x : Validation α) (g : σ),
    x (Host.session g) = ((Host.noting moment x g).1, Host.session (Host.noting moment x g).2)

instance : LawfulHost Session := ⟨fun _ _ => rfl, fun _ _ _ => rfl⟩

/-- A host of a session. -/
def Host.Of {σ : Type} [Host σ] (s : Session) (g : σ) : Prop := session g = s

/-- On a host the parts below a node are validated as on its session. -/
structure Visit.On.Hosts {σ : Type} [Host σ] (v : Visit.On σ) (v' : Visit) : Prop where
  query : ∀ scope id, Checking.Mirrors Host.Of (v'.query scope id) (v.query scope id)
  expression : ∀ scope id, Checking.Mirrors Host.Of (v'.expression scope id) (v.expression scope id)

namespace Host

open Checking

variable {σ : Type} [Host σ] [LawfulHost σ]

omit [LawfulHost σ] in
/-- A step that is taken on the session of a host. -/
theorem mirrors_of_eq {α : Type} {x : Validation α} {y : Checking σ α}
    (h : ∀ g, x (session g) = ((y g).1, session (y g).2)) : Mirrors Of x y := by
  rintro _ g rfl
  have hx := h g
  cases hy : y g with
  | mk r g' =>
    rw [hy] at hx
    cases r with
    | ok a => exact .ok hx hy rfl rfl
    | error e => exact .stop hx hy rfl

theorem mirrors_lift {α : Type} (x : Validation α) : Mirrors (Of (σ := σ)) x (lift x) :=
  mirrors_of_eq (LawfulHost.lift_eq x)

theorem mirrors_noting {α : Type} (moment : Moment) (x : Validation α) :
    Mirrors (Of (σ := σ)) x (noting moment x) :=
  mirrors_of_eq (LawfulHost.noting_eq moment x)

theorem session_change (f : Session → Session) (g : σ) : session (change f g) = f (session g) :=
  (congrArg Prod.snd (LawfulHost.lift_eq (Checking.update f) g)).symm

omit [LawfulHost σ] in
theorem mirrors_forM {α : Type} {f : α → Validation Unit} {g : α → Checking σ Unit}
    (hfg : ∀ a, Mirrors Of (f a) (g a)) (l : List α) : Mirrors Of (l.forM f) (l.forM g) := by
  induction l with
  | nil => exact mirrors_pure _
  | cons a rest ih => exact (hfg a).bind fun _ => ih

omit [LawfulHost σ] in
theorem mirrors_ofExcept {α : Type} (r : Except Fault α) :
    Mirrors (Of (σ := σ)) (ofExcept r) (ofExcept r) := fun _ _ hg => .ofExcept_eq hg r

variable {v : Visit.On σ} {v' : Visit} (h : v.Hosts v')

include h

/-! ### Queries -/

theorem mirrors_bindSource (parent scope : ScopeId) (block entry : NodeId) :
    Mirrors Of (bindSource v' parent scope block entry) (bindSource v parent scope block entry) := by
  refine (mirrors_lift _).bind fun node => ?_
  cases node with
  | tableRef name label => exact mirrors_noting _ _
  | subqueryRef query label => exact (h.query parent query).bind fun row => mirrors_lift _
  | _ => exact mirrors_fail _

theorem mirrors_itemColumns (scope : ScopeId) (columns : Columns) (place : Nat) (item : SelectItem) :
    Mirrors Of (itemColumns v' scope columns place item) (itemColumns v scope columns place item) := by
  cases item with
  | star => exact (mirrors_noting _ _).bind fun s => mirrors_pure _
  | expression id label =>
    exact (h.expression scope id).bind fun type => (mirrors_lift _).bind fun node => mirrors_pure _

theorem mirrors_selectColumns (scope : ScopeId) (columns : Columns) (place : Nat)
    (items : List SelectItem) :
    Mirrors Of (selectColumns v' scope columns place items) (selectColumns v scope columns place items) := by
  induction items generalizing columns place with
  | nil => exact mirrors_pure _
  | cons item rest ih =>
    exact (mirrors_itemColumns h scope columns place item).bind fun columns => ih columns (place + 1)

theorem mirrors_selectRow (parent : ScopeId) (id : NodeId) (block : SelectBlock) :
    Mirrors Of (selectRow v' parent id block) (selectRow v parent id block) := by
  refine (mirrors_lift _).bind fun scope => ?_
  refine (mirrors_forM (mirrors_bindSource h parent scope id) block.sources).bind fun _ => ?_
  have hcolumns := (mirrors_selectColumns h scope [] 0 block.items).bind fun columns =>
    mirrors_pure (M := Of) (DataType.row columns)
  unfold selectTail
  cases block.condition with
  | none => exact hcolumns
  | some condition => exact (h.expression scope condition).bind fun _ => hcolumns

theorem mirrors_recursiveRow (parent : ScopeId) (id : NodeId) (name : String) (item : WithItem) :
    Mirrors Of (recursiveRow v' parent id name item) (recursiveRow v parent id name item) := by
  refine (mirrors_lift _).bind fun node => ?_
  cases node with
  | setOperation operation =>
    refine (mirrors_lift _).bind fun view => (h.query parent operation.left).bind fun anchor => ?_
    refine (mirrors_ofExcept _).bind fun row => (mirrors_lift _).bind fun _ => ?_
    exact (mirrors_lift _).bind fun scope => h.query scope item.query
  | _ => exact mirrors_fail _

theorem mirrors_bindWithItem (parent : ScopeId) (id : NodeId) :
    Mirrors Of (bindWithItem v' parent id) (bindWithItem v parent id) := by
  refine (mirrors_lift _).bind fun node => ?_
  cases node with
  | withItem item =>
    refine (mirrors_lift _).bind fun source => ?_
    have hshow := fun body => mirrors_lift (σ := σ) (showItem parent id item source body)
    exact .ite ((mirrors_recursiveRow h parent id _ item).bind hshow)
      ((h.query parent item.query).bind hshow)
  | _ => exact mirrors_fail _

theorem mirrors_withRow (scope : ScopeId) (body : NodeId) (items : List NodeId) :
    Mirrors Of (withRow v' scope body items) (withRow v scope body items) := by
  induction items generalizing scope with
  | nil => exact h.query scope body
  | cons item rest ih => exact (mirrors_bindWithItem h scope item).bind fun scope => ih scope

/-- A query has the same row type, and it is recorded in the same session. -/
theorem mirrors_queryStep (scope : ScopeId) (id : NodeId) :
    Mirrors Of (queryStep v' scope id) (queryStep v scope id) := by
  refine (mirrors_lift _).bind fun node => Mirrors.bind ?_ fun row => ?_
  · cases node with
    | select block => exact mirrors_selectRow h scope id block
    | setOperation operation =>
      exact (h.query scope operation.left).bind fun left =>
        (h.query scope operation.right).bind fun right => mirrors_ofExcept _
    | withQuery items body => exact mirrors_withRow h scope body items
    | _ => exact mirrors_fail _
  · exact (mirrors_noting _ _).bind fun _ => mirrors_pure row

/-! ### Calls -/

omit [LawfulHost σ] in
theorem mirrors_recorded (scope : ScopeId) (id : NodeId) :
    Mirrors Of (v'.recorded scope id) (v.recorded scope id) := by
  rintro _ g rfl
  refine .state_bind ?_
  rw [session_self]
  cases (session g).types.get? id with
  | some type => exact .pure rfl rfl
  | none => exact h.expression scope id (session g) g rfl

omit [LawfulHost σ] in
theorem mirrors_visitOperands (scope : ScopeId) (signature : Signature) (index : Nat)
    (operands : List NodeId) :
    Mirrors Of (visitOperands v' scope signature index operands)
      (visitOperands v scope signature index operands) := by
  induction operands generalizing index with
  | nil => exact mirrors_pure _
  | cons operand rest ih =>
    unfold visitOperands
    exact Mirrors.ite ((h.expression scope operand).bind fun _ => ih (index + 1)) (ih (index + 1))

omit [LawfulHost σ] in
theorem mirrors_operandTypes (scope : ScopeId) (signature : Signature) (index : Nat)
    (operands : List NodeId) :
    Mirrors Of (operandTypes v' scope signature index operands)
      (operandTypes v scope signature index operands) := by
  induction operands generalizing index with
  | nil => exact mirrors_pure _
  | cons operand rest ih =>
    have hrest := fun type : DataType => (ih (index + 1)).bind fun types =>
      mirrors_pure (M := Of) (type :: types)
    unfold operandTypes
    exact Mirrors.ite ((mirrors_pure _).bind hrest) ((mirrors_recorded h scope operand).bind hrest)

omit h [LawfulHost σ] in
/-- The frame of a call on a host, as a frame on its session. -/
abbrev frame (g : CallFrame.On σ) : CallFrame := ⟨session g.session, g.operands⟩

omit h [LawfulHost σ] in
def OfFrame (f : CallFrame) (g : CallFrame.On σ) : Prop := frame g = f

omit h [LawfulHost σ] in
theorem mirrors_onSession {α : Type} {x : Validation α} {y : Checking σ α} (hxy : Mirrors Of x y) :
    Mirrors OfFrame (CallFrame.onSession x) (CallFrame.onSession y) := by
  rintro _ g rfl
  exact Follows.focus (N := OfFrame) (s := ⟨session g.session, g.operands⟩)
    (hxy (session g.session) g.session rfl) fun s g' hg => congrArg (CallFrame.On.mk · g.operands) hg

omit [LawfulHost σ] in
theorem mirrors_typeOf (scope : ScopeId) (op : Operator) (index : Nat) :
    Mirrors OfFrame (CallFrame.typeOf v' scope op index) (CallFrame.typeOf v scope op index) := by
  rintro _ g rfl
  refine .state_bind ?_
  cases g.operands[index]? with
  | none => exact .fail rfl
  | some operand =>
    exact Mirrors.ite (mirrors_pure _) (mirrors_onSession (mirrors_recorded h scope operand)) _ g rfl

theorem mirrors_castTo (scope : ScopeId) (call : NodeId) (index : Nat) (target : DataType) :
    Mirrors OfFrame (CallFrame.castTo v' scope call index target)
      (CallFrame.castTo v scope call index target) := by
  rintro _ g rfl
  refine .state_bind (Mirrors.ite (mirrors_pure false) ?_ _ g rfl)
  cases g.operands[index]? with
  | none => exact mirrors_pure false
  | some operand =>
    refine (mirrors_onSession (mirrors_lift _)).bind fun inserted => Mirrors.ite ?_ (mirrors_pure false)
    have hset : Mirrors OfFrame
        (update fun f => { f with operands := f.operands.set index (session g.session).tree.nextId })
        (update fun g' : CallFrame.On σ =>
          { g' with operands := g'.operands.set index (session g.session).tree.nextId }) := by
      rintro _ g' rfl
      exact .update rfl
    exact hset.bind fun _ => (mirrors_onSession (h.expression scope _)).bind fun _ => mirrors_pure true

theorem mirrors_checkCall (scope : ScopeId) (call : NodeId) (op : Operator) (operands : List NodeId) :
    Mirrors Of (checkCall v' scope call op operands) (checkCall v scope call op operands) := by
  rintro _ g rfl
  have halike : (CallFrame.view v' scope call op (session g).settings (session g).engine).Alike .equality
      OfFrame (CallFrame.view v scope call op (session g).settings (session g).engine) := {
    operator := rfl
    coerces := rfl
    engine := rfl
    count := by
      rintro _ g rfl
      rfl
    isNull := by
      rintro _ g index rfl
      rfl
    isDefault := by
      rintro _ g index rfl
      rfl
    typeOf := mirrors_typeOf h scope op
    note := by
      rintro _ f request request' hrequest rfl
      rw [hrequest.eq]
      exact congrArg (CallFrame.On.mk · f.operands) (session_change _ _) }
  have hview := CallView.Mirrors.of_castTo halike (CoercionEngine.respects_equality _)
    fun index target target' htarget => by
      obtain rfl : target = target' := htarget
      exact mirrors_castTo h scope call index target
  have hend := hview.check op.signature (fun _ _ _ _ _ _ _ => trivial) ⟨session g, operands⟩
    ⟨g, operands⟩ rfl
  exact hend.within rfl rfl fun _ _ hg => congrArg CallFrame.On.session hg

theorem mirrors_callType (scope : ScopeId) (call : NodeId) (name : String) (operands : List NodeId) :
    Mirrors Of (callType v' scope call name operands) (callType v scope call name operands) := by
  rintro _ g rfl
  refine .state_bind ?_
  rw [session_self]
  cases (session g).operators.lookup? name with
  | none => exact .fail rfl
  | some op =>
    refine Mirrors.ite (mirrors_fail _) ?_ _ g rfl
    refine (mirrors_lift _).bind fun all => ?_
    refine (mirrors_visitOperands h scope op.signature 0 operands).bind fun _ => ?_
    refine (mirrors_checkCall h scope call op all).bind fun _ => ?_
    rintro _ g rfl
    refine .state_bind ?_
    exact (mirrors_operandTypes h scope op.signature 0 _).bind (fun types => mirrors_ofExcept _) _ g rfl

/-! ### Expressions -/

/-- An expression has the same type, and it is recorded in the same session. -/
theorem mirrors_expressionStep (scope : ScopeId) (id : NodeId) :
    Mirrors Of (expressionStep v' scope id) (expressionStep v scope id) := by
  rintro _ g rfl
  refine .state_bind ?_
  have htype : ∀ core node, Mirrors Of (expressionType v' scope core node)
      (expressionType v scope core node) := by
    intro core node
    cases node with
    | call name operands => exact mirrors_callType h scope core name operands
    | cursor query => exact (h.query scope query).bind fun _ => mirrors_pure _
    | identifier names => exact mirrors_noting _ _
    | literal value => exact mirrors_pure _
    | default => exact mirrors_pure _
    | _ => exact mirrors_fail _
  exact ((mirrors_lift _).bind fun node => (htype _ node).bind fun type =>
    (mirrors_lift _).bind fun _ => mirrors_lift _) (session g) g rfl

omit h

/-- On a host everything is validated as on its session. -/
theorem visitOn_hosts (depth : Nat) : (visitOn σ depth).Hosts (visitAt depth) := by
  induction depth with
  | zero => exact ⟨fun _ _ => mirrors_fail _, fun _ _ => mirrors_fail _⟩
  | succ depth ih => exact ⟨mirrors_queryStep ih, mirrors_expressionStep ih⟩

end Host

end SqlTyping
