import SqlTyping.Proofs.Keeping
import SqlTyping.Proofs.Scope.Referents
import SqlTyping.Session.Typing

namespace SqlTyping

/-!
# Invariants of a validation

Validation changes a session in few ways: it records types, adds scopes and binds names in the ones
it has added, registers row sources, and, in calls, adds nodes and points operands at them. An
invariant that survives each of these survives every validation, whatever its outcome.

* `Session.Invariant` — the invariant survives the changes outside calls;
* `Visit.Keeps` — the parts below a node are validated so that it survives;
* `visitAt_keeps` — an invariant that also survives the validation of a call, given that it survives
  the validation of parts, survives validation to any depth.

Invariants come in families, so that one for the whole run and one for the time since a call was
entered can be carried together.
-/

/-- The invariant `P` survives what validation changes outside calls. Names are bound in scopes from
    `base` on only, which are those that were added since; and row types are set for sources only that
    have been opened since `P` has come to hold. -/
structure Session.Invariant (base : Nat) (P : Session → Prop) : Prop where
  base_le : ∀ {s}, P s → base ≤ s.scopes.size
  record : ∀ {s} (id : NodeId) (type : DataType), P s → P { s with types := s.types.put id type }
  newScope : ∀ {s parent role node id scopes}, P s →
    s.scopes.newScope parent role node = .ok (id, scopes) → P { s with scopes }
  addBinding : ∀ {s scope binding scopes}, P s → base ≤ scope.index →
    s.scopes.addBinding scope binding = .ok scopes → P { s with scopes }
  register : ∀ {s} (node : NodeId) (kind : SourceKind) (enclosing : Option NodeId), P s →
    P { s with sources := (s.sources.register node kind enclosing).2 }
  selfView : ∀ {s item id sources}, P s → s.sources.selfView item = .ok (id, sources) →
    P { s with sources }
  setRow : ∀ {s id row sources}, P s → (∃ u, P u ∧ u.sources.OpenSince s.sources id) →
    s.sources.setRow id row = .ok sources → P { s with sources }
  selfReference : ∀ {s} (reference : NodeId × SourceId), P s →
    P { s with selfReferences := s.selfReferences ++ [reference] }

/-- An invariant on the tree and the settings alone survives everything outside calls. -/
theorem Session.Invariant.ofTree {P : Session → Prop}
    (h : ∀ s s' : Session, s'.tree = s.tree → s'.settings = s.settings → P s → P s') :
    Session.Invariant 0 P where
  base_le _ := Nat.zero_le _
  record _ _ := h _ _ rfl rfl
  newScope {s} _ _ _ _ _ hs _ := h s _ rfl rfl hs
  addBinding {s} _ _ _ hs _ _ := h s _ rfl rfl hs
  register _ _ _ := h _ _ rfl rfl
  selfView {s} _ _ _ hs _ := h s _ rfl rfl hs
  setRow {s} _ _ _ hs _ _ := h s _ rfl rfl hs
  selfReference _ := h _ _ rfl rfl

/-- The parts below a node are validated so that the invariant survives. -/
structure Visit.Keeps (P : Session → Prop) (v : Visit) : Prop where
  query : ∀ scope id, (v.query scope id).Keeps P
  expression : ∀ scope id, (v.expression scope id).Keeps P

/-- The parts below a node are validated so that row sources are only added and given row types. -/
def Visit.Grows (v : Visit) : Prop := ∀ sources : RowSources, v.Keeps fun s => sources.Grows s.sources

open Checking

/-! ### Elementary changes that succeed -/

namespace Validation

variable {s s' : Session}

theorem onScopes_eq_ok {α : Type} {change : ScopeTree → Except Fault (α × ScopeTree)} {x : α}
    (h : onScopes change s = (.ok x, s')) :
    ∃ scopes, change s.scopes = .ok (x, scopes) ∧ s' = { s with scopes } := by
  unfold onScopes at h
  split at h
  · rename_i hchange
    cases h
    exact ⟨_, hchange, rfl⟩
  · cases h

theorem bindName_eq_ok {scope : ScopeId} {name : String} {source : SourceId} {x : Unit}
    (h : bindName scope name source s = (.ok x, s')) :
    ∃ scopes, s.scopes.addBinding scope { names := [name], source, nullable := false } = .ok scopes ∧
      s' = { s with scopes } := by
  obtain ⟨scopes, hadd, rfl⟩ := onScopes_eq_ok h
  cases hb : s.scopes.addBinding scope { names := [name], source, nullable := false } with
  | error e =>
    simp only [hb] at hadd
    cases hadd
  | ok bound =>
    simp only [hb] at hadd
    cases hadd
    exact ⟨_, rfl, rfl⟩

theorem bindName_of_addBinding {scope : ScopeId} {name : String} {source : SourceId}
    {scopes : ScopeTree}
    (h : s.scopes.addBinding scope { names := [name], source, nullable := false } = .ok scopes) :
    bindName scope name source s = (.ok (), { s with scopes }) := by
  unfold bindName onScopes
  simp only [h]
  rfl

/-- What is asked of the row sources, put back into the session. -/
theorem selfView_apply (item : NodeId) (s : Session) :
    selfView item s = match s.sources.selfView item with
      | .ok (id, sources) => (.ok id, { s with sources })
      | .error e => (.error e, s) := rfl

theorem setRow_apply (id : SourceId) (row : DataType) (s : Session) :
    setRow id row s = match s.sources.setRow id row with
      | .ok sources => (.ok (), { s with sources })
      | .error e => (.error e, s) := rfl

theorem selfView_eq_ok {item : NodeId} {id : SourceId} (h : selfView item s = (.ok id, s')) :
    ∃ sources, s.sources.selfView item = .ok (id, sources) ∧ s' = { s with sources } := by
  unfold selfView at h
  split at h
  · rename_i hview
    cases h
    exact ⟨_, hview, rfl⟩
  · cases h

theorem setRow_eq_ok {id : SourceId} {row : DataType} {x : Unit} (h : setRow id row s = (.ok x, s')) :
    ∃ sources, s.sources.setRow id row = .ok sources ∧ s' = { s with sources } := by
  unfold setRow at h
  split at h
  · rename_i hset
    cases h
    exact ⟨_, hset, rfl⟩
  · cases h

end Validation

/-- The last part of binding a table: its row type is recorded, and its name bound. -/
def exposeTable (scope : ScopeId) (entry : NodeId) (name : List String) (label : Option String)
    (row : Option DataType) (source : SourceId) : Validation Unit :=
  match exposedName? name label with
  | none => Checking.fail (.internal s!"table reference {entry.text} has no name")
  | some exposed => do
    match row with
    | some row => Validation.record entry row
    | none => pure ()
    Validation.bindName scope exposed source

/-- Before that the table is looked up, and references to an item from inside itself are noted. -/
theorem bindTable_eq (parent scope : ScopeId) (entry : NodeId) (name : List String)
    (label : Option String) : bindTable parent scope entry name label = (do
      let s ← Checking.state
      let found ← Checking.ofExcept (s.scopes.requireTable parent name s.settings.matching s.sources)
      if !found.remaining.isEmpty then
        Checking.fail (.objectNotFound (qualifiedName name))
      else if (s.sources.get? found.source).any RowSource.isSelfReference then do
        Checking.update fun s =>
          { s with selfReferences := s.selfReferences ++ [(entry, found.source)] }
        exposeTable scope entry name label (s.sources.row? found.source) found.source
      else exposeTable scope entry name label (s.sources.row? found.source) found.source) := rfl

/-- A SELECT is validated by its FROM list, and then by the rest. -/
theorem selectRow_eq (v : Visit) (parent : ScopeId) (id : NodeId) (block : SelectBlock) :
    selectRow v parent id block = Validation.onScopes (·.newBlock parent (some id)) >>= fun scope =>
      block.sources.forM (bindSource v parent scope id) >>= fun _ => selectTail v scope block :=
  rfl

section

variable {base : Nat} {P : Session → Prop} {v : Visit}

/-! ### Elementary changes -/

theorem keeps_node (id : NodeId) : (Validation.node id).Keeps P := by
  intro s hs
  unfold Validation.node
  split
  · exact hs
  · exact hs

theorem node_of_some {id : NodeId} {s : Session} {n : Node} (h : s.tree.node? id = some n) :
    Validation.node id s = (.ok n, s) := by
  unfold Validation.node
  rw [h]

theorem node_of_none {id : NodeId} {s : Session} (h : s.tree.node? id = none) :
    Validation.node id s = (.error (.internal s!"unknown node {id.text}"), s) := by
  unfold Validation.node
  rw [h]

/-- The node that was read is the one in the tree. -/
theorem node_eq_ok {id : NodeId} {s s' : Session} {n : Node}
    (h : Validation.node id s = (.ok n, s')) : s' = s ∧ s.tree.node? id = some n := by
  unfold Validation.node at h
  split at h
  · rename_i found hfound
    cases h
    exact ⟨rfl, hfound⟩
  · cases h

/-- The answer to a query does not depend on what is recorded for it. -/
theorem answer_queryStep {scope : ScopeId} {id : NodeId} {s : Session} {n : Node}
    (hn : s.tree.node? id = some n) :
    (queryStep v scope id s).1 = (queryRow v scope id n s).1 := by
  unfold queryStep
  rw [Host.lift_self, bind_of_ok (node_of_some hn), bind_apply]
  cases queryRow v scope id n s with
  | mk answer s' => cases answer <;> rfl

/-- A recorded type is looked up without a visit. -/
theorem keeps_recorded {scope : ScopeId} {id : NodeId} (hv : (v.expression scope id).Keeps P) :
    (v.recorded scope id).Keeps P := by
  refine keeps_state.bind fun s => ?_
  split
  · exact keeps_pure _
  · exact hv

/-- A type that is recorded is found without a change. -/
theorem recorded_of_some {scope : ScopeId} {id : NodeId} {s : Session} {type : DataType}
    (h : s.types.get? id = some type) : v.recorded scope id s = (.ok type, s) := by
  unfold Visit.On.recorded
  rw [bind_of_ok (state_apply s), Host.session_self]
  simp only [h]
  rfl

theorem recorded_of_none {scope : ScopeId} {id : NodeId} {s : Session} (h : s.types.get? id = none) :
    v.recorded scope id s = v.expression scope id s := by
  unfold Visit.On.recorded
  rw [bind_of_ok (state_apply s), Host.session_self]
  simp only [h]

/-- There is no type where there is no operand. -/
theorem CallFrame.typeOf_of_none {scope : ScopeId} {op : Operator} {index : Nat} {f : CallFrame}
    (ho : f.operands[index]? = none) : CallFrame.typeOf v scope op index f =
      (.error (.internal s!"{op.name} has no operand {index}"), f) := by
  unfold CallFrame.typeOf
  rw [bind_of_ok (state_apply f)]
  simp only [ho]
  rfl

/-- A keyword has no other type. -/
theorem CallFrame.typeOf_of_keyword {scope : ScopeId} {op : Operator} {index : Nat} {f : CallFrame}
    {operand : NodeId} (hkey : op.signature.isKeyword index = true)
    (ho : f.operands[index]? = some operand) :
    CallFrame.typeOf v scope op index f = (.ok .symbol, f) := by
  unfold CallFrame.typeOf
  rw [bind_of_ok (state_apply f)]
  simp only [ho, hkey, if_true]
  rfl

/-- The type of any other operand is that of its node. -/
theorem CallFrame.typeOf_of_operand {scope : ScopeId} {op : Operator} {index : Nat} {f : CallFrame}
    {operand : NodeId} (hkey : op.signature.isKeyword index = false)
    (ho : f.operands[index]? = some operand) :
    CallFrame.typeOf v scope op index f = CallFrame.onSession (v.recorded scope operand) f := by
  unfold CallFrame.typeOf
  rw [bind_of_ok (state_apply f)]
  simp only [ho, hkey, Bool.false_eq_true, if_false]

/-- If that is recorded, nothing changes. -/
theorem CallFrame.typeOf_of_recorded {scope : ScopeId} {op : Operator} {index : Nat}
    {f : CallFrame} {operand : NodeId} {type : DataType}
    (hkey : op.signature.isKeyword index = false) (ho : f.operands[index]? = some operand)
    (h : f.session.types.get? operand = some type) :
    CallFrame.typeOf v scope op index f = (.ok type, f) := by
  rw [typeOf_of_operand hkey ho]
  unfold CallFrame.onSession Checking.focus
  rw [recorded_of_some h]

/-- What an operand is depends on the operands and the tree only. -/
theorem CallFrame.node?_congr {f g : CallFrame} (hoperands : g.operands = f.operands)
    (htree : g.session.tree = f.session.tree) (index : Nat) : g.node? index = f.node? index := by
  unfold CallFrame.On.node?
  rw [hoperands, Host.session_self, Host.session_self, htree]

theorem CallFrame.isDefault_congr {f g : CallFrame} (hoperands : g.operands = f.operands)
    (htree : g.session.tree = f.session.tree) (index : Nat) :
    g.isDefault index = f.isDefault index := by
  unfold CallFrame.On.isDefault
  rw [node?_congr hoperands htree]

theorem CallFrame.isNull_congr {f g : CallFrame} (hoperands : g.operands = f.operands)
    (htree : g.session.tree = f.session.tree) (index : Nat) : g.isNull index = f.isNull index := by
  unfold CallFrame.On.isNull
  rw [node?_congr hoperands htree]

/-- An operand is a placeholder when its node is one. -/
theorem CallFrame.isDefault_iff {f : CallFrame} {index : Nat} {operand : NodeId}
    (ho : f.operands[index]? = some operand) :
    f.isDefault index = true ↔ f.session.tree.node? operand = some .default := by
  unfold CallFrame.On.isDefault CallFrame.On.node?
  rw [ho, Option.bind_some, Host.session_self, Option.any_eq_true]
  simp only [Node.isDefault_iff, exists_eq_right]

/-- A check on the session of a frame that is only waited for. -/
theorem CallFrame.onSession_then_true (x : Validation DataType) (f : CallFrame) :
    (do
      let _ ← CallFrame.onSession x
      return true : Checking CallFrame Bool) f =
        match x f.session with
        | (.ok _, s) => (.ok true, { f with session := s })
        | (.error e, s) => (.error e, { f with session := s }) := by
  rw [bind_apply]
  unfold CallFrame.onSession focus
  cases x f.session with
  | mk r s =>
    cases r with
    | ok type => rfl
    | error e => rfl

/-- A cast of an operand that is there is added, and the call is pointed at it if it can be. -/
theorem CallFrame.castTo_of_operand {f : CallFrame} {index : Nat} {operand : NodeId}
    (hd : f.isDefault index = false) (ho : f.operands[index]? = some operand) (v : Visit)
    (scope : ScopeId) (call : NodeId) (target : DataType) :
    CallFrame.castTo v scope call index target f =
      match (f.session.tree.pushCast operand target.toTarget true).replaceOperand? call index
        f.session.tree.nextId with
      | none =>
        (.ok false, { f with
          session := { f.session with tree := f.session.tree.pushCast operand target.toTarget true } })
      | some tree =>
        match v.expression scope f.session.tree.nextId { f.session with tree } with
        | (.ok _, s) => (.ok true, ⟨s, f.operands.set index f.session.tree.nextId⟩)
        | (.error e, s) => (.error e, ⟨s, f.operands.set index f.session.tree.nextId⟩) := by
  have hne : ¬ f.isDefault index = true := by simp [hd]
  unfold CallFrame.castTo
  rw [bind_of_ok (state_apply f), if_neg hne, ho]
  cases ht : (f.session.tree.pushCast operand target.toTarget true).replaceOperand? call index
      f.session.tree.nextId with
  | none =>
    have hinsert : CallFrame.onSession (CallFrame.insertCast call index operand target) f =
        (.ok false, { f with session := { f.session with
          tree := f.session.tree.pushCast operand target.toTarget true } }) := by
      unfold CallFrame.onSession focus CallFrame.insertCast
      simp only [ht]
    exact bind_of_ok hinsert _
  | some tree =>
    have hinsert : CallFrame.onSession (CallFrame.insertCast call index operand target) f =
        (.ok true, { f with session := { f.session with tree } }) := by
      unfold CallFrame.onSession focus CallFrame.insertCast
      simp only [ht]
    refine (bind_of_ok hinsert _).trans ?_
    exact CallFrame.onSession_then_true (v.expression scope f.session.tree.nextId)
      ⟨{ f.session with tree }, f.operands.set index f.session.tree.nextId⟩

/-- A placeholder is not cast. -/
theorem CallFrame.castTo_of_isDefault {f : CallFrame} {index : Nat} (hd : f.isDefault index = true)
    (v : Visit) (scope : ScopeId) (call : NodeId) (target : DataType) :
    CallFrame.castTo v scope call index target f = (.ok false, f) := by
  unfold CallFrame.castTo
  rw [bind_of_ok (state_apply f), if_pos hd]
  rfl

/-- Nothing is cast where there is no operand. -/
theorem CallFrame.castTo_of_none {f : CallFrame} {index : Nat} (ho : f.operands[index]? = none)
    (v : Visit) (scope : ScopeId) (call : NodeId) (target : DataType) :
    CallFrame.castTo v scope call index target f = (.ok false, f) := by
  unfold CallFrame.castTo
  rw [bind_of_ok (state_apply f), ho]
  exact congrFun (ite_self (pure false)) f

/-! ### Types that are recorded -/

theorem keeps_recordCasts (hrecord : ∀ id type, (Validation.record id type).Keeps P)
    (type : DataType) (casts : List (NodeId × CastTarget)) : (recordCasts type casts).Keeps P := by
  induction casts with
  | nil => exact keeps_pure _
  | cons cast rest ih =>
    exact ih.bind fun operand => (hrecord _ _).bind fun _ => keeps_pure _

/-- A placeholder gets a type, and nothing else happens. -/
theorem expressionStep_placeholder {scope : ScopeId} {id : NodeId} {s : Session}
    (hn : s.tree.node? id = some .default) :
    expressionStep v scope id s = (.ok .any, { s with types := s.types.put id .any }) := by
  have hpeel : s.tree.peelCasts s.tree.size id = ([], id) :=
    Tree.peelCasts_of_not_cast (fun operand target implicit hc => by cases hn.symm.trans hc) _
  unfold expressionStep
  rw [bind_of_ok (state_apply s)]
  simp only [Host.session_self, Host.lift_self, hpeel]
  rw [bind_of_ok (node_of_some hn)]
  rfl

/-! ### Parts of a call -/

theorem keeps_visitOperands {scope : ScopeId} (signature : Signature) (index : Nat)
    {operands : List NodeId} (hv : ∀ operand ∈ operands, (v.expression scope operand).Keeps P) :
    (visitOperands v scope signature index operands).Keeps P := by
  induction operands generalizing index with
  | nil => exact keeps_pure _
  | cons operand rest ih =>
    have hfirst := hv operand (List.mem_cons_self ..)
    have hrest := ih (index + 1) fun o ho => hv o (List.mem_cons_of_mem _ ho)
    unfold visitOperands
    exact Keeps.ite (fun _ => hfirst.bind fun _ => hrest) fun _ => hrest

theorem keeps_operandTypes {scope : ScopeId} (signature : Signature) (index : Nat)
    {operands : List NodeId} (hv : ∀ operand ∈ operands, (v.expression scope operand).Keeps P) :
    (operandTypes v scope signature index operands).Keeps P := by
  induction operands generalizing index with
  | nil => exact keeps_pure _
  | cons operand rest ih =>
    have hfirst := hv operand (List.mem_cons_self ..)
    have hrest := fun type : DataType =>
      (ih (index + 1) fun o ho => hv o (List.mem_cons_of_mem _ ho)).bind fun types =>
        keeps_pure (P := P) (type :: types)
    refine Keeps.ite (fun _ => ?_) fun _ => (keeps_recorded hfirst).bind hrest
    exact (keeps_pure _).bind hrest

/-- The types of operands that are recorded are read without a change, in order. -/
theorem operandTypes_of_recorded {scope : ScopeId} {signature : Signature} {s : Session}
    {operands : List NodeId} (type : NodeId → DataType) (index : Nat)
    (h : ∀ k operand, operands[k]? = some operand → signature.isKeyword (index + k) = false →
      s.types.get? operand = some (type operand)) :
    operandTypes v scope signature index operands s =
      (.ok ((operands.zipIdx index).map fun p =>
        if signature.isKeyword p.2 then .symbol else type p.1), s) := by
  induction operands generalizing index with
  | nil => rfl
  | cons operand rest ih =>
    have hrest := ih (index + 1) fun k o ho hkey => h (k + 1) o ho (by
      rwa [show index + (k + 1) = index + 1 + k by omega])
    unfold operandTypes
    by_cases hkey : signature.isKeyword index = true
    · rw [if_pos hkey]
      refine (bind_of_ok (pure_apply _ s) _).trans ((bind_of_ok hrest _).trans ?_)
      simp [hkey]
    · have htype := h 0 operand rfl (by simpa using hkey)
      rw [if_neg hkey]
      refine (bind_of_ok (recorded_of_some htype) _).trans ((bind_of_ok hrest _).trans ?_)
      simp [hkey]

/-- The answer of the operator's check is that of its signature. -/
theorem checkCall_of_check {scope : ScopeId} {call : NodeId} {op : Operator} {operands : List NodeId}
    {s : Session} {answer : Except Fault Bool} {f : CallFrame}
    (h : op.signature.check (CallFrame.view v scope call op s.settings s.engine) ⟨s, operands⟩ =
      (answer, f)) :
    checkCall v scope call op operands s = (answer, f.session) := by
  unfold checkCall
  rw [Host.session_self, h]

/-- What the check of a call answers is what its signature has answered. -/
theorem fst_checkCall (v : Visit) (scope : ScopeId) (call : NodeId) (op : Operator)
    (operands : List NodeId) (s : Session) :
    (checkCall v scope call op operands s).1 =
      (op.signature.check (CallFrame.view v scope call op s.settings s.engine) ⟨s, operands⟩).1 := rfl

/-- The session after it is that of its frame. -/
theorem snd_checkCall (v : Visit) (scope : ScopeId) (call : NodeId) (op : Operator)
    (operands : List NodeId) (s : Session) :
    (checkCall v scope call op operands s).2 =
      (op.signature.check (CallFrame.view v scope call op s.settings s.engine)
        ⟨s, operands⟩).2.session := rfl

/-- Adding the placeholders for omitted operands never fails; all of them are one new node. -/
theorem padded_apply (signature : Signature) (operands : List NodeId) (s : Session) :
    padded signature operands s =
      if signature.shownCount operands.length - operands.length = 0 then (.ok operands, s)
      else
        (.ok (operands ++ List.replicate (signature.shownCount operands.length - operands.length)
          s.tree.nextId), { s with tree := s.tree.push .default }) := by
  unfold padded
  split
  · rfl
  · rfl

theorem exists_padded (signature : Signature) (operands : List NodeId) (s : Session) :
    ∃ all s', padded signature operands s = (.ok all, s') := by
  rw [padded_apply]
  split
  · exact ⟨_, _, rfl⟩
  · exact ⟨_, _, rfl⟩

/-- The written operands are among those with placeholders. -/
theorem mem_of_padded {signature : Signature} {operands all : List NodeId} {s s' : Session}
    (h : padded signature operands s = (.ok all, s')) {operand : NodeId} (ho : operand ∈ operands) :
    operand ∈ all := by
  rw [padded_apply] at h
  split at h
  · cases h
    exact ho
  · cases h
    exact List.mem_append_left _ ho

section

variable {scope : ScopeId} {call : NodeId} {name : String} {operands : List NodeId} {s : Session}

/-- A call of an operator that is not known is refused. -/
theorem callType_of_unknown (hop : s.operators.lookup? name = none) :
    callType v scope call name operands s = (.error (.unknownFunction name), s) := by
  unfold callType
  rw [bind_of_ok (state_apply s), Host.session_self, hop]
  rfl

/-- So is a call with a number of operands that is not admitted. -/
theorem callType_of_not_admits {op : Operator} (hop : s.operators.lookup? name = some op)
    (hadmits : op.arity.admits operands.length = false) :
    callType v scope call name operands s =
      (.error (.operandCount op.name op.arity.text operands.length), s) := by
  unfold callType
  rw [bind_of_ok (state_apply s), Host.session_self, hop]
  simp only [hadmits, Bool.not_false, if_true]
  rfl

/-- Any other call is validated once placeholders have been added. -/
theorem callType_of_padded {op : Operator} {all : List NodeId} {s₁ : Session}
    (hop : s.operators.lookup? name = some op) (hadmits : op.arity.admits operands.length = true)
    (hpad : padded op.signature operands s = (.ok all, s₁)) :
    callType v scope call name operands s = (do
      visitOperands v scope op.signature 0 operands
      let _ ← checkCall v scope call op all
      let current := ((← Checking.state).tree.operands? call).getD []
      let types ← operandTypes v scope op.signature 0 current
      Checking.ofExcept (op.returns.infer types) : Validation DataType) s₁ := by
  unfold callType
  rw [bind_of_ok (state_apply s), Host.session_self, hop]
  simp only [hadmits, Bool.not_true, Bool.false_eq_true, if_false]
  exact bind_of_ok hpad _

end

/-- A call keeps `P` when an invariant `Q` of its operands gives `P`, holds once placeholders for the
    omitted operands have been added, is kept by the operands and by the operator's check, and holds
    of the operands that are read again after the check. -/
theorem keeps_callType {Q : List NodeId → Session → Prop} {scope : ScopeId} {call : NodeId}
    {name : String} {operands : List NodeId} {s : Session} (hs : P s)
    (hpad : ∀ (op : Operator) all s', padded op.signature operands s = (.ok all, s') → Q all s')
    (hv : ∀ all, ∀ operand ∈ all, (v.expression scope operand).Keeps (Q all))
    (hcheck : ∀ op all, (checkCall v scope call op all).Keeps (Q all))
    (hread : ∀ all s', Q all s' → Q ((s'.tree.operands? call).getD []) s')
    (hQ : ∀ all s', Q all s' → P s') :
    P (callType v scope call name operands s).2 := by
  unfold callType
  rw [bind_of_ok (state_apply s), Host.session_self]
  cases s.operators.lookup? name with
  | none => exact hs
  | some op =>
    simp only [Host.lift_self]
    split
    · exact hs
    · obtain ⟨all, s', hr⟩ := exists_padded op.signature operands s
      rw [bind_of_ok hr]
      have hvisit : (visitOperands v scope op.signature 0 operands).Keeps (Q all) :=
        keeps_visitOperands op.signature 0 fun o ho => hv all o (mem_of_padded hr ho)
      -- The operands are read from the tree again, and the invariant is about those from here on.
      have hrest : (do
          let current := ((← Checking.state).tree.operands? call).getD []
          let types ← operandTypes v scope op.signature 0 current
          Checking.ofExcept (op.returns.infer types) : Validation DataType).Ends (Q all)
            (fun _ => P) P := by
        refine ends_of_forall fun s hs => ?_
        exact hQ _ _ (((keeps_operandTypes op.signature 0 (hv _)).bind fun types =>
          keeps_ofExcept (op.returns.infer types)) s (hread all s hs))
      have hall := (hvisit.ends (hQ all)).bind fun _ => ((hcheck op all).ends (hQ all)).bind
        fun _ => hrest
      exact hall.snd (hpad op all s' hr)

/-! ### Invariants that new nodes and casts keep -/

section

variable {P : Session → Prop}
  (hpush : ∀ s node span, P s → P { s with tree := s.tree.push node span })
  (hreplace : ∀ s call index cast tree, s.tree.replaceOperand? call index cast = some tree → P s →
    P { s with tree })
  (hrequests : ∀ s requests, P s → P { s with requests })

include hpush hreplace

theorem CallFrame.keeps_castTo_of_tree {v : Visit} {scope : ScopeId}
    (hv : ∀ id, (v.expression scope id).Keeps P) (call : NodeId) (index : Nat)
    (target : DataType) : (castTo v scope call index target).Keeps fun f => P f.session := by
  intro f hf
  cases ho : f.operands[index]? with
  | none =>
    rw [castTo_of_none ho]
    exact hf
  | some operand =>
  cases hd : f.isDefault index with
  | true =>
    rw [castTo_of_isDefault hd]
    exact hf
  | false =>
    have hgrown := hpush f.session (.cast operand target.toTarget true)
      ((f.session.tree.span? operand).getD .synthetic) hf
    rw [castTo_of_operand hd ho]
    split
    · exact hgrown
    · rename_i tree htree
      have hcast := hv f.session.tree.nextId { f.session with tree }
        (hreplace { f.session with tree := f.session.tree.pushCast operand target.toTarget true }
          _ _ _ _ htree hgrown)
      split
      · rename_i heq
        rw [heq] at hcast
        exact hcast
      · rename_i heq
        rw [heq] at hcast
        exact hcast

include hrequests

theorem keeps_checkCall_of_tree {v : Visit} {scope : ScopeId}
    (hv : ∀ id, (v.expression scope id).Keeps P) (call : NodeId) (op : Operator)
    (operands : List NodeId) : (checkCall v scope call op operands).Keeps P := by
  intro s hs
  have hview : (CallFrame.view v scope call op s.settings s.engine).Keeps
      (fun f => P f.session) fun _ => True := by
    refine CallView.Keeps.of_castTo (fun index => ?_)
      (fun _ => CallFrame.keeps_castTo_of_tree hpush hreplace hv call) fun _ _ hf => hrequests _ _ hf
    refine keeps_state.bind fun f => ?_
    split
    · exact keeps_fail _
    · exact Keeps.ite (fun _ => keeps_pure _) fun _ =>
        Keeps.focus fun f hf => keeps_recorded (hv _) f.session hf
  rw [snd_checkCall]
  exact hview.check op.signature (fun _ _ _ _ _ _ => trivial) ⟨s, operands⟩ hs

/-- The validation of a call keeps what new nodes, casts and the validation of its operands keep. -/
theorem keeps_callType_of_tree {v : Visit} {scope : ScopeId} (hv : ∀ id, (v.expression scope id).Keeps P)
    (call : NodeId) (name : String) (operands : List NodeId) :
    (callType v scope call name operands).Keeps P := by
  intro s hs
  refine keeps_callType (Q := fun _ => P) hs ?_ (fun _ operand _ => hv operand)
    (keeps_checkCall_of_tree hpush hreplace hrequests hv call) (fun _ _ h => h) fun _ _ h => h
  intro op all s' hpad
  rw [padded_apply] at hpad
  split at hpad
  · cases hpad
    exact hs
  · cases hpad
    exact hpush _ _ _ hs

end

/-- The validation of a call keeps what the validation of its operands keeps, when nodes do not
    matter. -/
theorem keeps_callType_apart {P : Session → Prop} (htree : ∀ s tree, P s → P { s with tree })
    (hrequests : ∀ s requests, P s → P { s with requests }) {v : Visit} {scope : ScopeId}
    (hv : ∀ id, (v.expression scope id).Keeps P) (call : NodeId) (name : String)
    (operands : List NodeId) : (callType v scope call name operands).Keeps P :=
  keeps_callType_of_tree (fun s _ _ => htree s _) (fun s _ _ _ tree _ => htree s tree) hrequests hv
    call name operands

namespace Session.Invariant

variable (h : Session.Invariant base P)

include h

theorem keeps_record (id : NodeId) (type : DataType) : (Validation.record id type).Keeps P :=
  keeps_update fun _ hs => h.record id type hs

theorem keeps_newScope (parent : ScopeId) (role : ScopeRole) (node : Option NodeId) :
    (Validation.onScopes (·.newScope parent role node)).Keeps P := by
  intro s hs
  simp only [Validation.onScopes]
  cases hn : s.scopes.newScope parent role node with
  | error e => exact hs
  | ok found => exact h.newScope hs hn

/-- A scope that has just been added lies behind the ones that were there. -/
theorem base_le_newBlock {parent scope : ScopeId} {node : Option NodeId} {s s' : Session}
    (hs : P s) (hn : Validation.onScopes (·.newBlock parent node) s = (.ok scope, s')) :
    base ≤ scope.index := by
  unfold Validation.onScopes ScopeTree.newBlock at hn
  cases hr : s.scopes.newScope parent .block node with
  | error e => simp [hr] at hn
  | ok found =>
    obtain ⟨id, scopes⟩ := found
    simp only [hr, Prod.mk.injEq, Except.ok.injEq] at hn
    obtain ⟨rfl, -⟩ := hn
    obtain ⟨rfl, -⟩ := ScopeTree.get?_newScope hr
    exact h.base_le hs

theorem keeps_bindName {scope : ScopeId} (hscope : base ≤ scope.index) (name : String)
    (source : SourceId) : (Validation.bindName scope name source).Keeps P := by
  intro s hs
  simp only [Validation.bindName, Validation.onScopes]
  cases hb : s.scopes.addBinding scope { names := [name], source, nullable := false } with
  | error e => exact hs
  | ok scopes => exact h.addBinding hs hscope hb

theorem keeps_register (node : NodeId) (kind : SourceKind) (enclosing : Option NodeId) :
    (Validation.register node kind enclosing).Keeps P :=
  fun _ hs => h.register node kind enclosing hs

theorem keeps_selfView (item : NodeId) : (Validation.selfView item).Keeps P := by
  intro s hs
  unfold Validation.selfView
  cases hv : s.sources.selfView item with
  | error e => exact hs
  | ok found => exact h.selfView hs hv

/-- The row type of a source that has been opened since is set. -/
theorem setRow_of_openSince {u s : Session} {id : SourceId} (hu : P u) (hs : P s)
    (hopen : u.sources.OpenSince s.sources id) (row : DataType) : P (Validation.setRow id row s).2 := by
  unfold Validation.setRow
  cases hr : s.sources.setRow id row with
  | error e => exact hs
  | ok sources => exact h.setRow hs ⟨u, hu, hopen⟩ hr

/-- So is that of a source that has been registered since. -/
theorem keeps_setRow {u : Session} {id : SourceId} (hu : P u) (hnew : u.sources.size ≤ id.index)
    (row : DataType) : (Validation.setRow id row).Keeps P :=
  fun _ hs => h.setRow_of_openSince hu hs (.inl hnew) row

/-! ### Queries -/

theorem keeps_exposeTable {scope : ScopeId} (hscope : base ≤ scope.index) (entry : NodeId)
    (name : List String) (label : Option String) (row : Option DataType) (source : SourceId) :
    (exposeTable scope entry name label row source).Keeps P := by
  unfold exposeTable
  split
  · exact keeps_fail _
  · have hbind := h.keeps_bindName hscope
    split
    · exact (h.keeps_record _ _).bind fun _ => hbind _ _
    · exact (keeps_pure _).bind fun _ => hbind _ _

theorem keeps_bindTable {parent scope : ScopeId} (hscope : base ≤ scope.index) (entry : NodeId)
    (name : List String) (label : Option String) :
    (bindTable parent scope entry name label).Keeps P := by
  rw [bindTable_eq]
  refine keeps_state.bind fun s => (keeps_ofExcept _).bind fun found => ?_
  refine Keeps.ite (fun _ => keeps_fail _) fun _ => ?_
  have hrest := h.keeps_exposeTable hscope entry name label (s.sources.row? found.source) found.source
  refine Keeps.ite (fun _ => ?_) fun _ => hrest
  exact (keeps_update fun _ hs => h.selfReference _ hs).bind fun _ => hrest

theorem keeps_bindSubquery (hv : v.Keeps P) (parent : ScopeId) {scope : ScopeId}
    (hscope : base ≤ scope.index) (block entry query : NodeId) (label : String) :
    (bindSubquery v parent scope block entry query label).Keeps P := by
  refine (hv.query parent query).bind fun row => ?_
  show (bindDerived scope block entry label row).Keeps P
  refine Keeps.bind' (h.keeps_register _ _ _) fun s source s' hs hregister hs' => ?_
  cases hregister
  have hset := h.keeps_setRow hs (Nat.le_refl s.sources.nextId.index) row
  refine (hset.bind fun _ => ?_) _ hs'
  exact (h.keeps_record _ _).bind fun _ => h.keeps_bindName hscope _ _

theorem keeps_bindSource (hv : v.Keeps P) (parent : ScopeId) {scope : ScopeId}
    (hscope : base ≤ scope.index) (block entry : NodeId) :
    (bindSource v parent scope block entry).Keeps P := by
  refine (keeps_node entry).bind fun n => ?_
  split
  · exact h.keeps_bindTable hscope _ _ _
  · exact h.keeps_bindSubquery hv parent hscope _ _ _ _
  · exact keeps_fail _

omit h in
theorem keeps_itemColumns (hv : v.Keeps P) (scope : ScopeId) (columns : Columns) (place : Nat)
    (item : SelectItem) : (itemColumns v scope columns place item).Keeps P := by
  cases item with
  | star => exact keeps_state.bind fun _ => keeps_pure _
  | expression id label =>
    exact (hv.expression scope id).bind fun _ => (keeps_node id).bind fun _ => keeps_pure _

omit h in
theorem keeps_selectColumns (hv : v.Keeps P) (scope : ScopeId) (columns : Columns) (place : Nat)
    (items : List SelectItem) : (selectColumns v scope columns place items).Keeps P := by
  induction items generalizing columns place with
  | nil => exact keeps_pure _
  | cons item rest ih =>
    exact (keeps_itemColumns hv scope columns place item).bind fun columns => ih columns _

/-- The parts of a SELECT, in the scope that has been added for it. -/
theorem keeps_selectParts (hv : v.Keeps P) (parent : ScopeId) {scope : ScopeId}
    (hscope : base ≤ scope.index) (id : NodeId) (block : SelectBlock) : (do
      block.sources.forM (bindSource v parent scope id)
      match block.condition with
      | some condition => let _ ← v.expression scope condition
      | none => pure ()
      return .row (← selectColumns v scope [] 0 block.items) : Validation DataType).Keeps P := by
  have hcolumns : (do
      let columns ← selectColumns v scope [] 0 block.items
      pure (DataType.row columns) : Validation DataType).Keeps P :=
    (keeps_selectColumns hv scope [] 0 block.items).bind fun _ => keeps_pure _
  refine (keeps_forM fun entry _ => h.keeps_bindSource hv parent hscope id entry).bind fun _ => ?_
  split
  · exact (hv.expression scope _).bind fun _ => hcolumns
  · exact hcolumns

theorem keeps_selectRow (hv : v.Keeps P) (parent : ScopeId) (id : NodeId) (block : SelectBlock) :
    (selectRow v parent id block).Keeps P := by
  refine Keeps.bind' (h.keeps_newScope parent .block (some id)) fun s scope s' hs hn hs' => ?_
  -- The names of the FROM list go into the scope that was just added.
  exact h.keeps_selectParts hv parent (h.base_le_newBlock hs hn) id block s' hs'

omit h in
theorem keeps_setOperationRow (hv : v.Keeps P) (scope : ScopeId) (operation : SetOperation) :
    (setOperationRow v scope operation).Keeps P :=
  (hv.query scope _).bind fun _ => (hv.query scope _).bind fun _ => keeps_ofExcept _

/-- The body of a recursive item is validated after the item has been registered. -/
theorem keeps_recursiveRow (hv : v.Keeps P) (hgrow : v.Grows) (parent : ScopeId) {id : NodeId}
    (name : String) (item : WithItem) {u s : Session} (hu : P u) (hs : P s) {own : SourceId}
    {e : RowSource} (he : s.sources.get? own = some e) (hnode : e.node = some id)
    (hkind : e.kind = .withItem) (hnew : u.sources.size ≤ own.index) :
    P (recursiveRow v parent id name item s).2 := by
  unfold recursiveRow
  simp only [Host.lift_self]
  cases hn : s.tree.node? item.query with
  | none =>
    rw [bind_of_error (node_of_none hn)]
    exact hs
  | some n =>
    rw [bind_of_ok (node_of_some hn)]
    split
    · rename_i operation
      have hviewed := h.keeps_selfView id s hs
      cases hview : Validation.selfView id s with
      | mk r t =>
        rw [hview] at hviewed
        cases r with
        | error e =>
          rw [bind_of_error hview]
          exact hviewed
        | ok view =>
          rw [bind_of_ok hview]
          obtain ⟨sources, hsources, rfl⟩ := Validation.selfView_eq_ok hview
          have hopen : u.sources.OpenSince sources view := by
            obtain ⟨e', he', hnode', hkind'⟩ := (RowSources.Grows.of_selfView hsources).source own e he
            exact .inr ⟨id, own, e', RowSources.selfViewOf?_of_selfView hsources, he',
              hnode'.trans hnode, hkind'.trans hkind, hnew⟩
          -- The view stays open while the first input is validated.
          have hanchor : (v.query parent operation.left).Keeps fun t => P t ∧ sources.Grows t.sources :=
            fun t ht => ⟨hv.query _ _ t ht.1, (hgrow sources).query _ _ t ht.2⟩
          refine Ends.snd (P := fun t => P t ∧ sources.Grows t.sources)
            ((hanchor.ends fun _ ht => ht.1).bind fun anchor => (ends_ofExcept (fun _ _ ht _ => ht)
              fun _ ht => ht.1).bind fun row => ?_) ⟨hviewed, .refl _⟩
          refine (ends_of_forall fun t ht => h.setRow_of_openSince hu ht.1 (hopen.mono ht.2) row).bind
            fun _ => ends_of_forall ?_
          exact (h.keeps_newScope _ _ _).bind fun scope => hv.query scope _
    · exact hs

theorem keeps_bindWithItem (hv : v.Keeps P) (hgrow : v.Grows) (parent : ScopeId) (id : NodeId) :
    (bindWithItem v parent id).Keeps P := by
  refine (keeps_node id).bind fun n => ?_
  split
  · rename_i item
    refine Keeps.bind' (h.keeps_register _ _ _) fun s source s' hs hregister hs' => ?_
    cases hregister
    have hrest : ∀ body : DataType, (do
        let row ← Checking.ofExcept (renamed (qualifiedName item.name) item.columns body)
        Validation.setRow s.sources.nextId row
        Validation.record id row
        Validation.onScopes (·.newWithItem parent id (qualifiedName item.name)) :
          Validation ScopeId).Keeps P := by
      intro body
      refine (keeps_ofExcept _).bind fun row => ?_
      refine (h.keeps_setRow hs (Nat.le_refl s.sources.nextId.index) row).bind fun _ => ?_
      exact (h.keeps_record _ _).bind fun _ => h.keeps_newScope _ _ _
    by_cases hrec : item.recursive = true
    · simp only [hrec, if_true]
      refine (Ends.bind (Q := fun _ => P) (ends_of_forall fun t (ht : t = _) => ?_) fun body =>
        (hrest body).ends fun _ h => h).snd rfl
      subst ht
      exact h.keeps_recursiveRow hv hgrow parent _ item hs hs' (RowSources.get?_register_self ..) rfl rfl
        (Nat.le_refl _)
    · simp only [hrec]
      exact ((hv.query parent _).bind hrest) _ hs'
  · exact keeps_fail _

theorem keeps_withRow (hv : v.Keeps P) (hgrow : v.Grows) (scope : ScopeId) (body : NodeId)
    (items : List NodeId) : (withRow v scope body items).Keeps P := by
  induction items generalizing scope with
  | nil => exact hv.query scope body
  | cons item rest ih => exact (h.keeps_bindWithItem hv hgrow scope item).bind fun scope => ih scope

theorem keeps_queryStep (hv : v.Keeps P) (hgrow : v.Grows) (scope : ScopeId) (id : NodeId) :
    (queryStep v scope id).Keeps P := by
  refine (keeps_node id).bind fun n => Keeps.bind ?_ fun row => ?_
  · cases n with
    | select block => exact h.keeps_selectRow hv scope id block
    | setOperation operation => exact keeps_setOperationRow hv scope operation
    | withQuery items body => exact h.keeps_withRow hv hgrow scope body items
    | _ => exact keeps_fail _
  · exact (h.keeps_record id row).bind fun _ => keeps_pure _

/-! ### Expressions -/

/-- An expression step keeps an invariant that the validation of a call keeps. -/
theorem keeps_expressionStep (hv : v.Keeps P)
    (hcall : ∀ scope id name operands s, P s → s.tree.node? id = some (.call name operands) →
      P (callType v scope id name operands s).2)
    (scope : ScopeId) (id : NodeId) : (expressionStep v scope id).Keeps P := by
  -- Nothing happens between taking off the casts and reading the node below them.
  have hcore : ∀ core casts, (do
      let type ← expressionType v scope core (← Validation.node core)
      Validation.record core type
      recordCasts type casts : Validation DataType).Keeps P := by
    intro core casts
    refine Keeps.bind' (keeps_node core) fun s₁ n s₂ hs₁ hn hs₂ => ?_
    obtain ⟨rfl, hnode⟩ := node_eq_ok hn
    -- Only a call needs to know that its node is still in the tree.
    have htype : P (expressionType v scope core n s₂).2 := by
      cases n with
      | literal value => exact hs₂
      | identifier names => exact hs₂
      | call name operands => exact hcall scope core name operands s₂ hs₂ hnode
      | cursor query => exact ((hv.query scope query).bind fun _ => keeps_pure _) s₂ hs₂
      | _ => exact hs₂
    rw [bind_apply]
    cases hr : expressionType v scope core n s₂ with
    | mk r s₃ =>
      rw [hr] at htype
      cases r with
      | error e => exact htype
      | ok type =>
        exact ((h.keeps_record core type).bind fun _ =>
          keeps_recordCasts h.keeps_record type casts) s₃ htype
  exact keeps_state.bind fun s => hcore _ _

end Session.Invariant

end

/-! ### All depths -/

/-- Row sources are only added and given row types. -/
theorem Session.invariant_grows (sources : RowSources) :
    Session.Invariant 0 fun s => sources.Grows s.sources where
  base_le _ := Nat.zero_le _
  record _ _ h := h
  newScope h _ := h
  addBinding h _ _ := h
  register node kind enclosing h := h.trans (.register _ node kind enclosing)
  selfView h hview := h.trans (.of_selfView hview)
  setRow h _ hset := h.trans (.of_setRow hset)
  selfReference _ h := h

theorem visitAt_grows (depth : Nat) : (visitAt depth).Grows := by
  induction depth with
  | zero => exact fun _ => ⟨fun _ _ => keeps_fail _, fun _ _ => keeps_fail _⟩
  | succ depth ih =>
    intro sources
    have h := Session.invariant_grows sources
    refine ⟨fun scope id => h.keeps_queryStep (ih sources) ih scope id, fun scope id => ?_⟩
    refine h.keeps_expressionStep (ih sources) (fun scope id name operands s hs _ => ?_) scope id
    exact keeps_callType_apart (fun _ _ h => h) (fun _ _ h => h) ((ih sources).expression scope) id name
      operands s hs

/-- A family of invariants survives validation to any depth when each survives the changes outside
    calls and, given that all of them survive the validation of parts, the validation of a call. -/
theorem visitAt_keeps {ι : Type} (base : ι → Nat) (P : ι → Session → Prop)
    (h : ∀ i, Session.Invariant (base i) (P i))
    (hcall : ∀ v : Visit, (∀ i, v.Keeps (P i)) → ∀ i scope id name operands s, P i s →
      s.tree.node? id = some (.call name operands) → P i (callType v scope id name operands s).2)
    (depth : Nat) (i : ι) : (visitAt depth).Keeps (P i) := by
  induction depth generalizing i with
  | zero => exact ⟨fun _ _ => keeps_fail _, fun _ _ => keeps_fail _⟩
  | succ depth ih =>
    refine ⟨fun scope id => ?_, fun scope id => ?_⟩
    · exact (h i).keeps_queryStep (ih i) (visitAt_grows depth) scope id
    · exact (h i).keeps_expressionStep (ih i) (hcall (visitAt depth) ih i) scope id

end SqlTyping
