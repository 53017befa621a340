import SqlTyping.Proofs.Session.Guarding

namespace SqlTyping

/-!
# Faults about the number of operands

Among the faults with which a validation stops, those about the number of operands can be taken at their
word: the number that was found is not in the interval that was expected.

* `Arity.text_injective` — the text of an interval tells the interval;
* `Fault.CountsRightly` — the fault, if it is about a number of operands, is right about it;
* `visitAt_countsRightly` — validation to any depth stops with such faults only, if the engine adds no
  others.
-/

/-! ### The text of an interval -/

namespace Arity

/-- The digits of a number end where something else follows. -/
theorem takeWhile_digits (count : Nat) {rest : List Char} (h : rest.head?.all (!·.isDigit) = true) :
    (Nat.toDigits 10 count ++ rest).takeWhile Char.isDigit = Nat.toDigits 10 count := by
  have hdigits : ∀ c ∈ Nat.toDigits 10 count, c.isDigit = true := fun c hc =>
    Nat.isDigit_of_mem_toDigits (by decide) (by decide) hc
  rw [List.takeWhile_append_of_pos hdigits]
  cases rest with
  | nil => rw [List.takeWhile_nil, List.append_nil]
  | cons c rest =>
    have hc : ¬ c.isDigit = true := by simpa using h
    rw [List.takeWhile_cons_of_neg hc, List.append_nil]

/-- Two texts that start with numbers start with the same number. -/
theorem digits_append_inj {count count' : Nat} {rest rest' : List Char}
    (h : rest.head?.all (!·.isDigit) = true) (h' : rest'.head?.all (!·.isDigit) = true)
    (heq : Nat.toDigits 10 count ++ rest = Nat.toDigits 10 count' ++ rest') :
    count = count' ∧ rest = rest' := by
  have hdigits : Nat.toDigits 10 count = Nat.toDigits 10 count' := by
    rw [← takeWhile_digits count h, heq, takeWhile_digits count' h']
  rw [hdigits] at heq
  exact ⟨Text.digits_injective hdigits, List.append_cancel_left heq⟩

/-- What stands in the text behind the first number. -/
def tail (a : Arity) : List Char :=
  match a.most with
  | some most => if most = a.least then [] else " to ".toList ++ Nat.toDigits 10 most
  | none => " or more".toList

theorem toList_text (a : Arity) : a.text.toList = Nat.toDigits 10 a.least ++ a.tail := by
  unfold text tail
  cases a.most with
  | none => simp [toString, String.toList_append, Nat.toList_repr]
  | some most =>
    by_cases hmost : most = a.least
    · simp [hmost, toString, Nat.toList_repr]
    · simp [hmost, toString, String.toList_append, Nat.toList_repr]

/-- No digit follows the first number. -/
theorem head?_tail (a : Arity) : a.tail.head?.all (!·.isDigit) = true := by
  unfold tail
  split
  · split
    · rfl
    · rfl
  · rfl

/-- The first number being the same, what stands behind it tells the upper end. -/
theorem most_eq_of_tail {least : Nat} {most most' : Option Nat}
    (h : tail ⟨least, most⟩ = tail ⟨least, most'⟩) : most = most' := by
  have hnone : ∀ x : Nat, tail ⟨least, none⟩ ≠ tail ⟨least, some x⟩ := by
    intro x heq
    by_cases hx : x = least
    · simp [tail, hx] at heq
    · simp [tail, hx] at heq
  cases most with
  | none =>
    cases most' with
    | none => rfl
    | some y => exact absurd h (hnone y)
  | some x =>
    cases most' with
    | none => exact absurd h.symm (hnone x)
    | some y =>
      by_cases hx : x = least
      · by_cases hy : y = least
        · rw [hx, hy]
        · simp [tail, hx, hy] at h
      · by_cases hy : y = least
        · simp [tail, hx, hy] at h
        · have hdigits : Nat.toDigits 10 x = Nat.toDigits 10 y := by simpa [tail, hx, hy] using h
          rw [Text.digits_injective hdigits]

/-- Different intervals are shown differently. -/
theorem text_injective {a b : Arity} (h : a.text = b.text) : a = b := by
  have hlist := congrArg String.toList h
  rw [toList_text, toList_text] at hlist
  obtain ⟨hleast, htail⟩ := digits_append_inj a.head?_tail b.head?_tail hlist
  obtain ⟨least, most⟩ := a
  obtain ⟨least', most'⟩ := b
  obtain rfl : least = least' := hleast
  rw [most_eq_of_tail htail]

end Arity

/-- A fault about a number of operands shows an interval that does not admit the number. -/
def Fault.CountsRightly : Fault → Prop
  | .operandCount _ expected found => ∃ a : Arity, a.text = expected ∧ a.admits found = false
  | _ => True

open Checking

/-! ### Elementary steps -/

/-- Validation with an engine that adds no wrong counts stops with faults that count rightly. -/
abbrev Validation.CountsRightly {α : Type} (x : Validation α) : Prop :=
  x.Guards (fun s => s.engine.FaultsWithin Fault.CountsRightly) Fault.CountsRightly

/-- The parts below a node are validated so. -/
structure Visit.CountsRightly (v : Visit) : Prop where
  query : ∀ scope id, Validation.CountsRightly (v.query scope id)
  expression : ∀ scope id, Validation.CountsRightly (v.expression scope id)

theorem Validation.countsRightly_ofExcept {α : Type} {r : Except Fault α}
    (h : ∀ e, r = .error e → e.CountsRightly) :
    Validation.CountsRightly (Checking.ofExcept r) := by
  intro s hs
  refine .of_outcomes (fun a s' hx => ?_) fun e s' hx => ?_
  · cases hx
    exact ⟨hs, trivial⟩
  · cases hx
    exact ⟨hs, h e rfl⟩

namespace ScopeTree

variable {t : ScopeTree} {scope : ScopeId} {m : NameMatching} {sources : RowSources} {e : Fault}

theorem countsRightly_firstAlong {α : Type} {ask : ScopeId → Scope → Except Fault (Option α)}
    (hask : ∀ id around e, ask id around = .error e → e.CountsRightly) {ids : List ScopeId}
    (h : t.firstAlong ask ids = .error e) : e.CountsRightly := by
  induction ids with
  | nil => cases h
  | cons id rest ih =>
    unfold firstAlong at h
    split at h
    · cases h
      trivial
    · split at h
      · exact ih h
      · exact hask _ _ _ h

theorem countsRightly_itemMatch {around : Scope} {names : List String}
    (h : itemMatch around names sources = .error e) : e.CountsRightly := by
  obtain ⟨item, shown, rfl, -⟩ := itemMatch_eq_error h
  trivial

theorem countsRightly_lookupTable {names : List String} {path : Path}
    (h : t.lookupTable scope names m path sources = .error e) : e.CountsRightly :=
  countsRightly_firstAlong (fun _ _ _ he =>
    countsRightly_itemMatch (itemMatch_of_tableIn_eq_error he)) h

theorem countsRightly_lookupColumn {name : String}
    (h : t.lookupColumn scope name m sources = .error e) : e.CountsRightly := by
  refine countsRightly_firstAlong (fun id around e he => ?_) h
  unfold columnIn at he
  split at he
  · cases he
  · split at he
    · cases he
    · cases he
    · cases he
      trivial

end ScopeTree

namespace Session

variable {s : Session} {scope : ScopeId} {names : List String} {e : Fault}

theorem countsRightly_columnType {found : TableMatch} (h : s.columnType names found = .error e) :
    e.CountsRightly := by
  unfold columnType at h
  split at h
  · split at h
    · cases h
      trivial
    · split at h
      · cases h
        trivial
      · cases h
  · cases h
    trivial

theorem countsRightly_qualifiedType (h : s.qualifiedType scope names = .error e) :
    e.CountsRightly := by
  unfold qualifiedType at h
  simp only at h
  split at h
  · rename_i hlooked
    cases h
    exact ScopeTree.countsRightly_lookupTable hlooked
  · cases h
    trivial
  · split at h
    · cases h
      trivial
    · exact countsRightly_columnType h

theorem countsRightly_referenceType (h : s.referenceType scope names = .error e) :
    e.CountsRightly := by
  unfold referenceType at h
  split at h
  · cases h
    trivial
  · split at h
    · rename_i hlooked
      cases h
      exact ScopeTree.countsRightly_lookupColumn hlooked
    · cases h
      trivial
    · cases h
  · exact countsRightly_qualifiedType h

theorem countsRightly_requireTable {m : NameMatching}
    (h : s.scopes.requireTable scope names m s.sources = .error e) : e.CountsRightly := by
  unfold ScopeTree.requireTable at h
  split at h
  · rename_i hlooked
    cases h
    exact ScopeTree.countsRightly_lookupTable hlooked
  · cases h
  · cases h
    trivial

end Session

theorem countsRightly_renamed {name : String} {columns : Option (List String)} {row : DataType}
    {e : Fault} (h : renamed name columns row = .error e) : e.CountsRightly := by
  unfold renamed at h
  split at h
  · cases h
  · split at h
    · cases h
    · cases h
      trivial

theorem countsRightly_unionRow {operation : String} {left right : DataType} {e : Fault}
    (h : unionRow operation left right = .error e) : e.CountsRightly := by
  unfold unionRow at h
  split at h
  · cases h
  · cases h
    trivial

theorem ReturnRule.countsRightly_infer {types : List DataType} {rule : ReturnRule} {e : Fault}
    (h : rule.infer types = .error e) : e.CountsRightly := by
  induction rule generalizing e with
  | fixed type => cases h
  | fixedNullable type => cases h
  | operand index =>
    unfold infer at h
    split at h
    · cases h
    · cases h
      trivial
  | nullable rule ih =>
    unfold infer at h
    cases hrule : infer types rule with
    | ok type =>
      rw [hrule] at h
      cases h
    | error fault =>
      rw [hrule] at h
      cases h
      exact ih hrule

namespace Validation

theorem countsRightly_node (id : NodeId) : CountsRightly (node id) := by
  intro s hs
  cases hn : s.tree.node? id with
  | some n =>
    unfold Runs
    rw [node_of_some hn]
    exact ⟨hs, trivial⟩
  | none =>
    unfold Runs
    rw [node_of_none hn]
    exact ⟨hs, trivial⟩

theorem countsRightly_onScopes {α : Type} {change : ScopeTree → Except Fault (α × ScopeTree)}
    (h : ∀ t e, change t = .error e → e.CountsRightly) : CountsRightly (onScopes change) := by
  intro s hs
  unfold Runs onScopes
  cases hchange : change s.scopes with
  | ok found => exact ⟨hs, trivial⟩
  | error e => exact ⟨hs, h _ e hchange⟩

theorem countsRightly_newScope (parent : ScopeId) (role : ScopeRole) (node : Option NodeId) :
    CountsRightly (onScopes (·.newScope parent role node)) := by
  refine countsRightly_onScopes fun t e h => ?_
  unfold ScopeTree.newScope at h
  split at h
  · cases h
    trivial
  · cases h

theorem countsRightly_bindName (scope : ScopeId) (name : String) (source : SourceId) :
    CountsRightly (bindName scope name source) := by
  refine countsRightly_onScopes fun t e h => ?_
  unfold ScopeTree.addBinding at h
  split at h
  · cases h
  · cases h
    trivial

theorem countsRightly_record (id : NodeId) (type : DataType) : CountsRightly (record id type) :=
  guards_update fun _ hs => hs

theorem countsRightly_register (node : NodeId) (kind : SourceKind) (enclosing : Option NodeId) :
    CountsRightly (register node kind enclosing) := fun _ hs => ⟨hs, trivial⟩

theorem countsRightly_selfView (item : NodeId) : CountsRightly (selfView item) := by
  intro s hs
  unfold Runs
  rw [selfView_apply]
  cases hview : s.sources.selfView item with
  | ok found => exact ⟨hs, trivial⟩
  | error e =>
    refine ⟨hs, ?_⟩
    unfold RowSources.selfView at hview
    split at hview
    · cases hview
    · split at hview <;> cases hview
      trivial

theorem countsRightly_setRow (id : SourceId) (row : DataType) : CountsRightly (setRow id row) := by
  intro s hs
  unfold Runs
  rw [setRow_apply]
  cases hset : s.sources.setRow id row with
  | ok sources => exact ⟨hs, trivial⟩
  | error e =>
    refine ⟨hs, ?_⟩
    unfold RowSources.setRow at hset
    split at hset
    · cases hset
    · cases hset
      trivial

end Validation

/-! ### Calls -/

namespace Visit.CountsRightly

variable {v : Visit} (hv : v.CountsRightly) {scope : ScopeId}

include hv

theorem recorded (id : NodeId) : Validation.CountsRightly (v.recorded scope id) := by
  refine guards_state_bind fun s hs => ?_
  split
  · exact .pure hs trivial
  · exact hv.expression scope id s hs

theorem visitOperands (signature : Signature) (index : Nat) (operands : List NodeId) :
    Validation.CountsRightly (SqlTyping.visitOperands v scope signature index operands) := by
  induction operands generalizing index with
  | nil => exact guards_pure _
  | cons operand rest ih =>
    unfold SqlTyping.visitOperands
    exact Guards.ite (fun _ => (hv.expression scope operand).bind fun _ => ih _) fun _ => ih _

theorem operandTypes (signature : Signature) (index : Nat) (operands : List NodeId) :
    Validation.CountsRightly (SqlTyping.operandTypes v scope signature index operands) := by
  induction operands generalizing index with
  | nil => exact guards_pure _
  | cons operand rest ih =>
    have hrest := fun type : DataType =>
      (ih (index + 1)).bind fun types => guards_pure (type :: types)
    unfold SqlTyping.operandTypes
    exact Guards.ite (fun _ => (guards_pure _).bind hrest) fun _ => (hv.recorded operand).bind hrest

theorem typeOf (op : Operator) (index : Nat) : (CallFrame.typeOf v scope op index).Guards
    (fun f => f.session.engine.FaultsWithin Fault.CountsRightly) Fault.CountsRightly := by
  refine guards_state_bind fun f hf => ?_
  split
  · exact .fail hf trivial
  · refine .ite (fun _ => .pure hf trivial) fun _ => ?_
    exact (hv.recorded _ f.session hf).focus fun _ hs => hs

theorem castTo (call : NodeId) (index : Nat) (target : DataType) :
    (CallFrame.castTo v scope call index target).Guards
      (fun f => f.session.engine.FaultsWithin Fault.CountsRightly) Fault.CountsRightly := by
  intro f hf
  unfold Runs
  cases hd : f.isDefault index with
  | true =>
    have hsame : CallFrame.castTo v scope call index target f = (.ok false, f) :=
      CallFrame.castTo_of_isDefault hd ..
    rw [hsame]
    exact ⟨hf, trivial⟩
  | false =>
  cases ho : f.operands[index]? with
  | none =>
    rw [CallFrame.castTo_of_none ho]
    exact ⟨hf, trivial⟩
  | some operand =>
    rw [CallFrame.castTo_of_operand hd ho]
    cases (f.session.tree.pushCast operand target.toTarget true).replaceOperand? call index
      f.session.tree.nextId with
    | none => exact ⟨hf, trivial⟩
    | some tree =>
      have hrun := hv.expression scope f.session.tree.nextId { f.session with tree } hf
      cases hx : v.expression scope f.session.tree.nextId { f.session with tree } with
      | mk r s =>
        simp only [hx]
        cases r with
        | ok type => exact ⟨(hrun.of_ok hx).1, trivial⟩
        | error e => exact hrun.of_error hx

theorem checkCall (call : NodeId) (op : Operator) (all : List NodeId) :
    Validation.CountsRightly (SqlTyping.checkCall v scope call op all) := by
  intro s hs
  have hview : (CallFrame.view v scope call op s.settings s.engine).Guards
      (fun f => f.session.engine.FaultsWithin Fault.CountsRightly) Fault.CountsRightly
      (fun _ => True) fun _ => True := by
    refine ⟨fun _ _ _ _ => trivial, fun index _ => hv.typeOf op index, fun _ types positions _ => ?_,
      fun _ _ => trivial, fun _ => trivial⟩
    refine CallView.guards_coerce (CallView.guards_signatureText (fun _ => True)
      (fun _ _ _ _ => trivial) fun index _ => hv.typeOf op index) (fun _ _ hf => hf) ?_
    exact CallView.guards_run_within (hv.typeOf op) (hv.castTo call) (hs _ _ _)
  exact (hview.check op.signature (fun _ _ _ _ _ _ => trivial) ⟨s, all⟩ hs).checkCall fun _ hf => hf

/-- A call adds the fault of its own number of operands. -/
theorem callType (call : NodeId) (name : String) (operands : List NodeId) :
    Validation.CountsRightly (SqlTyping.callType v scope call name operands) := by
  refine guards_state_bind fun s hs => ?_
  cases s.operators.lookup? name with
  | none => exact .fail hs trivial
  | some op =>
    refine .ite (fun hadmits => .fail hs ⟨op.arity, rfl, by simpa using hadmits⟩) fun _ => ?_
    have hpadded : Validation.CountsRightly (padded op.signature operands) := by
      intro t ht
      unfold Runs
      rw [padded_apply]
      by_cases hnone : op.signature.shownCount operands.length - operands.length = 0
      · rw [if_pos hnone]
        exact ⟨ht, trivial⟩
      · rw [if_neg hnone]
        exact ⟨ht, trivial⟩
    refine (hpadded.bind fun all => ?_) s hs
    refine (hv.visitOperands op.signature 0 operands).bind fun _ =>
      (hv.checkCall call op all).bind fun _ => guards_state_bind fun t ht => ?_
    refine ((hv.operandTypes op.signature 0 _).bind fun types => ?_) t ht
    exact Validation.countsRightly_ofExcept fun e => ReturnRule.countsRightly_infer

/-! ### Expressions and queries -/

theorem expressionType (id : NodeId) (node : Node) :
    Validation.CountsRightly (SqlTyping.expressionType v scope id node) := by
  cases node with
  | literal value => exact guards_pure _
  | identifier names =>
    refine guards_state_bind fun s hs => ?_
    exact Validation.countsRightly_ofExcept (fun e => Session.countsRightly_referenceType) s hs
  | call name operands => exact hv.callType id name operands
  | cursor query => exact (hv.query scope query).bind fun _ => guards_pure _
  | default => exact guards_pure _
  | _ => exact guards_fail trivial

omit hv in
theorem recordCasts (type : DataType) (casts : List (NodeId × CastTarget)) :
    Validation.CountsRightly (SqlTyping.recordCasts type casts) := by
  induction casts with
  | nil => exact guards_pure _
  | cons cast rest ih =>
    exact ih.bind fun _ => (Validation.countsRightly_record _ _).bind fun _ => guards_pure _

theorem expressionStep (id : NodeId) :
    Validation.CountsRightly (SqlTyping.expressionStep v scope id) := by
  refine guards_state_bind fun s hs => ?_
  refine ((Validation.countsRightly_node _).bind fun n => ?_) s hs
  exact (hv.expressionType _ n).bind fun type =>
    (Validation.countsRightly_record _ type).bind fun _ => recordCasts type _

omit hv in
theorem bindTable (parent : ScopeId) (entry : NodeId) (name : List String) (label : Option String) :
    Validation.CountsRightly (SqlTyping.bindTable parent scope entry name label) := by
  rw [bindTable_eq]
  refine guards_state_bind fun s hs => ?_
  have hexpose : ∀ row source,
      Validation.CountsRightly (exposeTable scope entry name label row source) := by
    intro row source
    unfold exposeTable
    split
    · exact guards_fail trivial
    · have hbind := Validation.countsRightly_bindName scope
      split
      · exact (Validation.countsRightly_record _ _).bind fun _ => hbind _ _
      · exact hbind _ _
  refine ((Validation.countsRightly_ofExcept fun e =>
    Session.countsRightly_requireTable).bind fun found => ?_) s hs
  refine Guards.ite (fun _ => guards_fail trivial) fun _ => Guards.ite (fun _ => ?_) fun _ => hexpose _ _
  exact Guards.bind (guards_update fun _ hs => hs) fun _ => hexpose _ _

omit hv in
theorem bindDerived (block entry : NodeId) (label : String) (row : DataType) :
    Validation.CountsRightly (SqlTyping.bindDerived scope block entry label row) :=
  (Validation.countsRightly_register _ _ _).bind fun _ => (Validation.countsRightly_setRow _ row).bind
    fun _ => (Validation.countsRightly_record _ row).bind fun _ => Validation.countsRightly_bindName _ _ _

theorem bindSource (parent : ScopeId) (block entry : NodeId) :
    Validation.CountsRightly (SqlTyping.bindSource v parent scope block entry) := by
  refine (Validation.countsRightly_node entry).bind fun n => ?_
  split
  · exact bindTable parent entry _ _
  · exact (hv.query parent _).bind fun row => bindDerived block entry _ row
  · exact guards_fail trivial

theorem selectColumns (columns : Columns) (place : Nat) (items : List SelectItem) :
    Validation.CountsRightly (SqlTyping.selectColumns v scope columns place items) := by
  induction items generalizing columns place with
  | nil => exact guards_pure _
  | cons item rest ih =>
    refine Guards.bind ?_ fun columns => ih columns _
    cases item with
    | star => exact guards_state_bind fun s hs => .pure hs trivial
    | expression id label =>
      exact (hv.expression scope id).bind fun _ => (Validation.countsRightly_node id).bind fun _ =>
        guards_pure _

theorem selectRow (id : NodeId) (block : SelectBlock) :
    Validation.CountsRightly (SqlTyping.selectRow v scope id block) := by
  refine (Validation.countsRightly_newScope scope .block (some id)).bind fun inner => ?_
  have hcolumns : Validation.CountsRightly (do
      let columns ← SqlTyping.selectColumns v inner [] 0 block.items
      pure (DataType.row columns)) :=
    (hv.selectColumns [] 0 block.items).bind fun _ => guards_pure _
  have hsources : Validation.CountsRightly
      (block.sources.forM (SqlTyping.bindSource v scope inner id)) := fun s hs =>
    .forM course_of_invariant hs fun entry _ t ht => hv.bindSource scope id entry t ht
  refine hsources.bind fun _ => ?_
  unfold selectTail
  split
  · exact (hv.expression inner _).bind fun _ => hcolumns
  · exact hcolumns

theorem recursiveRow (id : NodeId) (name : String) (item : WithItem) :
    Validation.CountsRightly (SqlTyping.recursiveRow v scope id name item) := by
  refine (Validation.countsRightly_node item.query).bind fun n => ?_
  split
  · refine (Validation.countsRightly_selfView id).bind fun view => (hv.query scope _).bind fun anchor => ?_
    refine (Validation.countsRightly_ofExcept fun e => countsRightly_renamed).bind fun row => ?_
    exact (Validation.countsRightly_setRow view row).bind fun _ =>
      (Validation.countsRightly_newScope _ _ _).bind fun inner => hv.query inner _
  · exact guards_fail trivial

theorem bindWithItem (id : NodeId) :
    Validation.CountsRightly (SqlTyping.bindWithItem v scope id) := by
  refine (Validation.countsRightly_node id).bind fun n => ?_
  split
  · rename_i item
    refine (Validation.countsRightly_register _ _ _).bind fun source => ?_
    have hrest : ∀ body : DataType, Validation.CountsRightly (do
        let row ← Checking.ofExcept (renamed (qualifiedName item.name) item.columns body)
        Validation.setRow source row
        Validation.record id row
        Validation.onScopes (·.newWithItem scope id (qualifiedName item.name))) := fun body =>
      (Validation.countsRightly_ofExcept fun e => countsRightly_renamed).bind fun row =>
        (Validation.countsRightly_setRow source row).bind fun _ =>
          (Validation.countsRightly_record id row).bind fun _ => Validation.countsRightly_newScope _ _ _
    exact Guards.ite (fun _ => (hv.recursiveRow id _ item).bind hrest) fun _ =>
      (hv.query scope _).bind hrest
  · exact guards_fail trivial

theorem withRow (body : NodeId) (items : List NodeId) :
    Validation.CountsRightly (SqlTyping.withRow v scope body items) := by
  induction items generalizing scope with
  | nil => exact hv.query scope body
  | cons item rest ih => exact (hv.bindWithItem item).bind fun _ => ih

theorem queryStep (id : NodeId) : Validation.CountsRightly (SqlTyping.queryStep v scope id) := by
  refine (Validation.countsRightly_node id).bind fun n => Guards.bind ?_ fun row =>
    (Validation.countsRightly_record id row).bind fun _ => guards_pure _
  cases n with
  | select block => exact hv.selectRow id block
  | setOperation operation =>
    exact (hv.query scope _).bind fun _ => (hv.query scope _).bind fun _ =>
      Validation.countsRightly_ofExcept fun e => countsRightly_unionRow
  | withQuery items body => exact hv.withRow body items
  | _ => exact guards_fail trivial

end Visit.CountsRightly

/-- Validation to any depth stops with faults that count rightly, if the engine adds no others. -/
theorem visitAt_countsRightly (depth : Nat) : (visitAt depth).CountsRightly := by
  induction depth with
  | zero => exact ⟨fun _ _ => guards_fail trivial, fun _ _ => guards_fail trivial⟩
  | succ depth ih => exact ⟨fun _ id => ih.queryStep id, fun _ id => ih.expressionStep id⟩

end SqlTyping
