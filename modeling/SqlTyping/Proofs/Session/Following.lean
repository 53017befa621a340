import SqlTyping.Proofs.Session.Comparing

namespace SqlTyping

/-!
# One validation after the other

The steps of validation, one lemma for each, for two sessions that stand to each other as a comparison
says. Only the operator's check of a call can tell the sessions apart, so that is left open:

* `Visit.Follows` — what is validated in the first session is validated in the second one;
* `Visit.ChecksFollow` — so is the operator's check of a call whose operands have been validated;
* `Visit.Follows.queryStep`, `Visit.Follows.expressionStep` — when what lies below a node is, so is the node;
* `visitAt_follows` — then all of validation is, to any depth.
-/

open Checking

/-- With or without faults, what the visit finds in the first session it finds in the second one, with
    types that are alike. -/
structure Visit.Follows (E : Prop) (κ : Comparison) (v : Visit) : Prop where
  query : ∀ {s t} scope id, s.Compares κ t →
    Checking.Follows E (Session.Compares κ) κ.likeness.types s t (v.query scope id) (v.query scope id)
  expression : ∀ {s t} scope id, s.Compares κ t →
    Checking.Follows E (Session.Compares κ) κ.likeness.types s t (v.expression scope id)
      (v.expression scope id)

/-- After the operands of a call have been validated, the operator's check in the first session is
    followed by the check in the second one. -/
def Visit.ChecksFollow (E : Prop) (κ : Comparison) (v : Visit) : Prop :=
  ∀ {scope : ScopeId} (call : NodeId) {name : String} {op : Operator} {operands all : List NodeId}
    {s₀ s₁ t₁ s₂ t₂ : Session}, κ.operators.lookup? name = some op →
      op.arity.admits operands.length = true → padded op.signature operands s₀ = (.ok all, s₁) →
        s₁.Compares κ t₁ → visitOperands v scope op.signature 0 operands s₁ = (.ok (), s₂) →
          s₂.Compares κ t₂ → Checking.Follows E (Session.Compares κ) Eq s₂ t₂
            (checkCall v scope call op all) (checkCall v scope call op all)

section

variable {E : Prop} {κ : Comparison} {v : Visit} {s t : Session}

/-! ### Queries -/

/-- A table that has been found is shown. -/
theorem Session.Compares.exposeTable (h : s.Compares κ t) (scope : ScopeId) (entry : NodeId)
    (name : List String) (label : Option String) {row row' : Option DataType}
    (hrow : Option.Rel κ.likeness.types row row') (source : SourceId) :
    Checking.Follows E (Session.Compares κ) Eq s t
      (SqlTyping.exposeTable scope entry name label row source)
      (SqlTyping.exposeTable scope entry name label row' source) := by
  unfold SqlTyping.exposeTable
  split
  · exact .fail h
  · cases hrow with
    | none => exact h.onScopes _
    | some hrow => exact (h.record entry hrow).bind fun _ _ s' t' _ _ h' => h'.onScopes _

/-- A table of a FROM list is bound. -/
theorem Session.Compares.bindTable (h : s.Compares κ t) (parent scope : ScopeId) (entry : NodeId)
    (name : List String) (label : Option String) :
    Checking.Follows E (Session.Compares κ) Eq s t (SqlTyping.bindTable parent scope entry name label)
      (SqlTyping.bindTable parent scope entry name label) := by
  rw [bindTable_eq]
  refine .state_bind ((Follows.ofExcept h (h.requireTable parent name)).bind
    fun found found' s₁ t₁ _ hf h₁ => ?_)
  rw [hf.remaining, hf.source, h.sources.isSelfReference]
  have hrow := h.sources.row? found.source
  refine .ite (fun _ => .fail h₁) fun _ => .ite (fun _ => ?_) fun _ =>
    h₁.exposeTable scope entry name label hrow found.source
  have hnoted : Session.Compares κ
      { s₁ with selfReferences := s₁.selfReferences ++ [(entry, found.source)] }
      { t₁ with selfReferences := t₁.selfReferences ++ [(entry, found.source)] } :=
    { h₁ with selfReferences := congrArg (· ++ _) h₁.selfReferences }
  exact Follows.bind (.update hnoted) fun _ _ s₂ t₂ _ _ h₂ =>
    h₂.exposeTable scope entry name label hrow found.source

namespace Visit.Follows

variable (hv : v.Follows E κ) (h : s.Compares κ t)

include hv h

/-- A query of a FROM list is bound. -/
theorem bindSubquery (parent scope : ScopeId) (block entry query : NodeId) (label : String) :
    Checking.Follows E (Session.Compares κ) Eq s t
      (SqlTyping.bindSubquery v parent scope block entry query label)
      (SqlTyping.bindSubquery v parent scope block entry query label) := by
  refine (hv.query parent query h).bind fun row row' s₁ t₁ _ hrow h₁ => ?_
  show Checking.Follows E (Session.Compares κ) Eq s₁ t₁ (bindDerived scope block entry label row)
    (bindDerived scope block entry label row')
  refine (h₁.register entry .query (some block)).bind fun source _ s₂ t₂ _ heq h₂ => ?_
  subst heq
  refine (h₂.setRow source hrow).bind fun _ _ s₃ t₃ _ _ h₃ => ?_
  exact (h₃.record entry hrow).bind fun _ _ s₄ t₄ _ _ h₄ => h₄.onScopes _

/-- An entry of a FROM list is bound. -/
theorem bindSource (parent scope : ScopeId) (block entry : NodeId) :
    Checking.Follows E (Session.Compares κ) Eq s t (SqlTyping.bindSource v parent scope block entry)
      (SqlTyping.bindSource v parent scope block entry) := by
  refine h.node fun n _ => ?_
  cases n with
  | tableRef name label => exact h.bindTable parent scope entry name label
  | subqueryRef query label => exact hv.bindSubquery h parent scope block entry query label
  | _ => exact .fail h

/-- An entry of a SELECT list adds alike columns. -/
theorem itemColumns (scope : ScopeId) {columns columns' : Columns}
    (hc : columns.Alike κ.likeness columns') (place : Nat) (item : SelectItem) :
    Checking.Follows E (Session.Compares κ) (Columns.Alike κ.likeness) s t
      (SqlTyping.itemColumns v scope columns place item)
      (SqlTyping.itemColumns v scope columns' place item) := by
  cases item with
  | star =>
    refine .state_bind (.pure h ?_)
    rw [h.scopes]
    exact hc.addBindings h.sources _
  | expression id label =>
    refine (hv.expression scope id h).bind fun type type' s₁ t₁ _ htype h₁ => ?_
    exact h₁.node fun n _ => .pure h₁ (hc.add _ htype)

theorem selectColumns (scope : ScopeId) {columns columns' : Columns}
    (hc : columns.Alike κ.likeness columns') (place : Nat) (items : List SelectItem) :
    Checking.Follows E (Session.Compares κ) (Columns.Alike κ.likeness) s t
      (SqlTyping.selectColumns v scope columns place items)
      (SqlTyping.selectColumns v scope columns' place items) := by
  induction items generalizing s t columns columns' place with
  | nil => exact .pure h hc
  | cons item rest ih =>
    exact (hv.itemColumns h scope hc place item).bind fun _ _ s₁ t₁ _ hc h₁ => ih h₁ hc (place + 1)

/-- All entries of a FROM list are bound. -/
theorem bindSources (parent scope : ScopeId) (block : NodeId) (sources : List NodeId) :
    Checking.Follows E (Session.Compares κ) Eq s t
      (sources.forM (SqlTyping.bindSource v parent scope block))
      (sources.forM (SqlTyping.bindSource v parent scope block)) := by
  induction sources generalizing s t with
  | nil => exact .pure h rfl
  | cons entry rest ih =>
    exact (hv.bindSource h parent scope block entry).bind fun _ _ s₁ t₁ _ _ h₁ => ih h₁

/-- A SELECT has an alike row type. -/
theorem selectRow (parent : ScopeId) (id : NodeId) (block : SelectBlock) :
    Checking.Follows E (Session.Compares κ) κ.likeness.types s t
      (SqlTyping.selectRow v parent id block) (SqlTyping.selectRow v parent id block) := by
  refine (h.onScopes _).bind fun scope _ s₁ t₁ _ heq h₁ => ?_
  subst heq
  refine (hv.bindSources h₁ parent scope id block.sources).bind fun _ _ s₂ t₂ _ _ h₂ => ?_
  have hcolumns : ∀ s' t' : Session, s'.Compares κ t' →
      Checking.Follows E (Session.Compares κ) κ.likeness.types s' t' (do
        let columns ← SqlTyping.selectColumns v scope [] 0 block.items
        Pure.pure (DataType.row columns) : Validation DataType) (do
        let columns ← SqlTyping.selectColumns v scope [] 0 block.items
        Pure.pure (DataType.row columns)) := fun s' t' h' =>
    (hv.selectColumns h' scope .nil 0 block.items).bind fun _ _ s'' t'' _ hc h'' =>
      .pure h'' (κ.likeness.row hc)
  unfold selectTail
  cases block.condition with
  | none => exact hcolumns s₂ t₂ h₂
  | some condition =>
    exact (hv.expression scope condition h₂).bind fun _ _ s₃ t₃ _ _ h₃ => hcolumns s₃ t₃ h₃

/-- A set operation has an alike row type. -/
theorem setOperationRow (scope : ScopeId) (operation : SetOperation) :
    Checking.Follows E (Session.Compares κ) κ.likeness.types s t
      (SqlTyping.setOperationRow v scope operation) (SqlTyping.setOperationRow v scope operation) := by
  refine (hv.query scope operation.left h).bind fun left left' s₁ t₁ _ hleft h₁ => ?_
  refine (hv.query scope operation.right h₁).bind fun right right' s₂ t₂ _ hright h₂ => ?_
  exact .ofExcept h₂ (unionRow_alike operation.name hleft hright)

/-- A recursive item has an alike row type. -/
theorem recursiveRow (parent : ScopeId) (id : NodeId) (name : String) (item : WithItem) :
    Checking.Follows E (Session.Compares κ) κ.likeness.types s t
      (SqlTyping.recursiveRow v parent id name item)
      (SqlTyping.recursiveRow v parent id name item) := by
  refine h.node fun n _ => ?_
  cases n with
  | setOperation operation =>
    refine (h.selfView id).bind fun view _ s₁ t₁ _ heq h₁ => ?_
    subst heq
    refine (hv.query parent operation.left h₁).bind fun anchor anchor' s₂ t₂ _ hanchor h₂ => ?_
    refine (Follows.ofExcept h₂ (renamed_alike name item.columns hanchor)).bind
      fun row row' s₃ t₃ _ hrow h₃ => ?_
    refine (h₃.setRow view hrow).bind fun _ _ s₄ t₄ _ _ h₄ => ?_
    refine (h₄.onScopes _).bind fun scope _ s₅ t₅ _ heq h₅ => ?_
    subst heq
    exact hv.query scope item.query h₅
  | _ => exact .fail h

/-- A WITH item is shown by the same scope. -/
theorem bindWithItem (parent : ScopeId) (id : NodeId) :
    Checking.Follows E (Session.Compares κ) Eq s t (SqlTyping.bindWithItem v parent id)
      (SqlTyping.bindWithItem v parent id) := by
  refine h.node fun n _ => ?_
  cases n with
  | withItem item =>
    refine (h.register id .withItem none).bind fun source _ s₁ t₁ _ heq h₁ => ?_
    subst heq
    have hrest : ∀ {body body'} {s' t' : Session}, κ.likeness.types body body' → s'.Compares κ t' →
        Checking.Follows E (Session.Compares κ) Eq s' t' (do
          let row ← Checking.ofExcept (renamed (qualifiedName item.name) item.columns body)
          Validation.setRow source row
          Validation.record id row
          Validation.onScopes (·.newWithItem parent id (qualifiedName item.name)) :
            Validation ScopeId) (do
          let row ← Checking.ofExcept (renamed (qualifiedName item.name) item.columns body')
          Validation.setRow source row
          Validation.record id row
          Validation.onScopes (·.newWithItem parent id (qualifiedName item.name))) := by
      intro body body' s' t' hbody h'
      refine (Follows.ofExcept h' (renamed_alike _ item.columns hbody)).bind
        fun row row' s₂ t₂ _ hrow h₂ => ?_
      refine (h₂.setRow source hrow).bind fun _ _ s₃ t₃ _ _ h₃ => ?_
      exact (h₃.record id hrow).bind fun _ _ s₄ t₄ _ _ h₄ => h₄.onScopes _
    refine .ite (fun _ => ?_) fun _ => ?_
    · exact (hv.recursiveRow h₁ parent id _ item).bind fun _ _ s' t' _ hbody h' => hrest hbody h'
    · exact (hv.query parent item.query h₁).bind fun _ _ s' t' _ hbody h' => hrest hbody h'
  | _ => exact .fail h

/-- A WITH query has an alike row type. -/
theorem withRow (scope : ScopeId) (body : NodeId) (items : List NodeId) :
    Checking.Follows E (Session.Compares κ) κ.likeness.types s t
      (SqlTyping.withRow v scope body items) (SqlTyping.withRow v scope body items) := by
  induction items generalizing s t scope with
  | nil => exact hv.query scope body h
  | cons item rest ih =>
    refine (hv.bindWithItem h scope item).bind fun inner _ s₁ t₁ _ heq h₁ => ?_
    subst heq
    exact ih h₁ inner

/-- A query is followed when what lies below it is. -/
theorem queryStep (scope : ScopeId) (id : NodeId) :
    Checking.Follows E (Session.Compares κ) κ.likeness.types s t (SqlTyping.queryStep v scope id)
      (SqlTyping.queryStep v scope id) := by
  refine h.node fun n _ => Follows.bind (Q := κ.likeness.types) ?_ fun row row' s₁ t₁ _ hrow h₁ =>
    (h₁.record id hrow).bind fun _ _ s₂ t₂ _ _ h₂ => .pure h₂ hrow
  cases n with
  | select block => exact hv.selectRow h scope id block
  | setOperation operation => exact hv.setOperationRow h scope operation
  | withQuery items body => exact hv.withRow h scope body items
  | _ => exact .fail h

end Visit.Follows

/-! ### Expressions -/

/-- Placeholders for the omitted operands of a call are added to both sessions. -/
theorem Session.Compares.padded (h : s.Compares κ t) (signature : Signature)
    (operands : List NodeId) :
    Checking.Follows E (Session.Compares κ) Eq s t (SqlTyping.padded signature operands)
      (SqlTyping.padded signature operands) := by
  have hx := padded_apply signature operands s
  have hy := padded_apply signature operands t
  rw [h.tree] at hy
  by_cases hnone : signature.shownCount operands.length - operands.length = 0
  · rw [if_pos hnone] at hx hy
    exact .ok hx hy rfl h
  · rw [if_neg hnone] at hx hy
    exact .ok hx hy rfl { h with tree := rfl }

/-- The types of casts are recorded. -/
theorem Session.Compares.recordCasts (h : s.Compares κ t) {type type' : DataType}
    (htype : κ.likeness.types type type') (casts : List (NodeId × CastTarget)) :
    Checking.Follows E (Session.Compares κ) κ.likeness.types s t (SqlTyping.recordCasts type casts)
      (SqlTyping.recordCasts type' casts) := by
  induction casts with
  | nil => exact .pure h htype
  | cons cast rest ih =>
    refine ih.bind fun operand operand' s₁ t₁ _ hoperand h₁ => ?_
    have hresult := κ.likeness.ofTarget (κ.likeness.nullable hoperand) cast.2
    exact (h₁.record cast.1 hresult).bind fun _ _ s₂ t₂ _ _ h₂ => .pure h₂ hresult

namespace Visit.Follows

variable (hv : v.Follows E κ) (h : s.Compares κ t)

include hv h

/-- The type of an expression is recorded in both sessions or in none. -/
theorem recorded (scope : ScopeId) (id : NodeId) :
    Checking.Follows E (Session.Compares κ) κ.likeness.types s t (v.recorded scope id)
      (v.recorded scope id) := by
  refine .state_bind ?_
  have htype := h.types id
  generalize s.types.get? id = type, t.types.get? id = type' at htype
  cases htype with
  | none => exact hv.expression scope id h
  | some htype => exact .pure h htype

theorem visitOperands (scope : ScopeId) (signature : Signature) (index : Nat)
    (operands : List NodeId) :
    Checking.Follows E (Session.Compares κ) Eq s t
      (SqlTyping.visitOperands v scope signature index operands)
      (SqlTyping.visitOperands v scope signature index operands) := by
  induction operands generalizing s t index with
  | nil => exact .pure h rfl
  | cons operand rest ih =>
    unfold SqlTyping.visitOperands
    refine .ite (fun _ => ?_) fun _ => ih h (index + 1)
    exact (hv.expression scope operand h).bind fun _ _ s₁ t₁ _ _ h₁ => ih h₁ (index + 1)

theorem operandTypes (scope : ScopeId) (signature : Signature) (index : Nat)
    (operands : List NodeId) :
    Checking.Follows E (Session.Compares κ) (List.Forall₂ κ.likeness.types) s t
      (SqlTyping.operandTypes v scope signature index operands)
      (SqlTyping.operandTypes v scope signature index operands) := by
  induction operands generalizing s t index with
  | nil => exact .pure h .nil
  | cons operand rest ih =>
    have hrest : ∀ {type type'} {s' t' : Session}, κ.likeness.types type type' → s'.Compares κ t' →
        Checking.Follows E (Session.Compares κ) (List.Forall₂ κ.likeness.types) s' t' (do
          let types ← SqlTyping.operandTypes v scope signature (index + 1) rest
          Pure.pure (type :: types) : Validation (List DataType)) (do
          let types ← SqlTyping.operandTypes v scope signature (index + 1) rest
          Pure.pure (type' :: types)) := fun htype h' =>
      (ih h' (index + 1)).bind fun _ _ s'' t'' _ htypes h'' => .pure h'' (.cons htype htypes)
    unfold SqlTyping.operandTypes
    refine Follows.ite (fun _ => ?_) fun _ => ?_
    · exact (hrest (κ.likeness.refl .symbol) h).of_apply rfl rfl
    · exact (hv.recorded h scope operand).bind fun _ _ s₁ t₁ _ htype h₁ => hrest htype h₁

variable (hcheck : v.ChecksFollow E κ)

include hcheck

/-- A call has an alike type. -/
theorem callType (scope : ScopeId) (call : NodeId) (name : String) (operands : List NodeId) :
    Checking.Follows E (Session.Compares κ) κ.likeness.types s t
      (SqlTyping.callType v scope call name operands)
      (SqlTyping.callType v scope call name operands) := by
  unfold SqlTyping.callType
  refine .state_bind ?_
  rw [Host.session_self, Host.session_self, h.operators, h.operators']
  cases hop : κ.operators.lookup? name with
  | none => exact .fail h
  | some op =>
    refine .ite (fun _ => .fail h) fun hadmits => ?_
    refine (h.padded op.signature operands).bind fun all _ s₁ t₁ hpad heq h₁ => ?_
    subst heq
    refine (hv.visitOperands h₁ scope op.signature 0 operands).bind fun _ _ s₂ t₂ hvisit _ h₂ => ?_
    refine (hcheck call hop (by simpa using hadmits) hpad h₁ hvisit h₂).bind
      fun _ _ s₃ t₃ _ _ h₃ => ?_
    -- The operands are read again: casts may have been put around them.
    refine .state_bind ?_
    rw [Host.session_self, Host.session_self, h₃.tree]
    exact (hv.operandTypes h₃ scope op.signature 0 _).bind fun types types' s₄ t₄ _ htypes h₄ =>
      .ofExcept h₄ (κ.likeness.infer htypes op.returns)

/-- An expression that is no cast has an alike type. -/
theorem expressionType (scope : ScopeId) (id : NodeId) (n : Node) :
    Checking.Follows E (Session.Compares κ) κ.likeness.types s t
      (SqlTyping.expressionType v scope id n) (SqlTyping.expressionType v scope id n) := by
  cases n with
  | literal value => exact .pure h (κ.likeness.refl _)
  | identifier names => exact .state_bind (.ofExcept h (h.referenceType scope names))
  | call name operands => exact hv.callType h hcheck scope id name operands
  | cursor query =>
    exact (hv.query scope query h).bind fun _ _ s₁ t₁ _ _ h₁ => .pure h₁ (κ.likeness.refl _)
  | default => exact .pure h (κ.likeness.refl _)
  | _ => exact .fail h

/-- An expression is followed when what lies below it is. -/
theorem expressionStep (scope : ScopeId) (id : NodeId) :
    Checking.Follows E (Session.Compares κ) κ.likeness.types s t
      (SqlTyping.expressionStep v scope id) (SqlTyping.expressionStep v scope id) := by
  unfold SqlTyping.expressionStep
  refine .state_bind ?_
  rw [Host.session_self, Host.session_self, h.tree]
  refine h.node fun n _ => ?_
  refine (hv.expressionType h hcheck scope _ n).bind fun type type' s₁ t₁ _ htype h₁ => ?_
  exact (h₁.record _ htype).bind fun _ _ s₂ t₂ _ _ h₂ => h₂.recordCasts htype _

end Visit.Follows

end

/-- When the operators' checks are followed at every depth, so is all of validation. -/
theorem visitAt_follows {E : Prop} {κ : Comparison}
    (hcheck : ∀ depth, (visitAt depth).Follows E κ → (visitAt depth).ChecksFollow E κ)
    (depth : Nat) : (visitAt depth).Follows E κ := by
  induction depth with
  | zero => exact ⟨fun _ _ h => .fail h, fun _ _ h => .fail h⟩
  | succ depth ih =>
    exact ⟨fun scope id h => ih.queryStep h scope id,
      fun scope id h => ih.expressionStep h (hcheck depth ih) scope id⟩

end SqlTyping
