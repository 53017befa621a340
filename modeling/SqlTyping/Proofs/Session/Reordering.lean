import SqlTyping.Proofs.Scope.Reordering
import SqlTyping.Proofs.Session.Casting

namespace SqlTyping

/-!
# Validation and the order of bindings

Once a query block has bound its names, their order does not matter to anything that is validated in it
or below it, unless all columns of the block are asked for:

* `Session.Reorders` — two sessions that differ only in the order in which one block binds its names;
* `mirrors_of_blind` — a step that does not look at scopes is the same in both;
* `Visit.Reorders` — what lies below a node is validated alike;
* `visitAt_reorders` — this holds of validation to any depth, in every scope, the block included;
* `Visit.Reorders.selectTail` — so what follows the FROM list of a SELECT without a star is validated alike.
-/

open Checking

/-- The sessions differ only in the order in which the query block `block` binds its names. -/
inductive Session.Reorders (block : ScopeId) : Session → Session → Prop
  | of_scopes (s : Session) (scopes : ScopeTree)
    (h : s.scopes.Reorders s.settings.matching block scopes) : Reorders block s { s with scopes }

/-- What is validated below a node does not depend on the order of the bindings. -/
structure Visit.Reorders (block : ScopeId) (v : Visit) : Prop where
  query : ∀ scope id, (v.query scope id).Mirrors (Session.Reorders block) (v.query scope id)
  expression : ∀ scope id,
    (v.expression scope id).Mirrors (Session.Reorders block) (v.expression scope id)

variable {block : ScopeId}

/-! ### Elementary changes -/

section

variable {α : Type} {x : Validation α} {s t : Session}

/-- A step that neither looks at scopes nor changes them is the same in both sessions. -/
theorem mirrors_of_blind (h : ∀ s scopes, x { s with scopes } = ((x s).1, { (x s).2 with scopes }))
    (hkept : ∀ s, (x s).2.scopes = s.scopes ∧ (x s).2.settings = s.settings) :
    x.Mirrors (Session.Reorders block) x := by
  rintro s _ ⟨scopes, hs⟩
  obtain ⟨hscopes, hsettings⟩ := hkept s
  have hblind := h s scopes
  have hafter : Session.Reorders block (x s).2 { (x s).2 with scopes } :=
    .of_scopes _ _ (by rw [hscopes, hsettings]; exact hs)
  cases hx : x s with
  | mk r s' =>
    rw [hx] at hblind hafter
    cases r with
    | ok a => exact .ok hx hblind rfl hafter
    | error e => exact .stop hx hblind hafter

theorem reorders_node (id : NodeId) :
    (Validation.node id).Mirrors (Session.Reorders block) (Validation.node id) := by
  refine mirrors_of_blind (fun s scopes => ?_) fun s => ?_
  · simp only [Validation.node]
    cases s.tree.node? id <;> rfl
  · simp only [Validation.node]
    cases s.tree.node? id <;> exact ⟨rfl, rfl⟩

theorem reorders_record (id : NodeId) (type : DataType) :
    (Validation.record id type).Mirrors (Session.Reorders block) (Validation.record id type) :=
  mirrors_of_blind (fun _ _ => rfl) fun _ => ⟨rfl, rfl⟩

theorem reorders_register (node : NodeId) (kind : SourceKind) (enclosing : Option NodeId) :
    (Validation.register node kind enclosing).Mirrors (Session.Reorders block)
      (Validation.register node kind enclosing) :=
  mirrors_of_blind (fun _ _ => rfl) fun _ => ⟨rfl, rfl⟩

theorem reorders_selfView (item : NodeId) :
    (Validation.selfView item).Mirrors (Session.Reorders block) (Validation.selfView item) := by
  refine mirrors_of_blind (fun s scopes => ?_) fun s => ?_
  · simp only [Validation.selfView_apply]
    cases s.sources.selfView item <;> rfl
  · simp only [Validation.selfView_apply]
    cases s.sources.selfView item <;> exact ⟨rfl, rfl⟩

theorem reorders_setRow (source : SourceId) (row : DataType) :
    (Validation.setRow source row).Mirrors (Session.Reorders block) (Validation.setRow source row) := by
  refine mirrors_of_blind (fun s scopes => ?_) fun s => ?_
  · simp only [Validation.setRow_apply]
    cases s.sources.setRow source row <;> rfl
  · simp only [Validation.setRow_apply]
    cases s.sources.setRow source row <;> exact ⟨rfl, rfl⟩

/-- The scopes are changed alike. -/
theorem reorders_onScopes {P : α → Prop} {change : ScopeTree → Except Fault (α × ScopeTree)}
    (h : ∀ {s : Session} {scopes}, s.scopes.Reorders s.settings.matching block scopes →
      AnswersAlike (fun x y => y.1 = x.1 ∧ P x.1 ∧ x.2.Reorders s.settings.matching block y.2)
        (change s.scopes) (change scopes)) (hst : Session.Reorders block s t) :
    EndAlike (Session.Reorders block) (fun a b => a = b ∧ P a) s t (Validation.onScopes change)
      (Validation.onScopes change) := by
  obtain ⟨scopes, hs⟩ := hst
  have halike := h hs
  cases hx : change s.scopes with
  | error e =>
    rw [hx] at halike
    generalize hy : change scopes = r at halike
    cases halike
    have hx' : Validation.onScopes change s = (.error e, s) := by simp only [Validation.onScopes, hx]
    have hy' : Validation.onScopes change { s with scopes } = (.error e, { s with scopes }) := by
      simp only [Validation.onScopes, hy]
    exact .stop hx' hy' (.of_scopes s _ hs)
  | ok a =>
    rw [hx] at halike
    generalize hy : change scopes = r at halike
    cases halike with
    | @ok _ b hab =>
      have hx' : Validation.onScopes change s = (.ok a.1, { s with scopes := a.2 }) := by
        simp only [Validation.onScopes, hx]
      have hy' : Validation.onScopes change { s with scopes } = (.ok b.1, { s with scopes := b.2 }) := by
        simp only [Validation.onScopes, hy]
      exact .ok hx' hy' ⟨hab.1.symm, hab.2.1⟩ (.of_scopes { s with scopes := a.2 } _ hab.2.2)

/-- A new scope is never the block. -/
theorem reorders_newScope (parent : ScopeId) (role : ScopeRole) (node : Option NodeId)
    (h : Session.Reorders block s t) :
    EndAlike (Session.Reorders block) (fun a b => a = b ∧ a ≠ block) s t
      (Validation.onScopes (·.newScope parent role node))
      (Validation.onScopes (·.newScope parent role node)) :=
  reorders_onScopes (fun hs => hs.newScope parent role node) h

/-- The same scope is added. -/
theorem reorders_newScope_eq (parent : ScopeId) (role : ScopeRole) (node : Option NodeId) :
    (Validation.onScopes (·.newScope parent role node)).Mirrors (Session.Reorders block)
      (Validation.onScopes (·.newScope parent role node)) := by
  intro s t h
  obtain ⟨a, b, s', t', hx, hy, hab, h'⟩ | ⟨e, s', t', hx, hy, h'⟩ :=
    (reorders_newScope parent role node h).ends
  · exact .ok hx hy hab.1 h'
  · exact .stop hx hy h'

theorem reorders_bindName {scope : ScopeId} (hscope : scope ≠ block) (name : String)
    (source : SourceId) :
    (Validation.bindName scope name source).Mirrors (Session.Reorders block)
      (Validation.bindName scope name source) := by
  intro s t h
  have hend : EndAlike (Session.Reorders block) (fun a b => a = b ∧ True) s t
      (Validation.bindName scope name source) (Validation.bindName scope name source) := by
    refine reorders_onScopes (fun hs => ?_) h
    exact (hs.addBinding hscope { names := [name], source, nullable := false }).map
      fun _ _ hab => ⟨rfl, trivial, hab⟩
  obtain ⟨a, b, s', t', hx, hy, hab, h'⟩ | ⟨e, s', t', hx, hy, h'⟩ := hend.ends
  · exact .ok hx hy hab.1 h'
  · exact .stop hx hy h'

end

/-! ### Names -/

section

variable {s : Session} {scopes : ScopeTree} (h : s.scopes.Reorders s.settings.matching block scopes)

include h

omit h in
/-- The column of a table that was found is the same. -/
theorem columnType_reorders (names : List String) {found found' : TableMatch}
    (hf : found.SameTable found') :
    Session.columnType { s with scopes } names found' = s.columnType names found := by
  unfold Session.columnType Path.text
  rw [hf.remaining, hf.source, hf.nullable, hf.path]

/-- A column reference has the same type, or is refused in the same words. -/
theorem referenceType_reorders (scope : ScopeId) (names : List String) :
    Session.referenceType { s with scopes } scope names = s.referenceType scope names := by
  unfold Session.referenceType
  split
  · rfl
  · rw [h.lookupColumn]
  · have hlookup := h.lookupTable scope names s.sources
    have hcatalog : ∀ id, Session.isCatalog { s with scopes } id = s.isCatalog id := by
      intro id
      unfold Session.isCatalog
      cases hid : s.scopes.get? id with
      | none => rw [h.get?_of_none hid]
      | some found =>
        obtain ⟨bindings, hu⟩ := h.exists_get? hid
        rw [hu]
    unfold Session.qualifiedType
    generalize s.scopes.lookupTable scope names s.settings.matching .empty s.sources = r,
      scopes.lookupTable scope names s.settings.matching .empty s.sources = r' at hlookup
    cases hlookup with
    | error e => rfl
    | ok hab =>
      cases hab with
      | none => rfl
      | some hab => simp only [hcatalog, hab.scope, columnType_reorders names hab]

end

/-! ### Queries -/

/-- A table that has been found is shown. -/
theorem reorders_exposeTable {scope : ScopeId} (hscope : scope ≠ block) (entry : NodeId)
    (name : List String) (label : Option String) (row : Option DataType) (source : SourceId) :
    (exposeTable scope entry name label row source).Mirrors (Session.Reorders block)
      (exposeTable scope entry name label row source) := by
  unfold exposeTable
  split
  · exact mirrors_fail _
  · cases row with
    | none => exact reorders_bindName hscope _ _
    | some row => exact (reorders_record entry row).bind fun _ => reorders_bindName hscope _ _

/-- A table of a FROM list is bound. -/
theorem reorders_bindTable (parent : ScopeId) {scope : ScopeId} (hscope : scope ≠ block) (entry : NodeId)
    (name : List String) (label : Option String) :
    (bindTable parent scope entry name label).Mirrors (Session.Reorders block)
      (bindTable parent scope entry name label) := by
  rintro s _ ⟨scopes, hs⟩
  rw [bindTable_eq]
  refine .state_bind ((Follows.ofExcept (.of_scopes s _ hs) (hs.requireTable parent name s.sources)).bind
    fun found found' s₁ t₁ _ hf h₁ => ?_)
  rw [hf.remaining, hf.source]
  refine Mirrors.ite (mirrors_fail _) (Mirrors.ite ?_ ?_) s₁ t₁ h₁
  · exact (mirrors_of_blind (fun _ _ => rfl) fun _ => ⟨rfl, rfl⟩).bind fun _ =>
      reorders_exposeTable hscope entry name label _ _
  · exact reorders_exposeTable hscope entry name label _ _

namespace Visit.Reorders

variable {v : Visit} (hv : v.Reorders block)

include hv

/-- An entry of a FROM list is bound. -/
theorem bindSource (parent : ScopeId) {scope : ScopeId} (hscope : scope ≠ block) (select entry : NodeId) :
    (SqlTyping.bindSource v parent scope select entry).Mirrors (Session.Reorders block)
      (SqlTyping.bindSource v parent scope select entry) := by
  refine (reorders_node entry).bind fun n => ?_
  cases n with
  | tableRef name label => exact reorders_bindTable parent hscope entry name label
  | subqueryRef query label =>
    refine (hv.query parent query).bind fun row => ?_
    rw [Host.lift_self]
    refine (reorders_register entry .query (some select)).bind fun source => ?_
    refine (reorders_setRow source row).bind fun _ => ?_
    exact (reorders_record entry row).bind fun _ => reorders_bindName hscope label source
  | _ => exact mirrors_fail _

/-- An entry of a SELECT list adds the same columns, unless it asks for all columns of the block. -/
theorem itemColumns (scope : ScopeId) (columns : Columns) (place : Nat) {item : SelectItem}
    (hstar : item = .star → scope ≠ block) :
    (SqlTyping.itemColumns v scope columns place item).Mirrors (Session.Reorders block)
      (SqlTyping.itemColumns v scope columns place item) := by
  cases item with
  | star =>
    rintro s _ ⟨scopes, hs⟩
    refine .state_bind (.pure (.of_scopes s _ hs) ?_)
    simp only [hs.other scope (hstar rfl)]
  | expression id label =>
    exact (hv.expression scope id).bind fun type => (reorders_node id).bind fun n => mirrors_pure _

theorem selectColumns (scope : ScopeId) (columns : Columns) (place : Nat) {items : List SelectItem}
    (hstar : .star ∈ items → scope ≠ block) :
    (SqlTyping.selectColumns v scope columns place items).Mirrors (Session.Reorders block)
      (SqlTyping.selectColumns v scope columns place items) := by
  induction items generalizing columns place with
  | nil => exact mirrors_pure _
  | cons item rest ih =>
    refine (hv.itemColumns scope columns place fun heq => hstar (heq ▸ List.mem_cons_self ..)).bind
      fun columns => ih columns (place + 1) fun hmem => hstar (List.mem_cons_of_mem _ hmem)

/-- What follows the FROM list of a SELECT. -/
theorem selectTail (scope : ScopeId) {select : SelectBlock}
    (hstar : .star ∈ select.items → scope ≠ block) :
    (SqlTyping.selectTail v scope select).Mirrors (Session.Reorders block)
      (SqlTyping.selectTail v scope select) := by
  have hcolumns := (hv.selectColumns scope [] 0 hstar).bind fun columns =>
    mirrors_pure (M := Session.Reorders block) (DataType.row columns)
  unfold SqlTyping.selectTail
  cases select.condition with
  | none => exact hcolumns
  | some condition => exact (hv.expression scope condition).bind fun _ => hcolumns

/-- A SELECT has the same row type. Its own scope is a new one. -/
theorem selectRow (parent : ScopeId) (id : NodeId) (select : SelectBlock) :
    (SqlTyping.selectRow v parent id select).Mirrors (Session.Reorders block)
      (SqlTyping.selectRow v parent id select) := by
  intro s t h
  rw [selectRow_eq]
  refine (reorders_newScope parent .block (some id) h).bind fun scope _ s₁ t₁ _ hscope h₁ => ?_
  obtain ⟨rfl, hne⟩ := hscope
  refine Mirrors.bind ?_ (fun _ => hv.selectTail scope fun _ => hne) s₁ t₁ h₁
  induction select.sources with
  | nil => exact mirrors_pure _
  | cons entry rest ih => exact (hv.bindSource parent hne id entry).bind fun _ => ih

/-- A recursive item has the same row type. -/
theorem recursiveRow (parent : ScopeId) (id : NodeId) (name : String) (item : WithItem) :
    (SqlTyping.recursiveRow v parent id name item).Mirrors (Session.Reorders block)
      (SqlTyping.recursiveRow v parent id name item) := by
  refine (reorders_node item.query).bind fun n => ?_
  cases n with
  | setOperation operation =>
    refine (reorders_selfView id).bind fun view => ?_
    refine (hv.query parent operation.left).bind fun anchor => ?_
    refine Mirrors.bind (fun _ _ h => .ofExcept_eq h _) fun row => ?_
    refine (reorders_setRow view row).bind fun _ => ?_
    exact (reorders_newScope_eq parent _ (some id)).bind fun scope => hv.query scope item.query
  | _ => exact mirrors_fail _

/-- A WITH item is shown by the same scope. -/
theorem bindWithItem (parent : ScopeId) (id : NodeId) :
    (SqlTyping.bindWithItem v parent id).Mirrors (Session.Reorders block)
      (SqlTyping.bindWithItem v parent id) := by
  refine (reorders_node id).bind fun n => ?_
  cases n with
  | withItem item =>
    refine (reorders_register id .withItem none).bind fun source => ?_
    have hrest : ∀ body : DataType, (do
        let row ← Checking.ofExcept (renamed (qualifiedName item.name) item.columns body)
        Validation.setRow source row
        Validation.record id row
        Validation.onScopes (·.newWithItem parent id (qualifiedName item.name)) :
          Validation ScopeId).Mirrors (Session.Reorders block) (do
        let row ← Checking.ofExcept (renamed (qualifiedName item.name) item.columns body)
        Validation.setRow source row
        Validation.record id row
        Validation.onScopes (·.newWithItem parent id (qualifiedName item.name))) := fun body =>
      Mirrors.bind (fun _ _ h => .ofExcept_eq h _) fun row =>
        (reorders_setRow source row).bind fun _ => (reorders_record id row).bind fun _ =>
          reorders_newScope_eq parent _ (some id)
    exact Mirrors.ite ((hv.recursiveRow parent id _ item).bind hrest)
      ((hv.query parent item.query).bind hrest)
  | _ => exact mirrors_fail _

/-- A WITH query has the same row type. -/
theorem withRow (scope : ScopeId) (body : NodeId) (items : List NodeId) :
    (SqlTyping.withRow v scope body items).Mirrors (Session.Reorders block)
      (SqlTyping.withRow v scope body items) := by
  induction items generalizing scope with
  | nil => exact hv.query scope body
  | cons item rest ih => exact (hv.bindWithItem scope item).bind fun inner => ih inner

/-- A query does not depend on the order when what lies below it does not. -/
theorem queryStep (scope : ScopeId) (id : NodeId) :
    (SqlTyping.queryStep v scope id).Mirrors (Session.Reorders block)
      (SqlTyping.queryStep v scope id) := by
  refine (reorders_node id).bind fun n => Mirrors.bind ?_ fun row =>
    (reorders_record id row).bind fun _ => mirrors_pure row
  cases n with
  | select select => exact hv.selectRow scope id select
  | setOperation operation =>
    exact (hv.query scope operation.left).bind fun left =>
      (hv.query scope operation.right).bind fun right _ _ h => .ofExcept_eq h _
  | withQuery items body => exact hv.withRow scope body items
  | _ => exact mirrors_fail _

end Visit.Reorders

/-! ### Calls -/

/-- The frames of a call differ in their sessions only. -/
structure CallFrame.Reorders (block : ScopeId) (f g : CallFrame) : Prop where
  session : f.session.Reorders block g.session
  operands : g.operands = f.operands

theorem reorders_padded (signature : Signature) (operands : List NodeId) :
    (padded signature operands).Mirrors (Session.Reorders block) (padded signature operands) := by
  refine mirrors_of_blind (fun s scopes => ?_) fun s => ?_
  · simp only [padded_apply]
    split <;> rfl
  · rw [padded_apply]
    split <;> exact ⟨rfl, rfl⟩

/-- The types of casts are recorded. -/
theorem reorders_recordCasts (type : DataType) (casts : List (NodeId × CastTarget)) :
    (recordCasts type casts).Mirrors (Session.Reorders block) (recordCasts type casts) := by
  induction casts with
  | nil => exact mirrors_pure type
  | cons cast rest ih =>
    exact ih.bind fun operand => (reorders_record cast.1 _).bind fun _ => mirrors_pure _

section

variable {s t : Session} (h : s.Reorders block t)

include h

theorem Session.Reorders.tree_eq : t.tree = s.tree := by
  obtain ⟨scopes, -⟩ := h
  rfl

theorem Session.Reorders.withTree (tree : Tree) : Reorders block { s with tree } { t with tree } := by
  obtain ⟨scopes, hs⟩ := h
  exact .of_scopes { s with tree } scopes hs

theorem Session.Reorders.note (request : CoercionRequest) :
    Reorders block { s with requests := s.requests ++ [request] }
      { t with requests := t.requests ++ [request] } := by
  obtain ⟨scopes, hs⟩ := h
  exact .of_scopes { s with requests := s.requests ++ [request] } scopes hs

end

namespace Visit.Reorders

variable {v : Visit} (hv : v.Reorders block)

include hv

/-- The type of an expression is recorded in both sessions or in none. -/
theorem recorded (scope : ScopeId) (id : NodeId) :
    (v.recorded scope id).Mirrors (Session.Reorders block) (v.recorded scope id) := by
  rintro s _ ⟨scopes, hs⟩
  refine .state_bind ?_
  cases s.types.get? id with
  | some type => exact .pure (.of_scopes s _ hs) rfl
  | none => exact hv.expression scope id s _ (.of_scopes s _ hs)

theorem visitOperands (scope : ScopeId) (signature : Signature) (index : Nat)
    (operands : List NodeId) :
    (SqlTyping.visitOperands v scope signature index operands).Mirrors (Session.Reorders block)
      (SqlTyping.visitOperands v scope signature index operands) := by
  induction operands generalizing index with
  | nil => exact mirrors_pure ()
  | cons operand rest ih =>
    unfold SqlTyping.visitOperands
    exact Mirrors.ite ((hv.expression scope operand).bind fun _ => ih (index + 1)) (ih (index + 1))

theorem operandTypes (scope : ScopeId) (signature : Signature) (index : Nat)
    (operands : List NodeId) :
    (SqlTyping.operandTypes v scope signature index operands).Mirrors (Session.Reorders block)
      (SqlTyping.operandTypes v scope signature index operands) := by
  induction operands generalizing index with
  | nil => exact mirrors_pure []
  | cons operand rest ih =>
    have hrest := fun type : DataType => (ih (index + 1)).bind fun types =>
      mirrors_pure (M := Session.Reorders block) (type :: types)
    unfold SqlTyping.operandTypes
    exact Mirrors.ite ((mirrors_pure _).bind hrest) ((hv.recorded scope operand).bind hrest)

theorem typeOf (scope : ScopeId) (op : Operator) (index : Nat) :
    (CallFrame.typeOf v scope op index).Mirrors (CallFrame.Reorders block)
      (CallFrame.typeOf v scope op index) := by
  intro f g h
  refine .state_bind ?_
  rw [h.operands]
  cases f.operands[index]? with
  | none => exact .fail h
  | some operand =>
    refine .ite (fun _ => .pure h rfl) fun _ => ?_
    exact (hv.recorded scope operand _ _ h.session).focus fun s' t' h' => ⟨h', h.operands⟩

/-- Both calls get the same cast, or none. -/
theorem castTo (scope : ScopeId) (call : NodeId) (index : Nat) (target : DataType) :
    (CallFrame.castTo v scope call index target).Mirrors (CallFrame.Reorders block)
      (CallFrame.castTo v scope call index target) := by
  intro f g h
  have hgrown := h.session.withTree
  refine CallFrame.endAlike_castTo_of_same (Q := Eq) h h.operands h.session.tree_eq rfl
    (fun tree => ⟨hgrown tree, h.operands⟩) fun tree => ?_
  exact (hv.expression scope f.session.tree.nextId _ _ (hgrown tree)).imp fun h' operands => ⟨h', rfl⟩

/-- The operator's check sees the same call. -/
theorem callView (scope : ScopeId) (call : NodeId) (op : Operator) (settings : Settings)
    (engine : CoercionEngine) :
    CallView.Alike .equality (CallFrame.Reorders block) (CallFrame.view v scope call op settings engine)
      (CallFrame.view v scope call op settings engine) where
  operator := rfl
  coerces := rfl
  engine := rfl
  count h := congrArg List.length h.operands
  isNull index h := CallFrame.isNull_congr h.operands h.session.tree_eq index
  isDefault index h := CallFrame.isDefault_congr h.operands h.session.tree_eq index
  typeOf index f g h := hv.typeOf scope op index f g h
  note := by
    intro f g request request' hrequest h
    rw [hrequest.eq]
    exact ⟨h.session.note request, h.operands⟩

/-- The operator's check of a call comes to the same, whatever the engine. -/
theorem checkCall (scope : ScopeId) (call : NodeId) (op : Operator) (operands : List NodeId) :
    (SqlTyping.checkCall v scope call op operands).Mirrors (Session.Reorders block)
      (SqlTyping.checkCall v scope call op operands) := by
  rintro s _ ⟨scopes, hs⟩
  have hview := CallView.Mirrors.of_castTo (hv.callView scope call op s.settings s.engine)
    (CoercionEngine.respects_equality _) fun index target target' htarget => by
      obtain rfl : target = target' := htarget
      exact hv.castTo scope call index target
  exact (hview.check op.signature (fun _ _ _ _ _ _ _ => trivial) ⟨s, operands⟩
    ⟨{ s with scopes }, operands⟩ ⟨.of_scopes s _ hs, rfl⟩).within rfl rfl fun _ _ h => h.session

/-- A call has the same type. -/
theorem callType (scope : ScopeId) (call : NodeId) (name : String) (operands : List NodeId) :
    (SqlTyping.callType v scope call name operands).Mirrors (Session.Reorders block)
      (SqlTyping.callType v scope call name operands) := by
  rintro s _ ⟨scopes, hs⟩
  unfold SqlTyping.callType
  refine .state_bind ?_
  have hafter : Session.Reorders block s { s with scopes } := .of_scopes s _ hs
  cases s.operators.lookup? name with
  | none => exact .fail hafter
  | some op =>
    refine .ite (fun _ => .fail hafter) fun _ => ?_
    refine ((reorders_padded op.signature operands).bind fun all => ?_) s _ hafter
    refine (hv.visitOperands scope op.signature 0 operands).bind fun _ => ?_
    refine (hv.checkCall scope call op all).bind fun _ => ?_
    -- The operands are read again: casts may have been put around them.
    rintro s' _ ⟨scopes', hs'⟩
    refine .state_bind (((hv.operandTypes scope op.signature 0 _).bind fun types => ?_) s' _
      (.of_scopes s' _ hs'))
    exact fun _ _ h => .ofExcept_eq h _

/-- An expression that is no cast has the same type. -/
theorem expressionType (scope : ScopeId) (id : NodeId) (n : Node) :
    (SqlTyping.expressionType v scope id n).Mirrors (Session.Reorders block)
      (SqlTyping.expressionType v scope id n) := by
  cases n with
  | literal value => exact mirrors_pure _
  | identifier names =>
    rintro s _ ⟨scopes, hs⟩
    refine .state_bind ?_
    rw [referenceType_reorders hs]
    exact .ofExcept_eq (.of_scopes s _ hs) _
  | call name operands => exact hv.callType scope id name operands
  | cursor query => exact (hv.query scope query).bind fun _ => mirrors_pure _
  | default => exact mirrors_pure _
  | _ => exact mirrors_fail _

/-- An expression does not depend on the order when what lies below it does not. -/
theorem expressionStep (scope : ScopeId) (id : NodeId) :
    (SqlTyping.expressionStep v scope id).Mirrors (Session.Reorders block)
      (SqlTyping.expressionStep v scope id) := by
  rintro s _ ⟨scopes, hs⟩
  unfold SqlTyping.expressionStep
  refine .state_bind ?_
  refine ((reorders_node _).bind fun n => (hv.expressionType scope _ n).bind fun type => ?_) s _
    (.of_scopes s _ hs)
  exact (reorders_record _ type).bind fun _ => reorders_recordCasts type _

end Visit.Reorders

/-- Validation to any depth does not depend on the order in which the block binds its names. -/
theorem visitAt_reorders (block : ScopeId) (depth : Nat) : (visitAt depth).Reorders block := by
  induction depth with
  | zero => exact ⟨fun _ _ => mirrors_fail _, fun _ _ => mirrors_fail _⟩
  | succ depth ih => exact ⟨ih.queryStep, ih.expressionStep⟩

end SqlTyping
