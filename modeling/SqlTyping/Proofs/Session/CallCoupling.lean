import SqlTyping.Proofs.Session.Casting
import SqlTyping.Proofs.Session.Coupling
import SqlTyping.Proofs.Signature.Keywords

namespace SqlTyping

/-!
# Calls and expressions of which the same is looked at

Calls whose operands agree but for keywords, and the recursion that ties queries and expressions
together:

* `CallFrame.Couples` — two frames of a call with such operands;
* `Visit.Couples.castTo` — a cast is put around the same operand of both, if it is no keyword;
* `Visit.Couples.callType` — the call gets the same type in both sessions;
* `Visit.over` — the recursion of validation, with anything in the place of its refusals;
* `visitAt_couples` — the two statements are validated alike, and nothing that is seen is refused for
  lying below itself.
-/

open Checking

variable {c : Coupling} {past : Tree} {s t : Session} {v v' : Visit} {depth : Nat} {scope : ScopeId}
  {id : NodeId}

/-- What has become of two sessions since now has become of them since before. -/
theorem Session.Couples.since_past {α β : Type} {Q : α → β → Prop} {x : Validation α} {y : Validation β}
    (h : s.Couples c past t) (hend : s.Couples c s.tree t →
      EndAlike (Session.Couples c s.tree) Q s t x y) :
    EndAlike (Session.Couples c past) Q s t x y :=
  (hend { h with since := ⟨h.since.1, .refl _ _⟩ }).imp fun h' =>
    { h' with since := ⟨h'.since.1, h.since.2.trans h'.since.2⟩ }

/-- A call is one in both statements. -/
theorem Session.Couples.call_of_call (h : s.Couples c past t) (ha : c.sees id) {name : String}
    {operands : List NodeId} (hn : s.tree.node? id = some (.call name operands)) :
    ∃ operands', t.tree.node? id = some (.call name operands') ∧
      operands'.length = operands.length ∧
        ∀ op, c.operators.lookup? name = some op → ∀ index operand operand',
          operands[index]? = some operand → operands'[index]? = some operand' →
            (op.signature.isKeyword index = false → operand' = c.shift.node operand) ∧
            (op.signature.isKeyword index = true → c.spare operand operand') := by
  have hnode := c.node h.trees (.inl ha)
  rw [c.node_eq ha, hn] at hnode
  generalize t.tree.node? id = n' at hnode
  cases hnode with
  | some hcouples =>
    cases hcouples with
    | other hother => cases hother
    | call hlength hseen hspare =>
      exact ⟨_, rfl, hlength, fun op hop index operand operand' ho ho' =>
        ⟨hseen op hop index operand operand' ho ho', hspare op hop index operand operand' ho ho'⟩⟩

/-! ### Operands -/

/-- Operands of a call in the same place. -/
def Coupling.Places (c : Coupling) (keyword : Bool) (operand operand' : NodeId) : Prop :=
  c.Knows operand ∧ operand' = c.shift.node operand ∨ keyword = true ∧ c.spare operand operand'

theorem Coupling.Places.eq {operand operand' : NodeId} (h : c.Places false operand operand') :
    c.Knows operand ∧ operand' = c.shift.node operand :=
  h.elim id fun h => absurd h.1 Bool.false_ne_true

/-- Operands in the same place are both omitted or both not. -/
theorem Coupling.Places.isDefault {u u' : Tree} {keyword : Bool} {operand operand' : NodeId}
    (h : c.Places keyword operand operand') (ht : c.trees u u') :
    (u'.node? operand').any Node.isDefault = (u.node? operand).any Node.isDefault := by
  rcases h with ⟨hknows, rfl⟩ | ⟨-, hspare⟩
  · have hnode := c.node ht hknows
    generalize u.node? operand = n, u'.node? (c.shift.node operand) = n' at hnode
    cases hnode with
    | none => rfl
    | some hcouples =>
      cases hcouples with
      | other => simp
      | call => rfl
  · exact c.isDefault_spare ht hspare

/-- Operands in a place that is no keyword are both the NULL literal or both not. -/
theorem Coupling.Places.isNull {u u' : Tree} {operand operand' : NodeId}
    (h : c.Places false operand operand') (ht : c.trees u u') :
    (u'.node? operand').any Node.isNullLiteral = (u.node? operand).any Node.isNullLiteral := by
  obtain ⟨hknows, rfl⟩ := h.eq
  have hnode := c.node ht hknows
  generalize u.node? operand = n, u'.node? (c.shift.node operand) = n' at hnode
  cases hnode with
  | none => rfl
  | some hcouples =>
    cases hcouples with
    | other => simp
    | call => rfl

/-- Lists of operands from `start` on, of which those that are no keywords are parts. -/
structure Coupling.Lists (c : Coupling) (signature : Signature) (depth : Nat) (past : Tree)
    (start : Nat) (operands operands' : List NodeId) : Prop where
  length : operands'.length = operands.length
  operand : ∀ index {operand operand'}, operands[index]? = some operand →
    operands'[index]? = some operand' → signature.isKeyword (start + index) = false →
      operand' = c.shift.node operand ∧ c.IsPart depth past operand

/-- The operands behind the first one. -/
theorem Coupling.Lists.tail {signature : Signature} {start : Nat} {operand operand' : NodeId}
    {rest rest' : List NodeId}
    (h : c.Lists signature depth past start (operand :: rest) (operand' :: rest')) :
    c.Lists signature depth past (start + 1) rest rest' where
  length := Nat.succ.inj h.length
  operand index _ _ ho ho' hkey :=
    h.operand (index + 1) ho ho' (by rwa [Nat.add_right_comm, Nat.add_assoc] at hkey)

namespace Visit.Couples

variable (hv : Visit.Couples c depth v v') (h : s.Couples c past t)

include hv h

/-- The type of an expression is recorded in both sessions or in none. -/
theorem recorded (hid : c.IsPart depth s.tree id) (scope : ScopeId) :
    EndAlike (Session.Couples c past) Eq s t (v.recorded scope id)
      (v'.recorded scope (c.shift.node id)) := by
  refine .state_bind ?_
  rw [Host.session_self, Host.session_self, c.get? h.types hid.knows]
  cases s.types.get? id with
  | some type => exact .pure h rfl
  | none => exact hv.expression scope id h hid

/-- The written operands are validated alike. -/
theorem visitOperands {signature : Signature} {start : Nat} {operands operands' : List NodeId}
    (hl : c.Lists signature depth past start operands operands') (scope : ScopeId) :
    EndAlike (Session.Couples c past) Eq s t
      (SqlTyping.visitOperands v scope signature start operands)
      (SqlTyping.visitOperands v' scope signature start operands') := by
  induction operands generalizing s t start operands' with
  | nil =>
    obtain rfl := List.length_eq_zero_iff.mp hl.length
    exact .pure h rfl
  | cons operand rest ih =>
    cases operands' with
    | nil => cases hl.length
    | cons operand' rest' =>
      unfold SqlTyping.visitOperands
      refine .ite (fun hkey => ?_) fun _ => ih h hl.tail
      obtain ⟨rfl, hpart⟩ := hl.operand 0 rfl rfl (by simpa using hkey)
      exact (hv.expression scope operand h (hpart.mono h.since.2)).bind fun _ _ s₁ t₁ _ _ h₁ =>
        ih h₁ hl.tail

/-- The operands have the same types. -/
theorem operandTypes {signature : Signature} {start : Nat} {operands operands' : List NodeId}
    (hl : c.Lists signature depth past start operands operands') (scope : ScopeId) :
    EndAlike (Session.Couples c past) Eq s t
      (SqlTyping.operandTypes v scope signature start operands)
      (SqlTyping.operandTypes v' scope signature start operands') := by
  induction operands generalizing s t start operands' with
  | nil =>
    obtain rfl := List.length_eq_zero_iff.mp hl.length
    exact .pure h rfl
  | cons operand rest ih =>
    cases operands' with
    | nil => cases hl.length
    | cons operand' rest' =>
      have hrest : ∀ type s' t', Session.Couples c past s' t' →
          EndAlike (Session.Couples c past) Eq s' t' (do
            let types ← SqlTyping.operandTypes v scope signature (start + 1) rest
            Pure.pure (type :: types) : Validation (List DataType)) (do
            let types ← SqlTyping.operandTypes v' scope signature (start + 1) rest'
            Pure.pure (type :: types)) := fun type s' t' h' =>
        (ih h' hl.tail).bind fun _ _ s'' t'' _ heq h'' => .pure h'' (heq ▸ rfl)
      unfold SqlTyping.operandTypes
      refine Follows.ite (fun _ => ?_) fun hkey => ?_
      · exact (hrest .symbol s t h).of_apply rfl rfl
      · obtain ⟨rfl, hpart⟩ := hl.operand 0 rfl rfl (by simpa using hkey)
        refine (hv.recorded h (hpart.mono h.since.2) scope).bind fun type _ s₁ t₁ _ heq h₁ => ?_
        subst heq
        exact hrest type s₁ t₁ h₁

end Visit.Couples

/-- Parts stay parts while nodes are added. -/
theorem Coupling.Lists.mono {signature : Signature} {start : Nat} {operands operands' : List NodeId}
    {u : Tree} (h : c.Lists signature depth past start operands operands')
    (hk : Tree.KeepsAdded c.before past u) : c.Lists signature depth u start operands operands' where
  length := h.length
  operand index _ _ ho ho' hkey := (h.operand index ho ho' hkey).imp_right fun hpart => hpart.mono hk

/-! ### The operator's check -/

/-- The frames of a call of the operator have the same operands but for keywords. -/
structure CallFrame.Couples (c : Coupling) (past : Tree) (op : Operator) (written : List NodeId)
    (f g : CallFrame) : Prop where
  session : f.session.Couples c past g.session
  tracks : f.Tracks c.before written
  length : g.operands.length = f.operands.length
  operand : ∀ {index operand operand'}, f.operands[index]? = some operand →
    g.operands[index]? = some operand' → c.Places (op.signature.isKeyword index) operand operand'

section

variable {f g : CallFrame} {call : NodeId} {name : String} {written : List NodeId} {op : Operator}

namespace CallFrame.Couples

/-- What an operand is, in both frames. -/
theorem operand? (h : CallFrame.Couples c past op written f g) (index : Nat) :
    Option.Rel (c.Places (op.signature.isKeyword index)) f.operands[index]? g.operands[index]? := by
  cases ho : f.operands[index]? with
  | none =>
    have hi := List.getElem?_eq_none_iff.mp ho
    rw [List.getElem?_eq_none_iff.mpr (by rw [h.length]; exact hi)]
    exact .none
  | some operand =>
    have hi : index < g.operands.length := by
      rw [h.length]
      exact (List.getElem?_eq_some_iff.mp ho).1
    have ho' := List.getElem?_eq_getElem hi
    rw [ho']
    exact .some (h.operand ho ho')

theorem isDefault (h : CallFrame.Couples c past op written f g) (index : Nat) :
    g.isDefault index = f.isDefault index := by
  have hoperand := h.operand? index
  unfold CallFrame.On.isDefault CallFrame.On.node?
  generalize f.operands[index]? = o, g.operands[index]? = o' at hoperand
  cases hoperand with
  | none => rfl
  | some hplaces => exact hplaces.isDefault h.session.trees

theorem isNull (h : CallFrame.Couples c past op written f g) {index : Nat}
    (hkey : op.signature.isKeyword index = false) : g.isNull index = f.isNull index := by
  have hoperand := h.operand? index
  rw [hkey] at hoperand
  unfold CallFrame.On.isNull CallFrame.On.node?
  generalize f.operands[index]? = o, g.operands[index]? = o' at hoperand
  cases hoperand with
  | none => rfl
  | some hplaces => exact hplaces.isNull h.session.trees

/-- The frames have the sessions that are reached and the same operands. -/
theorem of_session (h : CallFrame.Couples c past op written f g) {s' t' : Session}
    (h' : s'.Couples c f.session.tree t') :
    CallFrame.Couples c past op written { f with session := s' } { g with session := t' } where
  session := { h' with since := ⟨h'.since.1, h.session.since.2.trans h'.since.2⟩ }
  tracks := h.tracks.onSession h'.since.1 h'.since.2
  length := h.length
  operand := h.operand

/-- An operand is replaced by the nodes that come next. -/
theorem inserted (h : CallFrame.Couples c past op written f g) {index : Nat}
    (hi : index < f.operands.length) {tree tree' : Tree} (htrees : c.trees tree tree')
    (hsince : Session.RewritesSince c.before f.session.tree { f.session with tree })
    (htracks : CallFrame.Tracks c.before written
      ⟨{ f.session with tree }, f.operands.set index f.session.tree.nextId⟩) :
    CallFrame.Couples c past op written
      ⟨{ f.session with tree }, f.operands.set index f.session.tree.nextId⟩
      ⟨{ g.session with tree := tree' }, g.operands.set index g.session.tree.nextId⟩ where
  session := { h.session with trees := htrees, since := ⟨hsince.1, h.session.since.2.trans hsince.2⟩ }
  tracks := htracks
  length := by simp [h.length]
  operand {i o o'} ho ho' := by
    have hi' : index < g.operands.length := by
      rw [h.length]
      exact hi
    simp only [List.getElem?_set, hi, hi', if_true] at ho ho'
    split at ho
    · rename_i heq
      rw [if_pos heq] at ho'
      cases ho
      cases ho'
      exact .inl ⟨.inr h.session.rewrites.rewritten.size_le, (c.nextId h.session.trees).symm⟩
    · rename_i hne
      rw [if_neg hne] at ho'
      exact h.operand ho ho'

end CallFrame.Couples

section

variable (hp : c.HasRoom (depth + 1) call) (hcall : c.before.node? call = some (.call name written))
  (hop : c.operators.lookup? name = some op)

include hp hcall hop

/-- An operand of a call that is no keyword is a part. -/
theorem Coupling.isPart_of_tracks (htracks : f.Tracks c.before written) {index : Nat}
    {operand : NodeId} (ho : f.operands[index]? = some operand)
    (hkey : op.signature.isKeyword index = false) : c.IsPart depth f.session.tree operand := by
  rcases htracks.operand index operand ho with ⟨a, ha, hw, -⟩ | ⟨-, hnew, hn⟩
  · refine .inl ⟨a, c.below hp ⟨_, hcall, ?_⟩, hw⟩
    exact OperatorTable.mem_visitedOperands hop hkey ha
  · have hroom := hp.2
    exact .inr ⟨by omega, hnew, hn⟩

/-- The frames that a call has in the two sessions. -/
theorem Session.Couples.frame (h : s.Couples c past t) {operands operands' : List NodeId}
    (hn : s.tree.node? call = some (.call name operands))
    (hn' : t.tree.node? call = some (.call name operands')) :
    CallFrame.Couples c past op written ⟨s, operands⟩ ⟨t, operands'⟩ := by
  obtain ⟨current, hcurrent, hlength, hplaces⟩ := h.call_of_call hp.1 hn
  rw [hn'] at hcurrent
  cases hcurrent
  have htracks : CallFrame.Tracks c.before written ⟨s, operands⟩ := by
    obtain ⟨written', hcall', hw⟩ := h.rewrites.rewritten.call_of_call hn
    rw [hcall] at hcall'
    cases hcall'
    exact h.rewrites.tracks hn hw
  refine ⟨h, htracks, hlength, fun {index operand operand'} ho ho' => ?_⟩
  obtain ⟨hseen, hspare⟩ := hplaces op hop index operand operand' ho ho'
  cases hkey : op.signature.isKeyword index with
  | true => exact .inr ⟨rfl, hspare hkey⟩
  | false =>
    have hpart : c.IsPart depth s.tree operand :=
      Coupling.isPart_of_tracks hp hcall hop htracks ho hkey
    exact .inl ⟨hpart.knows, hseen hkey⟩

/-- The operands of the frames that are no keywords are parts. -/
theorem CallFrame.Couples.lists (h : CallFrame.Couples c past op written f g) :
    c.Lists op.signature depth f.session.tree 0 f.operands g.operands where
  length := h.length
  operand index operand operand' ho ho' hkey := by
    rw [Nat.zero_add] at hkey
    have hplaces := h.operand ho ho'
    rw [hkey] at hplaces
    exact ⟨hplaces.eq.2, Coupling.isPart_of_tracks hp hcall hop h.tracks ho hkey⟩

omit hp hcall hop in
/-- Placeholders for the omitted operands are added to both sessions. -/
theorem CallFrame.Couples.padded {operands operands' : List NodeId}
    (h : CallFrame.Couples c past op written ⟨s, operands⟩ ⟨t, operands'⟩)
    (hn : s.tree.node? call = some (.call name operands)) :
    EndAlike (Session.Couples c past)
      (fun all all' => all'.length = all.length ∧ ∀ index operand operand',
        all[index]? = some operand → all'[index]? = some operand' →
          c.Places (op.signature.isKeyword index) operand operand') s t
      (SqlTyping.padded op.signature operands) (SqlTyping.padded op.signature operands') := by
  have hx := padded_apply op.signature operands s
  have hy := padded_apply op.signature operands' t
  have hlength : operands'.length = operands.length := h.length
  rw [hlength] at hy
  by_cases hnone : op.signature.shownCount operands.length - operands.length = 0
  · rw [if_pos hnone] at hx hy
    exact .ok hx hy ⟨hlength, fun _ _ _ ho ho' => h.operand ho ho'⟩ h.session
  · obtain ⟨written', hcall', hw⟩ := h.session.rewrites.rewritten.call_of_call hn
    rw [if_neg hnone] at hx hy
    have hsince := tracksSince_padded h.session.since hn hw hx
    refine .ok hx hy ⟨by simp [hlength], fun index operand operand' ho ho' => ?_⟩
      { h.session with
        trees := c.push_default h.session.trees
        since := ⟨hsince.1.rewrites, hsince.2⟩ }
    rw [List.getElem?_append] at ho ho'
    rw [hlength] at ho'
    split at ho
    · rename_i hi
      rw [if_pos hi] at ho'
      exact h.operand ho ho'
    · rename_i hi
      rw [if_neg hi] at ho'
      obtain ⟨-, rfl⟩ := List.mem_replicate.mp (List.mem_of_getElem? ho)
      obtain ⟨-, rfl⟩ := List.mem_replicate.mp (List.mem_of_getElem? ho')
      exact .inl ⟨.inr h.session.rewrites.rewritten.size_le, (c.nextId h.session.trees).symm⟩

end

namespace Visit.Couples

variable (hv : Visit.Couples c depth v v') (hp : c.HasRoom (depth + 1) call)
  (hcall : c.before.node? call = some (.call name written))
  (hop : c.operators.lookup? name = some op)

include hv hp hcall hop

/-- An operand of a call has the same type. -/
theorem typeOf (index : Nat) :
    Checking.Mirrors (CallFrame.Couples c past op written) (CallFrame.typeOf v scope op index)
      (CallFrame.typeOf v' scope op index) := by
  intro f g h
  refine .state_bind ?_
  have hoperand := h.operand? index
  generalize ho : f.operands[index]? = o, g.operands[index]? = o' at hoperand
  cases hoperand with
  | none => exact .fail h
  | some hplaces =>
    refine .ite (fun _ => .pure h rfl) fun hkey => ?_
    have hkey : op.signature.isKeyword index = false := by simpa using hkey
    rw [hkey] at hplaces
    obtain ⟨-, rfl⟩ := hplaces.eq
    have hpart := Coupling.isPart_of_tracks hp hcall hop h.tracks ho hkey
    refine Follows.focus (M := Session.Couples c f.session.tree) ?_ fun s' t' h' => h.of_session h'
    exact hv.recorded { h.session with since := ⟨h.session.since.1, .refl _ _⟩ } hpart scope

/-- A cast is put around the same operand, when it is no keyword. -/
theorem castTo {index : Nat} (hkey : op.signature.isKeyword index = false) (target : DataType) :
    Checking.Mirrors (CallFrame.Couples c past op written)
      (CallFrame.castTo v scope call index target) (CallFrame.castTo v' scope call index target) := by
  intro f g h
  have hoperand := h.operand? index
  rw [hkey] at hoperand
  refine CallFrame.endAlike_castTo (Q := Eq) h (h.isDefault index) ?_
  generalize ho : f.operands[index]? = o, ho' : g.operands[index]? = o' at hoperand ⊢
  cases hoperand with
  | none => exact .none
  | @some operand operand' hplaces =>
  obtain ⟨-, rfl⟩ := hplaces.eq
  refine .some fun hd => ?_
  obtain ⟨a, ha, -⟩ := h.tracks.written_of_not_isDefault ho hd
  -- The call has the operand, so it can be pointed at the cast.
  obtain ⟨current, hcurrent, hlist⟩ := h.session.rewrites.rewritten.call call name written hcall
  have hi : index < current.length := by
    rw [← hlist.length_eq]
    exact (List.getElem?_eq_some_iff.mp ha).1
  obtain ⟨tree, ht⟩ : ∃ tree, (f.session.tree.pushCast operand target.toTarget true).replaceOperand?
      call index f.session.tree.nextId = some tree := Tree.exists_insertCast hcurrent hi
  obtain ⟨tree', ht', htrees⟩ := c.insertCast operand target.toTarget h.session.trees hp.1 hcurrent
    hop hkey ht
  obtain ⟨hsince, -, -, hwrapped⟩ := h.tracks.insertCast hcall ho hd target.toTarget ht
  have hstart : Session.Couples c tree { f.session with tree } { g.session with tree := tree' } :=
    { h.session with trees := htrees, since := ⟨hsince.1, .refl _ _⟩ }
  have hlt : index < f.operands.length := (List.getElem?_eq_some_iff.mp ho).1
  have hwrapping : (f.operands.set index f.session.tree.nextId)[index]? =
      some f.session.tree.nextId := List.getElem?_set_self hlt
  have hpart : c.IsPart depth tree f.session.tree.nextId :=
    Coupling.isPart_of_tracks hp hcall hop hwrapped hwrapping hkey
  have hvisit := hv.expression scope f.session.tree.nextId hstart hpart
  refine ⟨fun hnone => ?_, ?_⟩
  · rw [ht] at hnone
    cases hnone
  · rw [c.nextId h.session.trees] at hvisit
    rw [ht, ht']
    exact .some (hvisit.imp fun h' => (h.inserted hlt htrees hsince hwrapped).of_session h')

/-- The operator's check sees the same call, when it is not told which keywords are the NULL literal. -/
theorem callView (scope : ScopeId) (h : s.Couples c past t) :
    CallView.Alike .equality (CallFrame.Couples c past op written)
      ((CallFrame.view v scope call op s.settings s.engine).unspelled op.signature.isKeyword)
      ((CallFrame.view v' scope call op t.settings t.engine).unspelled op.signature.isKeyword) where
  operator := rfl
  coerces := congrArg Settings.coercion h.settings
  engine := h.engine'.trans h.engine.symm
  count hf := hf.length
  isNull {f g} index hf := by
    show (!op.signature.isKeyword index && g.isNull index) =
      (!op.signature.isKeyword index && f.isNull index)
    cases hkey : op.signature.isKeyword index with
    | true => rfl
    | false => rw [hf.isNull hkey]
  isDefault index hf := hf.isDefault index
  typeOf index _ _ hf := hv.typeOf hp hcall hop index _ _ hf
  note {f g request request'} hrequest hf := by
    obtain ⟨hcall, htypes, hfamilies⟩ := hrequest
    have htypes : List.Forall₂ Eq request.types request'.types := htypes
    rw [List.forall₂_eq_eq_eq] at htypes
    have hsame : request' = request := by
      cases request
      cases request'
      simp_all
    subst hsame
    have hsession := hf.session.withRequests (f.session.requests ++ [request'])
    have hnoted : Session.Couples c f.session.tree
        { f.session with requests := f.session.requests ++ [request'] }
        { g.session with requests := g.session.requests ++ [request'] } := by
      rw [hf.session.requests]
      exact { hsession with since := ⟨hsession.since.1, .refl _ _⟩ }
    exact hf.of_session hnoted

/-- The standard engine does the same, as it leaves keywords alone. -/
theorem coercesAlike (scope : ScopeId) (h : s.Couples c past t) :
    CallView.Mirrors .equality (CallFrame.Couples c past op written)
      (fun families => ∀ index, op.signature.isKeyword index = true → index < families.length →
        families[index]? = some .ignore)
      ((CallFrame.view v scope call op s.settings s.engine).unspelled op.signature.isKeyword)
      ((CallFrame.view v' scope call op t.settings t.engine).unspelled op.signature.isKeyword) := by
  have halike := hv.callView hp hcall hop scope h
  refine ⟨halike, fun {families types types'} hspares htypes => ?_⟩
  have hplan : ∀ types, s.engine.plan op.name types families =
      .implicitCasts 0 false (types.zip families) := fun types =>
    congrArg (fun engine : CoercionEngine => engine.plan op.name types families) h.engine
  refine halike.coerce _ htypes ?_
  show (CoercionPlan.run _ (s.engine.plan op.name types families)).Mirrors _
    (CoercionPlan.run _ (s.engine.plan op.name types' families))
  rw [hplan types, hplan types']
  refine halike.run_implicitCasts (Likeness.forall₂_zip htypes families) 0 false ?_
  rintro index source family target _ hget himplicit rfl
  obtain ⟨-, hfamily⟩ := List.getElem?_zip_eq_some.mp hget
  rw [Nat.zero_add]
  refine hv.castTo hp hcall hop (Bool.eq_false_iff.mpr fun hkey => ?_) target
  obtain ⟨hi, -⟩ := List.getElem?_eq_some_iff.mp hfamily
  rw [hspares index hkey hi] at hfamily
  cases hfamily
  rw [CallView.implicitCast?_ignore] at himplicit
  cases himplicit

/-- A call is checked alike. -/
theorem checkCall {all all' : List NodeId}
    (h : CallFrame.Couples c past op written ⟨s, all⟩ ⟨t, all'⟩) :
    EndAlike (Session.Couples c past) Eq s t (SqlTyping.checkCall v scope call op all)
      (SqlTyping.checkCall v' scope call op all') := by
  have hmirrors := (hv.coercesAlike hp hcall hop scope h.session).check op.signature
    fun _ _ hleaf _ _ _ _ _ hkey hi => Signature.ignore_of_isKeyword hkey hleaf hi
  rw [Signature.check_unspelled h.session.engine, Signature.check_unspelled h.session.engine']
    at hmirrors
  -- The frames are left, their sessions stay.
  exact (hmirrors _ _ h).within rfl rfl fun _ _ h' => h'.session

end Visit.Couples

/-- A call has the same type. -/
theorem Visit.Couples.callType (hv : Visit.Couples c depth v v') (hp : c.HasRoom (depth + 1) call)
    (h : s.Couples c past t) {operands operands' : List NodeId}
    (hn : s.tree.node? call = some (.call name operands))
    (hn' : t.tree.node? call = some (.call name operands')) (scope : ScopeId) :
    EndAlike (Session.Couples c past) Eq s t (SqlTyping.callType v scope call name operands)
      (SqlTyping.callType v' scope call name operands') := by
  obtain ⟨written, hcall, -⟩ := h.rewrites.rewritten.call_of_call hn
  refine h.since_past fun h => ?_
  have hlength : operands'.length = operands.length := by
    obtain ⟨current, hcurrent, hlength, -⟩ := h.call_of_call hp.1 hn
    rw [hn'] at hcurrent
    cases hcurrent
    exact hlength
  unfold SqlTyping.callType
  refine .state_bind ?_
  rw [Host.session_self, Host.session_self, h.operators', h.operators, hlength]
  cases hop : c.operators.lookup? name with
  | none => exact .fail h
  | some op =>
    refine .ite (fun _ => .fail h) fun _ => ?_
    have hframe := h.frame hp hcall hop hn hn'
    refine (hframe.padded hn).bind fun all all' s₁ t₁ hpad ⟨hall, hplaces⟩ h₁ => ?_
    obtain ⟨written', hcall', hw⟩ := h.rewrites.rewritten.call_of_call hn
    rw [hcall] at hcall'
    cases hcall'
    have htracks := (tracksSince_padded h.since hn hw hpad).1
    have hlists := (hframe.lists hp hcall hop).mono h₁.since.2
    refine h₁.since_past fun h₁ => ?_
    refine (hv.visitOperands h₁ hlists scope).bind fun _ _ s₂ t₂ _ _ h₂ => ?_
    have hframe₂ : CallFrame.Couples c s₁.tree op written ⟨s₂, all⟩ ⟨t₂, all'⟩ :=
      ⟨h₂, htracks.onSession h₂.since.1 h₂.since.2, hall, fun ho ho' => hplaces _ _ _ ho ho'⟩
    refine (hv.checkCall hp hcall hop hframe₂).bind fun _ _ s₃ t₃ _ _ h₃ => ?_
    -- The operands are read again: casts may have been put around them.
    refine .state_bind ?_
    obtain ⟨current, hn₃, -⟩ := h₃.rewrites.rewritten.call call name written hcall
    obtain ⟨current', hn₃', -⟩ := h₃.call_of_call hp.1 hn₃
    have hread : (s₃.tree.operands? call).getD [] = current := by
      unfold Tree.operands?
      rw [hn₃]
      rfl
    have hread' : (t₃.tree.operands? call).getD [] = current' := by
      unfold Tree.operands?
      rw [hn₃']
      rfl
    rw [Host.session_self, Host.session_self, hread, hread']
    have hframe₃ := h₃.frame hp hcall hop hn₃ hn₃'
    refine h₃.since_past fun h₃ => ?_
    refine (hv.operandTypes h₃ (hframe₃.lists hp hcall hop) scope).bind fun types _ s₄ t₄ _ heq h₄ => ?_
    subst heq
    exact .ofExcept_eq h₄ _

end

/-! ### Expressions -/

/-- Validates an expression as `expressionStep` does. A cast that is left when as many as there are nodes
    have been taken off is handed to `other`. -/
def expressionStepOr (other v : Visit) (scope : ScopeId) (id : NodeId) : Validation DataType := do
  let tree := (← Checking.state).tree
  let (casts, core) := tree.peelCasts tree.size id
  match ← Validation.node core with
  | .cast .. => other.expression scope core
  | node =>
    let type ← expressionType v scope core node
    Validation.record core type
    recordCasts type casts

/-- The recursion of validation down to a depth, with `other` for the nodes that are refused because
    they seem to lie below themselves. -/
def Visit.over (other : Visit) : Nat → Visit
  | 0 => other
  | depth + 1 =>
    { query := queryStep (other.over depth)
      expression := expressionStepOr other (other.over depth) }

/-- Validation itself refuses such casts. -/
theorem expressionStep_eq_or (v : Visit) (scope : ScopeId) (id : NodeId) :
    expressionStep v scope id = expressionStepOr (visitAt 0) v scope id := by
  unfold expressionStep expressionStepOr
  refine congrArg _ (funext fun s => ?_)
  simp only
  refine congrArg _ (funext fun node => ?_)
  cases node with
  | cast => rfl
  | _ => rfl

theorem visitAt_eq_over (depth : Nat) : visitAt depth = (visitAt 0).over depth := by
  induction depth with
  | zero => rfl
  | succ depth ih =>
    unfold Visit.over
    rw [← ih]
    show Visit.On.mk _ _ = _
    refine congrArg (Visit.On.mk _) (funext fun scope => funext fun id => ?_)
    exact expressionStep_eq_or _ scope id

/-- A node that is no cast is seen, and nothing is taken off what corresponds to it. -/
theorem Coupling.peelCasts_of_not_cast {u u' : Tree} (ht : c.trees u u')
    (hid : ∃ a, c.HasRoom depth a ∧ Tree.Wraps c.before u a id)
    (hno : ∀ operand target implicit, u.node? id ≠ some (.cast operand target implicit)) (fuel : Nat) :
    c.HasRoom depth id ∧ u'.peelCasts fuel (c.shift.node id) = ([], c.shift.node id) := by
  obtain ⟨a, ha, hw⟩ := hid
  -- Only a node itself wraps it when it is no cast.
  cases hw with
  | cast _ hcast => exact absurd hcast (hno _ _ _)
  | self =>
    refine ⟨ha, Tree.peelCasts_of_not_cast (fun operand target implicit hn => ?_) fuel⟩
    have hnode := c.node ht ha.knows
    rw [hn] at hnode
    cases hx : u.node? id with
    | none =>
      rw [hx] at hnode
      cases hnode
    | some n =>
      rw [hx] at hnode
      cases hnode with
      | some hcouples =>
        cases n with
        | cast => exact hno _ _ _ hx
        | _ => cases hcouples

/-- The operand of a cast is a part as well. -/
theorem Coupling.wraps_operand {u : Tree} (hr : Tree.RewrittenFrom c.before u) {operand : NodeId}
    {target : CastTarget} {implicit : Bool} (hn : u.node? id = some (.cast operand target implicit))
    (hid : ∃ a, c.HasRoom depth a ∧ Tree.Wraps c.before u a id) :
    ∃ a, c.HasRoom depth a ∧ Tree.Wraps c.before u a operand := by
  obtain ⟨a, ha, hw⟩ := hid
  cases hw with
  -- A cast as written: its operand is seen from there.
  | self =>
    have hwritten := hr.node?_eq (c.lt_size id ha.1) hn rfl
    exact ⟨operand, c.child ha ⟨_, hwritten, by simp [Node.visited, Node.children]⟩, .self⟩
  | cast _ hcast hw =>
    rw [hn] at hcast
    cases hcast
    exact ⟨a, ha, hw⟩

/-- Taking off casts leads to the same node, which is seen. -/
theorem Coupling.peelCasts {u u' : Tree} (ht : c.trees u u') (hr : Tree.RewrittenFrom c.before u)
    {fuel fuel' : Nat} (hfuel : fuel ≤ fuel') {core : NodeId} {casts : List (NodeId × CastTarget)}
    (hid : ∃ a, c.HasRoom depth a ∧ Tree.Wraps c.before u a id)
    (hpeel : u.peelCasts fuel id = (casts, core))
    (hcore : ∀ operand target implicit, u.node? core ≠ some (.cast operand target implicit)) :
    c.HasRoom depth core ∧ (∀ z ∈ casts, c.Knows z.1) ∧
      u'.peelCasts fuel' (c.shift.node id) =
        (casts.map fun z => (c.shift.node z.1, z.2), c.shift.node core) := by
  induction fuel generalizing fuel' id casts with
  | zero =>
    cases hpeel
    obtain ⟨hroom, hpeel'⟩ := peelCasts_of_not_cast ht hid hcore fuel'
    exact ⟨hroom, nofun, hpeel'⟩
  | succ fuel ih =>
    unfold Tree.peelCasts at hpeel
    split at hpeel
    · rename_i operand target implicit hn
      obtain ⟨inner, core', hinner⟩ : ∃ inner core', u.peelCasts fuel operand = (inner, core') :=
        ⟨_, _, rfl⟩
      simp only [hinner, Prod.mk.injEq] at hpeel
      obtain ⟨rfl, rfl⟩ := hpeel
      obtain ⟨fuel', rfl⟩ := Nat.exists_eq_add_of_le' (Nat.one_le_of_lt hfuel)
      have hknows : c.Knows id := Coupling.IsPart.knows (.inl hid)
      obtain ⟨hroom, hcasts, hrest⟩ :=
        ih (Nat.le_of_succ_le_succ hfuel) (wraps_operand hr hn hid) hinner
      refine ⟨hroom, List.forall_mem_cons.mpr ⟨hknows, hcasts⟩, ?_⟩
      have hnode := c.node ht hknows
      rw [hn] at hnode
      unfold Tree.peelCasts
      generalize u'.node? (c.shift.node id) = n' at hnode
      cases hnode with
      | some hcouples =>
        cases hcouples with
        | other => simp only [Node.renumber, hrest, List.map_cons]
    · cases hpeel
      obtain ⟨hroom, hpeel'⟩ := peelCasts_of_not_cast ht hid hcore fuel'
      exact ⟨hroom, nofun, hpeel'⟩

/-- The types of casts are recorded under their new numbers. -/
theorem Session.Couples.recordCasts (h : s.Couples c past t) (type : DataType)
    {casts : List (NodeId × CastTarget)} (hcasts : ∀ z ∈ casts, c.Knows z.1) :
    EndAlike (Session.Couples c past) Eq s t (SqlTyping.recordCasts type casts)
      (SqlTyping.recordCasts type (casts.map fun z => (c.shift.node z.1, z.2))) := by
  induction casts with
  | nil => exact .pure h rfl
  | cons cast rest ih =>
    obtain ⟨hcast, hrest⟩ := List.forall_mem_cons.mp hcasts
    refine (ih hrest).bind fun operand _ s₁ t₁ _ heq h₁ => ?_
    subst heq
    exact (h₁.record hcast _).bind fun _ _ s₂ t₂ _ _ h₂ => .pure h₂ rfl

/-- A placeholder only gets a type. -/
theorem Session.Couples.placeholder (h : s.Couples c past t) (hnew : c.before.size ≤ id.index)
    (hn : s.tree.node? id = some .default) (other : Visit) (scope : ScopeId) :
    EndAlike (Session.Couples c past) Eq s t (SqlTyping.expressionStep v scope id)
      (expressionStepOr other v' scope (c.shift.node id)) := by
  have hn' : t.tree.node? (c.shift.node id) = some .default := by
    have hnode := c.node h.trees (.inr hnew)
    rw [hn] at hnode
    generalize t.tree.node? (c.shift.node id) = n' at hnode
    cases hnode with
    | some hcouples =>
      cases hcouples with
      | other => rfl
  have hpeel : ∀ (tree : Tree) id fuel, tree.node? id = some .default →
      tree.peelCasts fuel id = ([], id) := fun tree id fuel hn =>
    Tree.peelCasts_of_not_cast (fun _ _ _ hcast => by rw [hn] at hcast; cases hcast) fuel
  unfold SqlTyping.expressionStep expressionStepOr
  refine .state_bind ?_
  simp only [Host.session_self, Host.lift_self, hpeel s.tree id _ hn, hpeel t.tree _ _ hn']
  have hrest : EndAlike (Session.Couples c past) Eq s t
      (Validation.record id .any >>= fun _ => SqlTyping.recordCasts .any [])
      (Validation.record (c.shift.node id) .any >>= fun _ => SqlTyping.recordCasts .any []) :=
    (h.record (.inr hnew) .any).bind fun _ _ s₁ t₁ _ _ h₁ => .pure h₁ rfl
  exact hrest.of_apply (bind_of_ok (node_of_some hn) _) (bind_of_ok (node_of_some hn') _)

namespace Visit.Couples

variable (hv : Visit.Couples c depth v v') (h : s.Couples c past t)

include hv h

/-- An expression with casts around it is validated alike. -/
theorem wrapped (hid : ∃ a, c.HasRoom (depth + 1) a ∧ Tree.Wraps c.before s.tree a id)
    (other : Visit) (scope : ScopeId) :
    EndAlike (Session.Couples c past) Eq s t (SqlTyping.expressionStep v scope id)
      (expressionStepOr other v' scope (c.shift.node id)) := by
  obtain ⟨casts, core, hpeel⟩ : ∃ casts core, s.tree.peelCasts s.tree.size id = (casts, core) :=
    ⟨_, _, rfl⟩
  obtain ⟨a, ha, hw⟩ := hid
  have hrewrites := h.rewrites
  have hends := c.closed.isClosed.peelCasts_ends hrewrites.rewritten hrewrites.closed
    (fun a _ => c.acyclic a) (c.lt_size a ha.1) hw hpeel
  obtain ⟨hcore, hcasts, hpeel'⟩ := c.peelCasts h.trees hrewrites.rewritten (c.size_le h.trees)
    ⟨a, ha, hw⟩ hpeel hends
  rw [c.node_eq hcore.1] at hpeel'
  unfold SqlTyping.expressionStep expressionStepOr
  refine .state_bind ?_
  simp only [Host.session_self, Host.lift_self, hpeel, hpeel']
  have hrest : ∀ {x y : Validation DataType}, EndAlike (Session.Couples c past) Eq s t x y →
      EndAlike (Session.Couples c past) Eq s t
        (x >>= fun type => Validation.record core type >>= fun _ => SqlTyping.recordCasts type casts)
        (y >>= fun type => Validation.record core type >>= fun _ => SqlTyping.recordCasts type
          (casts.map fun z => (c.shift.node z.1, z.2))) := fun hxy =>
    hxy.bind fun type _ s₁ t₁ _ heq h₁ => heq ▸
      (h₁.recordSeen hcore.1 type).bind fun _ _ s₂ t₂ _ _ h₂ => h₂.recordCasts type hcasts
  refine h.readNode hcore.1 (fun name operands hn operands' hn' =>
    hrest (hv.callType hcore h hn hn' scope)) fun n hcall hn hn' => ?_
  cases n with
  | literal value => exact hrest (.pure h rfl)
  | identifier names =>
    refine hrest (.state_bind ?_)
    rw [h.referenceType scope names]
    exact .ofExcept_eq h _
  | call => cases hcall
  | cast operand target implicit => exact absurd hn' (hends operand target implicit)
  | cursor query =>
    have hquery : c.HasRoom depth query :=
      c.below hcore ⟨_, hn, by simp [Node.visited, Node.children]⟩
    exact hrest ((hv.query scope query h hquery).bind fun _ _ s₁ t₁ _ _ h₁ => .pure h₁ rfl)
  | default => exact hrest (.pure h rfl)
  | _ => exact hrest (.fail h)

/-- An expression is validated alike when what lies below it is. -/
theorem expressionStep (hid : c.IsPart (depth + 1) s.tree id) (other : Visit) (scope : ScopeId) :
    EndAlike (Session.Couples c past) Eq s t (SqlTyping.expressionStep v scope id)
      (expressionStepOr other v' scope (c.shift.node id)) := by
  rcases hid with hid | ⟨-, hnew, hn⟩
  · exact hv.wrapped h hid other scope
  · exact h.placeholder hnew hn other scope

end Visit.Couples

/-! ### All depths -/

/-- What is seen is validated alike, to any depth, and whatever is done in the second session with nodes
    that would be refused there. -/
theorem visitAt_couples (c : Coupling) (other : Visit) (depth more : Nat) :
    Visit.Couples c depth (visitAt depth) (other.over (depth + more)) := by
  induction depth with
  | zero =>
    -- There is room below everything that is seen, so no depth is not enough for anything.
    have hroom : ∀ a, ¬ c.HasRoom 0 a := fun a ha => by
      have := ha.2
      omega
    refine ⟨fun scope a _ ha => absurd ha (hroom a), fun scope id _ hid => ?_⟩
    rcases hid with ⟨a, ha, -⟩ | ⟨hdepth, -⟩
    · exact absurd ha (hroom a)
    · omega
  | succ depth ih =>
    rw [Nat.succ_add]
    exact ⟨fun scope a h ha => ih.queryStep h ha scope,
      fun scope id h hid => ih.expressionStep h hid other scope⟩

end SqlTyping
