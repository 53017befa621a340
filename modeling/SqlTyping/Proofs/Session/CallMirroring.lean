import SqlTyping.Proofs.Session.Casting
import SqlTyping.Proofs.Session.QueryMirroring
import SqlTyping.Proofs.Signature.Positions

namespace SqlTyping

/-!
# Calls that mirror each other

The operands of a call may have other numbers in the other session, and so have the casts around them:

* `CallFrame.Mirrors` — two frames of a call correspond;
* `Visit.Mirrors.castTo` — a cast is put around the same operand of both;
* `Visit.Mirrors.callView` — so the operator's check sees the same call twice;
* `Visit.Mirrors.callType` — and the call gets the same type.
-/

open Checking

variable {ρ : Renumbering} {N : Naming} {own : NodeId → Prop} {rank : NodeId → Nat} {s t : Session}
  {depth : Nat} {v v' : Visit} {scope : ScopeId}

/-! ### Operands -/

/-- Placeholders for the omitted operands are added to both sessions. -/
theorem Session.Mirrors.padded (hm : Session.Mirrors ρ own s t) (signature : Signature)
    (operands : List NodeId) :
    EndAlike (Session.Mirrors ρ own) (fun a b => b = a.map ρ.nodes.node) s t
      (SqlTyping.padded signature operands)
      (SqlTyping.padded signature (operands.map ρ.nodes.node)) := by
  have hx := padded_apply signature operands s
  have hy := padded_apply signature (operands.map ρ.nodes.node) t
  rw [List.length_map] at hy
  by_cases hnone : signature.shownCount operands.length - operands.length = 0
  · rw [if_pos hnone] at hx hy
    exact .ok hx hy rfl hm
  · rw [if_neg hnone] at hx hy
    refine .ok hx hy ?_ (hm.withTree (hm.tree.push _ _ _))
    rw [List.map_append, List.map_replicate, hm.tree.nextId]

/-- Both trees have corresponding operands for a call. -/
theorem Session.Mirrors.operands_getD (hm : Session.Mirrors ρ own s t) (hρ : ρ.Suits N.tree own rank)
    {call : NodeId} (hcall : own call) :
    (t.tree.operands? call).getD [] = ((s.tree.operands? call).getD []).map ρ.nodes.node := by
  have hsame := hm.tree.operands? (.inl hcall)
  rw [hρ.node_eq hcall] at hsame
  rw [hsame]
  cases s.tree.operands? call <;> rfl

/-- Tables are found for the operands of a call that are no keywords. -/
theorem Renumbering.FindsBelow.operand {f : CallFrame} {call operand : NodeId} {name : String}
    {written : List NodeId} {op : Operator} {index : Nat} (h : ρ.FindsBelow N s scope call)
    (hρ : ρ.Suits N.tree own rank) (hcall : N.tree.node? call = some (.call name written))
    (hop : s.operators.lookup? name = some op) (hlater : s.After N.tree f.session)
    (htracks : f.Tracks N.tree written) (ho : f.operands[index]? = some operand)
    (hkey : op.signature.isKeyword index = false) :
    ρ.FindsWrapped N own f.session scope operand := by
  intro a ha hw
  have hlt := hρ.isClosed.lt_size a ha
  rcases htracks.operand index operand ho with ⟨b, hb, hwb, -⟩ | ⟨-, hnew, hn⟩
  · have hchild : b ∈ (Node.call name written).children := List.mem_of_getElem? hb
    rw [hw.unique hwb hlt (Tree.isSome_node?_iff.mp (hρ.closed call _ hcall b hchild))]
    have hfinds : ρ.FindsBelow N f.session scope call := h.later hlater
    refine hfinds.part hcall fun env => .inr (List.mem_map_of_mem ?_)
    rw [← hlater.setup.operators] at hop
    exact OperatorTable.mem_visitedOperands hop hkey hb
  -- A placeholder wraps nothing.
  · cases hw with
    | self => omega
    | cast _ hcast =>
      rw [hn] at hcast
      cases hcast

/-- Later on, they still are for those that the call has had. -/
theorem Renumbering.FindsBelow.current {call operand : NodeId} {name : String}
    {written operands : List NodeId} {op : Operator} {index : Nat} {s' : Session}
    (h : ρ.FindsBelow N s scope call) (hρ : ρ.Suits N.tree own rank)
    (hcall : N.tree.node? call = some (.call name written))
    (hop : s.operators.lookup? name = some op)
    (hs : Session.Goes N.tree Session.OwnsSources s s) (hn : s.tree.node? call = some (.call name operands))
    (hlater : s.After N.tree s') (ho : operands[index]? = some operand)
    (hkey : op.signature.isKeyword index = false) : ρ.FindsWrapped N own s' scope operand := by
  have htracks := (hs.1.rewrites.1.tracks_operands hcall).2
  have hcurrent : (s.tree.operands? call).getD [] = operands := by
    unfold Tree.operands?
    rw [hn]
    rfl
  rw [hcurrent] at htracks
  exact h.operand hρ hcall hop hlater
    (htracks.onSession hlater.rewrites.1 hlater.rewrites.2) ho hkey

namespace Visit.Mirrors

variable (hv : Visit.Mirrors ρ N own rank depth v v') (hρ : ρ.Suits N.tree own rank)
  (hs : Session.Goes N.tree Session.OwnsSources s s) (hm : Session.Mirrors ρ own s t)
  (hscope : s.scopes.Visible ρ.scopes scope)

include hv hs hm hscope

/-- The type of an operand is recorded in both sessions or in none. -/
theorem recorded (hρ : ρ.Suits N.tree own rank) {id : NodeId}
    (hid : Tree.IsPart N.tree (Tree.HasRoom own rank) depth s.tree id)
    (hfinds : ρ.FindsWrapped N own s scope id) :
    EndAlike (Session.Mirrors ρ own) Eq s t (v.recorded scope id)
      (v'.recorded (ρ.scopes.scope scope) (ρ.nodes.node id)) := by
  refine .state_bind ?_
  rw [Host.session_self, Host.session_self, hm.types id (hρ.of_isPart hid)]
  cases s.types.get? id with
  | some type => exact .pure hm rfl
  | none => exact hv.expression hs hm hid hscope hfinds

/-- The written operands are validated alike. -/
theorem visitOperands (signature : Signature) (index : Nat) {operands : List NodeId}
    (hparts : ∀ o ∈ operands, Tree.IsPart N.tree (Tree.HasRoom own rank) depth s.tree o)
    (hfinds : ∀ s', Session.Goes N.tree Session.OwnsSources s s' → ∀ i o, operands[i]? = some o →
      signature.isKeyword (index + i) = false → ρ.FindsWrapped N own s' scope o) :
    EndAlike (Session.Mirrors ρ own) Eq s t (SqlTyping.visitOperands v scope signature index operands)
      (SqlTyping.visitOperands v' (ρ.scopes.scope scope) signature index
        (operands.map ρ.nodes.node)) := by
  induction operands generalizing s t index with
  | nil => exact .pure hm rfl
  | cons operand rest ih =>
    have hoperand := hparts operand (List.mem_cons_self ..)
    have hrest : ∀ s' t', Session.Goes N.tree Session.OwnsSources s s' → Session.Mirrors ρ own s' t' →
        EndAlike (Session.Mirrors ρ own) Eq s' t'
          (SqlTyping.visitOperands v scope signature (index + 1) rest)
          (SqlTyping.visitOperands v' (ρ.scopes.scope scope) signature (index + 1)
            (rest.map ρ.nodes.node)) := fun s' t' hs' hm' =>
      ih (course_goes.stays hs') hm' (hscope.mono hs'.1.scopes) _
        (fun o ho => Session.Upholds.isPart_mono (hparts o (List.mem_cons_of_mem _ ho))
          hs'.1.rewrites.2)
        fun s'' hs'' i o ho hkey => hfinds s'' (course_goes.trans hs' hs'') (i + 1) o ho
          (by rwa [Nat.add_assoc, Nat.add_comm 1] at hkey)
    unfold SqlTyping.visitOperands
    refine .ite (fun hkey => ?_) fun _ => hrest s t hs hm
    have hfound := hfinds s hs 0 operand rfl (by simpa using hkey)
    exact (hv.expression hs hm hoperand hscope hfound).bind_runs
      (hv.guarded.expression hs hoperand hscope.lt_size) fun _ _ s' t' hs' _ _ hm' => hrest s' t' hs' hm'

/-- The operands have the same types. -/
theorem operandTypes (hρ : ρ.Suits N.tree own rank) (signature : Signature) (index : Nat)
    {operands : List NodeId}
    (hparts : ∀ o ∈ operands, Tree.IsPart N.tree (Tree.HasRoom own rank) depth s.tree o)
    (hfinds : ∀ s', Session.Goes N.tree Session.OwnsSources s s' → ∀ i o, operands[i]? = some o →
      signature.isKeyword (index + i) = false → ρ.FindsWrapped N own s' scope o) :
    EndAlike (Session.Mirrors ρ own) Eq s t (SqlTyping.operandTypes v scope signature index operands)
      (SqlTyping.operandTypes v' (ρ.scopes.scope scope) signature index
        (operands.map ρ.nodes.node)) := by
  induction operands generalizing s t index with
  | nil => exact .pure hm rfl
  | cons operand rest ih =>
    have hoperand := hparts operand (List.mem_cons_self ..)
    have hrest : ∀ type s' t', Session.Goes N.tree Session.OwnsSources s s' → Session.Mirrors ρ own s' t' →
        EndAlike (Session.Mirrors ρ own) Eq s' t' (do
          let types ← SqlTyping.operandTypes v scope signature (index + 1) rest
          Pure.pure (type :: types) : Validation (List DataType)) (do
          let types ← SqlTyping.operandTypes v' (ρ.scopes.scope scope) signature (index + 1)
            (rest.map ρ.nodes.node)
          Pure.pure (type :: types)) := fun type s' t' hs' hm' =>
      (ih (course_goes.stays hs') hm' (hscope.mono hs'.1.scopes) _
        (fun o ho => Session.Upholds.isPart_mono (hparts o (List.mem_cons_of_mem _ ho))
          hs'.1.rewrites.2)
        fun s'' hs'' i o ho hkey => hfinds s'' (course_goes.trans hs' hs'') (i + 1) o ho
          (by rwa [Nat.add_assoc, Nat.add_comm 1] at hkey)).bind
            fun _ _ s'' t'' _ heq hm'' => .pure hm'' (heq ▸ rfl)
    unfold SqlTyping.operandTypes
    refine Follows.ite (fun _ => ?_) fun hkey => ?_
    · exact (hrest .symbol s t hs hm).of_apply rfl rfl
    · have hfound := hfinds s hs 0 operand rfl (by simpa using hkey)
      refine (hv.recorded hs hm hscope hρ hoperand hfound).bind_runs
        (Session.Upholds.runs_recorded hv.guarded hs hoperand hscope.lt_size)
        fun type _ s' t' hs' _ heq hm' => ?_
      subst heq
      exact hrest type s' t' hs' hm'

end Visit.Mirrors

/-! ### The operator's check -/

/-- The frames of a call correspond, and the first one is as it is while a call is checked. -/
structure CallFrame.Mirrors (ρ : Renumbering) (N : Naming) (own : NodeId → Prop) (written : List NodeId)
    (s : Session) (count : Nat) (f g : CallFrame) : Prop where
  stays : f.Stays N.tree Session.OwnsSources written s count
  session : Session.Mirrors ρ own f.session g.session
  operands : g.operands = f.operands.map ρ.nodes.node

section

variable {f g : CallFrame} {call : NodeId} {name : String} {written all : List NodeId} {op : Operator}
  {count : Nat}

namespace CallFrame.Mirrors

/-- The frame has the sessions that are reached and the same operands. -/
theorem of_session (h : CallFrame.Mirrors ρ N own written s count f g) {s' t' : Session}
    (hstays : CallFrame.Stays N.tree Session.OwnsSources written s count { f with session := s' })
    (hm : Session.Mirrors ρ own s' t') :
    CallFrame.Mirrors ρ N own written s count { f with session := s' } { g with session := t' } :=
  ⟨hstays, hm, h.operands⟩

theorem operand? (h : CallFrame.Mirrors ρ N own written s count f g) (index : Nat) :
    g.operands[index]? = (f.operands[index]?).map ρ.nodes.node := by
  rw [h.operands, List.getElem?_map]

variable (h : CallFrame.Mirrors ρ N own written s count f g) (hρ : ρ.Suits N.tree own rank)
  (hp : Tree.HasRoom own rank (depth + 1) call) (hcall : N.tree.node? call = some (.call name written))

include h hρ hp hcall

/-- What an operand is corresponds. -/
theorem node? (index : Nat) : g.node? index = (f.node? index).map (Node.renumber ρ.nodes.node) := by
  unfold CallFrame.On.node?
  rw [h.operand? index]
  cases ho : f.operands[index]? with
  | none => rfl
  | some operand =>
    have hpart := hρ.upholds.isPart_of_tracks hp hcall h.stays.2.1 (List.mem_of_getElem? ho)
    exact h.session.tree.node? operand (hρ.of_isPart hpart)

theorem isNull (index : Nat) : g.isNull index = f.isNull index := by
  unfold CallFrame.On.isNull
  rw [h.node? hρ hp hcall index]
  cases f.node? index with
  | none => rfl
  | some n => exact Node.isNullLiteral_renumber n

theorem isDefault (index : Nat) : g.isDefault index = f.isDefault index := by
  unfold CallFrame.On.isDefault
  rw [h.node? hρ hp hcall index]
  cases f.node? index with
  | none => rfl
  | some n => exact Node.isDefault_renumber n

end CallFrame.Mirrors

namespace Visit.Mirrors

variable (hv : Visit.Mirrors ρ N own rank depth v v') (hρ : ρ.Suits N.tree own rank)
  (hscope : s.scopes.Visible ρ.scopes scope) (hfinds : ρ.FindsBelow N s scope call)
  (hp : Tree.HasRoom own rank (depth + 1) call) (hcall : N.tree.node? call = some (.call name written))
  (hop : s.operators.lookup? name = some op)

include hv hρ hscope hfinds hp hcall hop

/-- An operand of a call has the same type. -/
theorem typeOf (index : Nat) :
    Checking.Mirrors (CallFrame.Mirrors ρ N own written s count) (CallFrame.typeOf v scope op index)
      (CallFrame.typeOf v' (ρ.scopes.scope scope) op index) := by
  intro f g h
  refine .state_bind ?_
  rw [h.operand? index]
  cases ho : f.operands[index]? with
  | none => exact .fail h
  | some operand =>
    refine .ite (fun _ => .pure h rfl) fun hkey => ?_
    have hpart := hρ.upholds.isPart_of_tracks hp hcall h.stays.2.1 (List.mem_of_getElem? ho)
    have hfound := hfinds.operand hρ hcall hop h.stays.1.1 h.stays.2.1 ho (by simpa using hkey)
    have hvisible := hscope.mono h.stays.1.1.scopes
    have hgoes := course_goes.stays h.stays.1
    have hrun := Session.Upholds.runs_recorded hv.guarded hgoes hpart hvisible.lt_size
    refine Follows.focus (M := fun s' t' => Session.Goes N.tree Session.OwnsSources f.session s' ∧
      Session.Mirrors ρ own s' t') ?_ fun s' t' hm => h.of_session ⟨?_, ?_, h.stays.2.2⟩ hm.2
    · exact (hv.recorded hgoes h.session hvisible hρ hpart hfound).imp fun hm => ⟨hrun.rel, hm⟩
    · exact course_goes.trans h.stays.1 hm.1
    · exact h.stays.2.1.onSession hm.1.1.rewrites.1 hm.1.1.rewrites.2

/-- The cast that both calls have been pointed at is validated alike. -/
theorem endAlike_inserted {index : Nat} (hkey : ρ.more = [] ∨ op.signature.isKeyword index = false)
    {f g : CallFrame} (h : CallFrame.Mirrors ρ N own written s count f g) {operand : NodeId}
    (ho : f.operands[index]? = some operand) (hd : f.isDefault index = false) {target : DataType}
    {tree tree' : Tree}
    (hr : (f.session.tree.pushCast operand target.toTarget true).replaceOperand? call index
      f.session.tree.nextId = some tree) (ht : Tree.Mirrors ρ.nodes own tree tree') :
    EndAlike (fun s' t' => CallFrame.Mirrors ρ N own written s count
        ⟨s', f.operands.set index f.session.tree.nextId⟩ ⟨t', g.operands.set index g.session.tree.nextId⟩)
      Eq { f.session with tree } { g.session with tree := tree' }
      (v.expression scope f.session.tree.nextId)
      (v'.expression (ρ.scopes.scope scope) g.session.tree.nextId) := by
  obtain ⟨hgoes, htracks, hcount⟩ := h.stays
  obtain ⟨hsince, -, hrecast, hwrapped⟩ := htracks.insertCast hcall ho hd target.toTarget hr
  have hstart := course_goes.trans hgoes
    ⟨.of_tree hsince ⟨rfl, rfl, rfl⟩ rfl rfl, hρ.upholds.tree hgoes.2 hp hsince.1 hrecast⟩
  have hi := (List.getElem?_eq_some_iff.mp ho).1
  have hpart := hρ.upholds.isPart_of_tracks hp hcall hwrapped (List.mem_set hi f.session.tree.nextId)
  have hvisible := hscope.mono hstart.1.scopes
  have hrun := hv.guarded.expression (course_goes.stays hstart) hpart hvisible.lt_size
  have hplace : (f.operands.set index f.session.tree.nextId)[index]? = some f.session.tree.nextId := by
    simp [hi]
  have hfound : ρ.FindsWrapped N own { f.session with tree } scope f.session.tree.nextId :=
    hkey.elim (fun hmore _ _ _ => .inl hmore) fun hkey =>
      hfinds.operand hρ hcall hop hstart.1 hwrapped hplace hkey
  have hend := hv.expression (course_goes.stays hstart) (h.session.withTree ht) hpart hvisible hfound
  rw [h.session.tree.nextId] at hend
  have hset : g.operands.set index g.session.tree.nextId =
      (f.operands.set index f.session.tree.nextId).map ρ.nodes.node := by
    rw [h.operands, List.map_set, h.session.tree.nextId]
  exact hend.imp fun hm => ⟨⟨course_goes.trans hstart hrun.rel,
    hwrapped.onSession hrun.rel.1.rewrites.1 hrun.rel.1.rewrites.2, by simpa using hcount⟩, hm, hset⟩

/-- The same operand is cast, unless it is a keyword. -/
theorem castTo {index : Nat} (hkey : ρ.more = [] ∨ op.signature.isKeyword index = false)
    (target : DataType) :
    Checking.Mirrors (CallFrame.Mirrors ρ N own written s count)
      (CallFrame.castTo v scope call index target)
      (CallFrame.castTo v' (ρ.scopes.scope scope) call index target) := by
  intro f g h
  refine CallFrame.endAlike_castTo (Q := Eq) h (h.isDefault hρ hp hcall index) ?_
  rw [h.operand? index]
  cases ho : f.operands[index]? with
  | none => exact .none
  | some operand =>
  refine .some fun hd => ?_
  have hgrown : Tree.Mirrors ρ.nodes own (f.session.tree.pushCast operand target.toTarget true)
      (g.session.tree.pushCast (ρ.nodes.node operand) target.toTarget true) :=
    h.session.tree.push _ _ _
  refine ⟨fun _ => ?_, ?_⟩
  · obtain ⟨hgoes, htracks, hcount⟩ := h.stays
    obtain ⟨hsince, -, hrecast⟩ := htracks.pushCast hcall ho hd target.toTarget
    refine h.of_session ⟨?_, htracks.onSession hsince.1 hsince.2, hcount⟩ (h.session.withTree hgrown)
    exact course_goes.trans hgoes
      ⟨.of_tree hsince ⟨rfl, rfl, rfl⟩ rfl rfl, hρ.upholds.tree hgoes.2 hp hsince.1 hrecast⟩
  · have hreplaced := hgrown.replaceOperand? (.inl hp.1) index f.session.tree.nextId
    rw [hρ.node_eq hp.1, h.session.tree.nextId] at hreplaced
    generalize hr : (f.session.tree.pushCast operand target.toTarget true).replaceOperand? call index
      f.session.tree.nextId = replaced, hr' : (g.session.tree.pushCast (ρ.nodes.node operand)
      target.toTarget true).replaceOperand? call index g.session.tree.nextId = replaced'
      at hreplaced ⊢
    cases hreplaced with
    | none => exact .none
    | some ht => exact .some (hv.endAlike_inserted hρ hscope hfinds hp hcall hop hkey h ho hd hr ht)

/-- The operator's check sees the same call. -/
theorem callView (hm : Session.Mirrors ρ own s t) :
    CallView.Alike .equality (CallFrame.Mirrors ρ N own written s count)
      (CallFrame.view v scope call op s.settings s.engine)
      (CallFrame.view v' (ρ.scopes.scope scope) call op t.settings t.engine) where
  operator := rfl
  coerces := congrArg Settings.coercion hm.settings
  engine := hm.engine
  count := by
    intro f g h
    show g.operands.length = f.operands.length
    rw [h.operands, List.length_map]
  isNull index h := h.isNull hρ hp hcall index
  isDefault index h := h.isDefault hρ hp hcall index
  typeOf := hv.typeOf hρ hscope hfinds hp hcall hop
  note := by
    rintro f g request _ - h
    obtain ⟨hgoes, htracks, hcount⟩ := h.stays
    have hrewrites := hgoes.1.rewrites.1
    have hsince : Session.RewritesSince N.tree f.session.tree
        { f.session with requests := f.session.requests ++ [request] } :=
      ⟨⟨hrewrites.rewritten, hrewrites.closed⟩, .refl _ _⟩
    refine h.of_session ⟨?_, htracks.onSession hsince.1 hsince.2, hcount⟩ (h.session.withRequests _ _)
    exact course_goes.trans hgoes ⟨.of_tree hsince ⟨rfl, rfl, rfl⟩ rfl rfl, hgoes.2⟩

/-- The engine does the same for families that do not look at keywords. The standard one leaves those
    alone, and any other one comes with a catalog that has no further tables. -/
theorem coercesAlike (hm : Session.Mirrors ρ own s t) :
    CallView.Mirrors .equality (CallFrame.Mirrors ρ N own written s count)
      (fun families => ∀ index, op.signature.isKeyword index = true → index < families.length →
        families[index]? = some .ignore)
      (CallFrame.view v scope call op s.settings s.engine)
      (CallFrame.view v' (ρ.scopes.scope scope) call op t.settings t.engine) := by
  have halike : CallView.Alike .equality (CallFrame.Mirrors ρ N own written s count)
      (CallFrame.view v scope call op s.settings s.engine)
      (CallFrame.view v' (ρ.scopes.scope scope) call op t.settings t.engine) :=
    hv.callView hρ hscope hfinds hp hcall hop hm
  refine ⟨halike, fun {families types types'} hspares htypes => ?_⟩
  rcases id hfinds with hmore | ⟨hengine, -⟩
  · refine halike.coerce _ htypes (halike.run ?_ (s.engine.respects_equality _ _ _ _ htypes))
    rintro index target _ rfl
    exact hv.castTo hρ hscope hfinds hp hcall hop (.inl hmore) target
  · let view := CallFrame.view v scope call op s.settings s.engine
    have hplan : ∀ types, view.engine.plan view.operator types families =
        .implicitCasts 0 false (types.zip families) := fun types =>
      congrArg (fun engine : CoercionEngine => engine.plan op.name types families) hengine
    refine halike.coerce _ htypes ?_
    rw [hplan types, hplan types']
    refine halike.run_implicitCasts (Likeness.forall₂_zip htypes families) 0 false ?_
    rintro index source family target _ hget himplicit rfl
    obtain ⟨-, hfamily⟩ := List.getElem?_zip_eq_some.mp hget
    rw [Nat.zero_add]
    refine hv.castTo hρ hscope hfinds hp hcall hop (.inr ?_) target
    refine Bool.eq_false_iff.mpr fun hkey => ?_
    obtain ⟨hi, -⟩ := List.getElem?_eq_some_iff.mp hfamily
    rw [hspares index hkey hi] at hfamily
    cases hfamily
    rw [CallView.implicitCast?_ignore] at himplicit
    cases himplicit

/-- A call is checked alike. -/
theorem checkCall (hs : Session.Goes N.tree Session.OwnsSources s s)
    (hm : Session.Mirrors ρ own s t) (hall : CallFrame.Tracks N.tree written ⟨s, all⟩) :
    EndAlike (Session.Mirrors ρ own) Eq s t (SqlTyping.checkCall v scope call op all)
      (SqlTyping.checkCall v' (ρ.scopes.scope scope) call op (all.map ρ.nodes.node)) := by
  have hstart : CallFrame.Mirrors ρ N own written s all.length ⟨s, all⟩
      ⟨t, all.map ρ.nodes.node⟩ := ⟨⟨hs, hall, rfl⟩, hm, rfl⟩
  have hmirrors : (op.signature.check (CallFrame.view v scope call op s.settings s.engine)).Mirrors
      (CallFrame.Mirrors ρ N own written s all.length)
      (op.signature.check (CallFrame.view v' (ρ.scopes.scope scope) call op t.settings t.engine)) :=
    (hv.coercesAlike hρ hscope hfinds hp hcall hop hm).check op.signature
      fun _ _ hleaf _ _ _ _ _ hkey hi => Signature.ignore_of_isKeyword hkey hleaf hi
  -- The frames are left, their sessions stay.
  exact (hmirrors _ _ hstart).within rfl rfl fun _ _ h => h.session

omit hcall hop in
/-- A call has the same type. -/
theorem callType (hs : Session.Goes N.tree Session.OwnsSources s s) (hm : Session.Mirrors ρ own s t)
    {operands : List NodeId} (hn : s.tree.node? call = some (.call name operands)) :
    EndAlike (Session.Mirrors ρ own) Eq s t (SqlTyping.callType v scope call name operands)
      (SqlTyping.callType v' (ρ.scopes.scope scope) call name (operands.map ρ.nodes.node)) := by
  obtain ⟨written, hcall, hw⟩ := hs.1.rewrites.1.rewritten.call_of_call hn
  unfold SqlTyping.callType
  refine .state_bind ?_
  rw [Host.session_self, Host.session_self, hm.operators, List.length_map]
  cases hop : s.operators.lookup? name with
  | none => exact .fail hm
  | some op =>
    refine .ite (fun _ => .fail hm) fun _ => ?_
    refine (hm.padded op.signature operands).bind_runs
      (hρ.upholds.runs_padded hp hs hn hw op.signature) ?_
    rintro all _ s₁ t₁ hs₁ ⟨htracks, hmem⟩ rfl hm₁
    have hscope₁ := hscope.mono hs₁.1.scopes
    have hparts : ∀ o ∈ operands, Tree.IsPart N.tree (Tree.HasRoom own rank) depth s₁.tree o :=
      fun o ho => hρ.upholds.isPart_of_tracks hp hcall htracks (hmem o ho)
    have hfound : ∀ s', Session.Goes N.tree Session.OwnsSources s₁ s' → ∀ i o,
        operands[i]? = some o → op.signature.isKeyword (0 + i) = false →
          ρ.FindsWrapped N own s' scope o := by
      intro s' hs' i o ho hkey
      rw [Nat.zero_add] at hkey
      exact hfinds.current hρ hcall hop hs hn (hs₁.1.trans hs'.1) ho hkey
    refine (hv.visitOperands (course_goes.stays hs₁) hm₁ hscope₁ op.signature 0 hparts
      hfound).bind_runs (Session.Upholds.runs_visitOperands hv.guarded (course_goes.stays hs₁)
        hscope₁.lt_size op.signature 0 hparts) fun _ _ s₂ t₂ hs₂ _ _ hm₂ => ?_
    have hscope₂ := hscope₁.mono hs₂.1.scopes
    have hlater₂ := hs₁.1.trans hs₂.1
    have htracks₂ : CallFrame.Tracks N.tree written ⟨s₂, all⟩ :=
      htracks.onSession hs₂.1.rewrites.1 hs₂.1.rewrites.2
    refine (hv.checkCall hρ hscope₂ (hfinds.later hlater₂) hp hcall
      ((congrArg (·.lookup? name) hlater₂.setup.operators).trans hop) (course_goes.stays hs₂) hm₂
        htracks₂).bind_runs (hρ.upholds.runs_checkCall Session.allows_all hv.guarded hp hcall
          (course_goes.stays hs₂) hscope₂.lt_size htracks₂) fun _ _ s₃ t₃ hs₃ _ _ hm₃ => ?_
    -- The operands are read again: casts may have been put around them.
    have hread := (hs₃.1.rewrites.1.tracks_operands hcall).2
    refine .state_bind ?_
    rw [Host.session_self, Host.session_self, hm₃.operands_getD hρ hp.1]
    refine (hv.operandTypes (course_goes.stays hs₃) hm₃ (hscope₂.mono hs₃.1.scopes) hρ op.signature 0
      (fun o ho => hρ.upholds.isPart_of_tracks hp hcall hread ho) fun s' hs' i o ho hkey => ?_).bind
        fun types _ s₄ t₄ _ heq hm₄ => ?_
    · rw [Nat.zero_add] at hkey
      exact hfinds.operand hρ hcall hop ((hlater₂.trans hs₃.1).trans hs'.1)
        (hread.onSession hs'.1.rewrites.1 hs'.1.rewrites.2) ho hkey
    subst heq
    exact .ofExcept_eq hm₄ _

end Visit.Mirrors

end

end SqlTyping
