import SqlTyping.Proofs.Session.Retyping

namespace SqlTyping

/-!
# Calls whose operands fit

While a call is validated its operands are looked at, cast and looked at again. In the end, if there is
a result, they fit the operator's signature (`CallSite.ends_callType`):

* `CallSite` — a call of the statement with its operator;
* `CallSite.Follows` — the frame of the call follows the statement: nothing outside the call has
  been touched, and its operands are those of the call in the tree;
* `CallSite.Holds` — moreover every operand with a type has only calls below it that fit;
* `CallSite.Knows` — what is known of an operand's type.
-/

/-- A call of the statement of a session, with its operator. -/
structure CallSite (b : Session) where
  call : NodeId
  name : String
  written : List NodeId
  op : Operator
  node : b.tree.node? call = some (.call name written)
  operator : b.operators.lookup? name = some op

namespace CallSite

open Checking

variable {b : Session}

/-- The operand at `index` of the statement is `a`, and it is no keyword. -/
def Looks (c : CallSite b) (index : Nat) (a : NodeId) : Prop :=
  c.op.signature.isKeyword index = false ∧ c.written[index]? = some a

/-- Since the session `start` only what belongs to the call has been touched; the frame has as many
    operands as the call shows, each around the operand written, and the tree has the same. -/
structure Follows (c : CallSite b) (start : Session) (f : CallFrame) : Prop where
  within : b.Within (b.StrictlyBelow c.call) (b.Below c.call) start f.session
  tracks : f.Tracks b.tree c.written
  synced : f.session.tree.node? c.call = some (.call c.name (f.operands.take c.written.length))
  count : f.operands.length = c.op.signature.shownCount c.written.length

/-- Moreover the calls below an operand fit once the operand has a type. -/
structure Holds (c : CallSite b) (start : Session) (f : CallFrame) : Prop
    extends c.Follows start f where
  fits : ∀ {index a operand}, c.Looks index a → f.operands[index]? = some operand →
    (f.session.types.get? operand).isSome = true → b.FitsBelow f.session a

/-- The type of the operand is recorded, or nobody asks for it: it is a keyword or a placeholder. -/
def Knows (c : CallSite b) (f : CallFrame) (index : Nat) (type : DataType) : Prop :=
  c.written.length ≤ index ∨ c.op.signature.isKeyword index = true ∨
    ∃ operand, f.operands[index]? = some operand ∧ f.session.types.get? operand = some type

variable {c : CallSite b} {start s' : Session} {f : CallFrame} {index : Nat} {a operand : NodeId}
  {v : Visit} {scope : ScopeId} {settings : Settings} {engine : CoercionEngine}

/-! ### Operands written -/

theorem Looks.visits (h : c.Looks index a) : b.tree.Visits b.operators c.call a :=
  ⟨_, c.node, OperatorTable.mem_visitedOperands c.operator h.1 h.2⟩

/-- Every operand that validation looks at stands somewhere. -/
theorem exists_looks (h : b.tree.Visits b.operators c.call a) : ∃ index, c.Looks index a := by
  obtain ⟨node, hn, hmem⟩ := h
  rw [c.node] at hn
  cases hn
  obtain ⟨op, index, hop, hkey, hget⟩ := OperatorTable.exists_of_mem_visitedOperands hmem
  rw [c.operator] at hop
  cases hop
  exact ⟨index, hkey, hget⟩

theorem written_length_le (h : c.Follows start f) : c.written.length ≤ f.operands.length := by
  rw [h.count]
  exact Signature.le_shownCount _ _

/-- The operand of the frame wraps the one written. -/
theorem Follows.wraps (h : c.Follows start f) (ha : c.written[index]? = some a)
    (ho : f.operands[index]? = some operand) : Tree.Wraps b.tree f.session.tree a operand := by
  rcases h.tracks.operand index operand ho with ⟨x, hx, hw, -⟩ | ⟨hi, -, -⟩
  · rw [ha] at hx
    cases hx
    exact hw
  · obtain ⟨hlt, -⟩ := List.getElem?_eq_some_iff.mp ha
    omega

/-- The operands of the frame are nodes. -/
theorem Follows.lt_size (h : c.Follows start f) (ho : f.operands[index]? = some operand) :
    operand.index < f.session.tree.size := by
  rcases h.tracks.operand index operand ho with ⟨_, -, -, hn⟩ | ⟨-, -, hn⟩
  · exact Tree.isSome_node?_iff.mp hn
  · exact Tree.lt_size_of_node? hn

section

variable (hforest : b.tree.IsForest)

include hforest

theorem Looks.lt_size (h : c.Looks index a) : a.index < b.tree.size :=
  hforest.lt_size_of_child h.visits.child

/-- Two places have different operands. -/
theorem Looks.index_eq {other : Nat} (h : c.Looks index a) (h' : c.Looks other a) :
    index = other := by
  obtain ⟨hi, hget⟩ := List.getElem?_eq_some_iff.mp h.2
  obtain ⟨hj, hget'⟩ := List.getElem?_eq_some_iff.mp h'.2
  exact (hforest.nodup_children c.node).getElem_inj_iff.mp (hget.trans hget'.symm)

/-- Validating an operand does not touch the call. -/
theorem Looks.not_below (h : c.Looks index a) : ¬ b.Below a c.call :=
  fun hb => hforest.not_above_parent h.visits.child hb.child

/-- Nor does it touch another operand. -/
theorem Looks.apart {other : Nat} {x : NodeId} (h : c.Looks index a) (h' : c.Looks other x)
    (hne : index ≠ other) : a ≠ x ∧ ¬ b.Below a x := by
  have hax : a ≠ x := by
    rintro rfl
    exact hne (h.index_eq hforest h')
  refine ⟨hax, fun hb => ?_⟩
  exact hforest.siblings_apart h.visits.child h'.visits.child hax hb.child .refl

/-- The frame follows the statement while an operand is validated. -/
theorem Follows.visited (h : c.Follows start f) (hl : c.Looks index a)
    (hw : b.Within (b.Below a) (b.Below a) f.session s') : c.Follows start ⟨s', f.operands⟩ where
  within := h.within.trans (hw.mono (fun _ hb => Relation.TransGen.head' hl.visits hb)
    fun _ hb => Relation.ReflTransGen.head hl.visits hb)
  tracks := h.tracks.onSession hw.continues.rewrites hw.added
  synced := by
    rw [hw.node? c.call (Tree.lt_size_of_node? c.node) (hl.not_below hforest)]
    exact h.synced
  count := h.count

/-- An operand is validated so that its calls fit if it gets a type. -/
theorem Holds.visited (h : c.Holds start f) (hl : c.Looks index a)
    (ho : f.operands[index]? = some operand)
    (hw : b.Within (b.Below a) (b.Below a) f.session s')
    (hfits : (s'.types.get? operand).isSome = true → b.FitsBelow s' a) :
    c.Holds start ⟨s', f.operands⟩ where
  toFollows := h.toFollows.visited hforest hl hw
  fits {other x current} hl' ho' htype := by
    by_cases hi : other = index
    · subst hi
      obtain rfl := Option.some.inj (hl.2.symm.trans hl'.2)
      obtain rfl := Option.some.inj (ho.symm.trans ho')
      exact hfits htype
    · obtain ⟨hne, hbelow⟩ := hl.apart hforest hl' (Ne.symm hi)
      have hsame := hw.types x current (hl'.lt_size hforest) hbelow (h.wraps hl'.2 ho')
      simp only at htype
      rw [hsame] at htype
      exact (h.fits hl' ho' htype).apart hforest h.within.continues hw hl'.visits.child
        hl.visits.child (Ne.symm hne)

/-- The frame follows the statement while a placeholder is looked at. -/
theorem Holds.untouched (h : c.Holds start f)
    (hw : b.Within (fun _ => False) (fun _ => False) f.session s') :
    c.Holds start ⟨s', f.operands⟩ where
  within := h.within.trans (hw.mono (fun _ hb => hb.elim) fun _ hb => hb.elim)
  tracks := h.tracks.onSession hw.continues.rewrites hw.added
  synced := by
    rw [hw.node? c.call (Tree.lt_size_of_node? c.node) fun hb => hb]
    exact h.synced
  count := h.count
  fits {other x current} hl' ho' htype := by
    have hsame := hw.types x current (hl'.lt_size hforest) (fun hb => hb) (h.wraps hl'.2 ho')
    simp only at htype
    rw [hsame] at htype
    refine (h.fits hl' ho' htype).within hforest h.within.continues hw ?_ ?_
    · exact fun _ _ _ _ ht => (ht.elim (fun hb => hb) fun hb => hb).elim
    · exact fun _ _ _ _ _ _ _ _ _ hb => hb

/-! ### Looking at an operand -/

variable (scope settings engine)

omit hforest in
/-- Nothing that is known is lost when operands with a type are not touched. -/
theorem Holds.refines {retyped rewritten : NodeId → Prop} (h : c.Holds start f)
    (hw : b.Within retyped rewritten f.session s')
    (hkept : ∀ {other x current}, c.Looks other x → f.operands[other]? = some current →
      (f.session.types.get? current).isSome = true →
        s'.types.get? current = f.session.types.get? current) :
    (CallFrame.view v scope c.call c.op settings engine).Refines c.Knows f ⟨s', f.operands⟩ where
  count := rfl
  isNull other := by
    change ((f.operands[other]?).bind s'.tree.node?).any Node.isNullLiteral =
      ((f.operands[other]?).bind f.session.tree.node?).any Node.isNullLiteral
    cases ho : f.operands[other]? with
    | none => rfl
    | some current => exact hw.isNull_eq h.within.continues (h.lt_size ho)
  isDefault other := by
    change ((f.operands[other]?).bind s'.tree.node?).any Node.isDefault =
      ((f.operands[other]?).bind f.session.tree.node?).any Node.isDefault
    cases ho : f.operands[other]? with
    | none => rfl
    | some current => exact hw.isDefault_eq h.within.continues (h.lt_size ho)
  known other type hknown := by
    rcases hknown with hi | hkey | ⟨current, ho, htype⟩
    · exact .inl hi
    · exact .inr (.inl hkey)
    · by_cases hi : c.written.length ≤ other
      · exact .inl hi
      by_cases hkey : c.op.signature.isKeyword other = true
      · exact .inr (.inl hkey)
      refine .inr (.inr ⟨current, ho, ?_⟩)
      have hl : c.Looks other c.written[other] :=
        ⟨by simpa using hkey, List.getElem?_eq_getElem (by omega)⟩
      exact (hkept hl ho (by rw [htype]; rfl)).trans htype

/-- An operand that is no keyword is looked up: its type is known afterwards, and nothing else that
    is known is lost. -/
theorem Holds.ends_recorded (hv : v.Sound b) (h : c.Holds start f)
    (hkey : c.op.signature.isKeyword index = false) (ho : f.operands[index]? = some operand) :
    (v.recorded scope operand).Ends (· = f.session)
      (fun type s' => c.Holds start ⟨s', f.operands⟩ ∧
        (CallFrame.view v scope c.call c.op settings engine).Refines c.Knows f ⟨s', f.operands⟩ ∧
        c.Knows ⟨s', f.operands⟩ index type)
      (fun s' => c.Holds start ⟨s', f.operands⟩ ∧
        (CallFrame.view v scope c.call c.op settings engine).Refines c.Knows f
          ⟨s', f.operands⟩) := by
  refine ends_state_bind fun s hs => ?_
  subst hs
  cases htype : f.session.types.get? operand with
  | some type =>
    refine ends_pure fun s' hs' => ?_
    subst hs'
    exact ⟨h, .refl _, .inr (.inr ⟨operand, ho, htype⟩)⟩
  | none =>
    rcases h.tracks.operand index operand ho with ⟨a, ha, hwraps, -⟩ | ⟨hi, hnew, hdefault⟩
    -- A written operand without a type is validated.
    · have hl : c.Looks index a := ⟨hkey, ha⟩
      have hkept : ∀ {s'}, b.Within (b.Below a) (b.Below a) f.session s' →
          (CallFrame.view v scope c.call c.op settings engine).Refines c.Knows f
            ⟨s', f.operands⟩ := by
        intro s' hw
        refine h.refines scope settings engine hw fun {other x current} hl' ho' hsome => ?_
        have hi : index ≠ other := by
          rintro rfl
          obtain rfl := Option.some.inj (ho.symm.trans ho')
          simp [htype] at hsome
        exact hw.types x current (hl'.lt_size hforest) (hl.apart hforest hl' hi).2
          (h.wraps hl'.2 ho')
      refine (hv.expression scope h.within.continues (hl.lt_size hforest) hwraps).imp (fun _ h => h) ?_ ?_
      · rintro type s' ⟨hw, hfits, hnew⟩
        exact ⟨h.visited hforest hl ho hw fun _ => hfits, hkept hw,
          .inr (.inr ⟨operand, ho, hnew⟩)⟩
      · rintro s' ⟨hw, hsame⟩
        refine ⟨h.visited hforest hl ho hw fun hsome => ?_, hkept hw⟩
        rw [hsame, htype] at hsome
        cases hsome
    -- A placeholder has no calls below it.
    · intro s hs
      subst hs
      have hw := hv.placeholder scope h.within.continues hnew hdefault
      have hholds := h.untouched hforest hw
      have hrefines : (CallFrame.view v scope c.call c.op settings engine).Refines c.Knows f
          ⟨(v.expression scope operand f.session).2, f.operands⟩ :=
        h.refines scope settings engine hw fun hl' ho' _ =>
          hw.types _ _ (hl'.lt_size hforest) (fun hb => hb) (h.wraps hl'.2 ho')
      cases hr : v.expression scope operand f.session with
      | mk r s' =>
        rw [hr] at hholds hrefines
        simp only [hr]
        cases r with
        | ok type => exact ⟨hholds, hrefines, .inl hi⟩
        | error e => exact ⟨hholds, hrefines⟩

/-! ### Casting an operand -/

omit hforest in
/-- Nodes are added, and no node but the call is replaced. -/
theorem Follows.within_tree (h : c.Follows start f) {tree : Tree}
    (hr : Tree.RewrittenFrom b.tree tree) (hd : tree.NoDangling)
    (hk : Tree.KeepsAdded b.tree f.session.tree tree)
    (hn : ∀ id, id.index < b.tree.size → id ≠ c.call → tree.node? id = f.session.tree.node? id) :
    b.Within (fun _ => False) (· = c.call) f.session { f.session with tree } where
  continues :=
    { rewrites := ⟨hr, hd⟩
      operators := h.within.continues.operators
      engine := h.within.continues.engine
      settings := h.within.continues.settings
      recorded := fun id hid =>
        Nat.lt_of_lt_of_le (h.within.continues.recorded id hid) hk.size_le }
  added := hk
  node? := hn
  types _ _ _ _ _ := rfl

/-- The operands of the call are replaced by casts without a type. -/
theorem Holds.replaced (h : c.Holds start f) {s' : Session} {operands : List NodeId}
    (hw : b.Within (fun _ => False) (· = c.call) f.session s')
    (htracks : CallFrame.Tracks b.tree c.written ⟨s', operands⟩)
    (hsynced : s'.tree.node? c.call = some (.call c.name (operands.take c.written.length)))
    (hcount : operands.length = f.operands.length)
    (hsame : ∀ {other : Nat} {current : NodeId}, operands[other]? = some current →
      (s'.types.get? current).isSome = true →
        f.operands[other]? = some current ∧ (f.session.types.get? current).isSome = true) :
    c.Holds start ⟨s', operands⟩ where
  within := h.within.trans (hw.mono (fun _ hb => hb.elim) (by rintro _ rfl; exact .refl))
  tracks := htracks
  synced := hsynced
  count := hcount.trans h.count
  fits {other x current} hl ho htype := by
    obtain ⟨ho', htype'⟩ := hsame ho htype
    refine (h.fits hl ho' htype').within hforest h.within.continues hw ?_ ?_
    · rintro call _ _ hbelow (hb | rfl)
      · exact hb.elim
      · exact absurd hbelow (hl.not_below hforest)
    · exact fun _ _ _ _ _ _ _ _ _ hb => hb

omit hforest in
/-- A cast is added to the statement and the call is pointed at it; no other node changes. -/
theorem Follows.within_inserted (h : c.Follows start f) (hl : c.Looks index a)
    (ho : f.operands[index]? = some operand)
    (hne : f.session.tree.node? operand ≠ some .default) {target : CastTarget} {tree : Tree}
    (ht : (f.session.tree.pushCast operand target true).replaceOperand? c.call index
      f.session.tree.nextId = some tree) :
    b.Within (fun _ => False) (· = c.call) f.session { f.session with tree } ∧
      Tree.Wraps b.tree tree a f.session.tree.nextId ∧
        tree.node? f.session.tree.nextId = some (.cast operand target true) := by
  obtain ⟨hr, hclosed⟩ := h.within.continues.rewrites
  have hsome := Tree.isSome_node?_iff.mpr (h.lt_size ho)
  obtain ⟨htree, htreeClosed, hkeep, hwrap, hself⟩ :=
    hr.insertCast hclosed c.node hl.2 (h.wraps hl.2 ho) hsome hne ht
  refine ⟨h.within_tree htree htreeClosed hkeep fun id hid hne => ?_, hwrap, hself⟩
  rw [Tree.node?_replaceOperand?_ne ht hne, Tree.pushCast, Tree.node?_push, if_neg]
  exact Tree.ne_nextId_of_lt (Nat.lt_of_lt_of_le hid hr.size_le)

/-- The operands of the call fit as before, and the cast has no type yet. -/
theorem Holds.inserted (h : c.Holds start f) (hl : c.Looks index a)
    (ho : f.operands[index]? = some operand)
    (hne : f.session.tree.node? operand ≠ some .default) {target : CastTarget} {tree : Tree}
    (ht : (f.session.tree.pushCast operand target true).replaceOperand? c.call index
      f.session.tree.nextId = some tree) :
    c.Holds start ⟨{ f.session with tree }, f.operands.set index f.session.tree.nextId⟩ ∧
      Tree.Wraps b.tree tree a f.session.tree.nextId ∧
        f.session.types.get? f.session.tree.nextId = none := by
  obtain ⟨hw, hwrap, hself⟩ := h.within_inserted hl ho hne ht
  have hunrecorded : f.session.types.get? f.session.tree.nextId = none := by
    refine Option.not_isSome_iff_eq_none.mp fun hs => ?_
    exact Nat.lt_irrefl _ (h.within.continues.recorded _ hs)
  refine ⟨h.replaced hforest hw ?_ ?_ (by simp) ?_, hwrap, hunrecorded⟩
  · refine ⟨hw.continues.rewrites, fun other current hc => ?_⟩
    simp only [List.getElem?_set] at hc
    split at hc
    · rename_i hi
      subst hi
      split at hc
      · cases hc
        exact .inl ⟨a, hl.2, hwrap, by simp [hself]⟩
      · cases hc
    · exact (h.tracks.onSession hw.continues.rewrites hw.added).operand other current hc
  · show tree.node? c.call = some (.call c.name ((f.operands.set _ _).take _))
    rw [Tree.node?_insertCast h.synced ht, List.take_set]
  · intro other current hc hs
    simp only [List.getElem?_set] at hc
    split at hc
    · split at hc
      · cases hc
        simp [hunrecorded] at hs
      · cases hc
    · exact ⟨hc, hs⟩

/-- Casting an operand that is no keyword keeps what is known of the call, whatever comes of it. -/
theorem keeps_castTo (hv : v.Sound b) (hkey : c.op.signature.isKeyword index = false)
    (target : DataType) :
    (CallFrame.castTo v scope c.call index target).Keeps (c.Holds start) := by
  intro f hf
  rcases hf.tracks.castTo_synced v scope hf.synced index target with
    hnone | ⟨a, operand, tree, ha, ho, -, hne, ht, hcast⟩
  · rw [hnone]
    exact hf
  have hl : c.Looks index a := ⟨hkey, ha⟩
  obtain ⟨hheld, hwrap, hunrecorded⟩ := hf.inserted hforest hl ho hne ht
  have hnew : (f.operands.set index f.session.tree.nextId)[index]? =
      some f.session.tree.nextId := by
    obtain ⟨hi, -⟩ := List.getElem?_eq_some_iff.mp ho
    simp [hi]
  have hend := hv.expression scope hheld.within.continues (hl.lt_size hforest) hwrap _ rfl
  rw [hcast]
  cases hx : v.expression scope f.session.tree.nextId { f.session with tree } with
  | mk r s =>
    rw [hx] at hend
    cases r with
    | ok type => exact hheld.visited hforest hl hnew hend.1 fun _ => hend.2.1
    | error e =>
      refine hheld.visited hforest hl hnew hend.1 fun hs => ?_
      rw [hend.2] at hs
      simp [hunrecorded] at hs

/-! ### The operator's check -/

/-- The type of an operand is looked up in its frame. -/
theorem Holds.ends_typeOf (hv : v.Sound b) (h : c.Holds start f) (index : Nat) :
    (CallFrame.typeOf v scope c.op index).Ends (· = f)
      (fun type f' => c.Holds start f' ∧
        (CallFrame.view v scope c.call c.op settings engine).Refines c.Knows f f' ∧
        c.Knows f' index type)
      (fun f' => c.Holds start f' ∧
        (CallFrame.view v scope c.call c.op settings engine).Refines c.Knows f f') := by
  refine ends_state_bind fun f' hf' => ?_
  subst hf'
  cases ho : f'.operands[index]? with
  | none =>
    refine ends_fail fun g hg => ?_
    subst hg
    exact ⟨h, .refl _⟩
  | some operand =>
    refine Ends.ite (fun hkey => ends_pure fun g hg => ?_) fun hkey => ?_
    · subst hg
      exact ⟨h, .refl _, .inr (.inl hkey)⟩
    · intro g hg
      subst hg
      have hend := h.ends_recorded scope settings engine hforest hv (by simpa using hkey) ho _ rfl
      simp only [CallFrame.onSession, Checking.focus]
      cases hr : v.recorded scope operand g.session with
      | mk r s' =>
        rw [hr] at hend
        cases r with
        | ok type => exact hend
        | error e => exact hend

/-- Looking at operands settles what is known of them. -/
theorem settles_view (start : Session) (hv : v.Sound b) :
    (CallFrame.view v scope c.call c.op settings engine).Settles (c.Holds start) c.Knows where
  keeps index f h := by
    have hend := h.ends_typeOf scope settings engine hforest hv index f rfl
    change c.Holds start (CallFrame.typeOf v scope c.op index f).2
    cases hr : CallFrame.typeOf v scope c.op index f with
    | mk r f' =>
      rw [hr] at hend
      cases r with
      | ok type => exact hend.1
      | error e => exact hend.1
  refines index f h := by
    have hend := h.ends_typeOf scope settings engine hforest hv index f rfl
    change (CallFrame.view v scope c.call c.op settings engine).Refines c.Knows f
      (CallFrame.typeOf v scope c.op index f).2
    cases hr : CallFrame.typeOf v scope c.op index f with
    | mk r f' =>
      rw [hr] at hend
      cases r with
      | ok type => exact hend.2.1
      | error e => exact hend.2
  known {index f type f'} h hr := by
    have hend := h.ends_typeOf scope settings engine hforest hv index f rfl
    have hr : CallFrame.typeOf v scope c.op index f = (.ok type, f') := hr
    rw [hr] at hend
    exact hend.2.2

/-- The families do not look at keywords. -/
def SparesKeywords (c : CallSite b) (positions : List Family) : Prop :=
  ∀ index, c.op.signature.isKeyword index = true → index < positions.length →
    positions[index]? = some .ignore

omit hforest in
/-- With the standard engine a check keeps what looking at operands, casting those that are no
    keywords, and requests to the engine keep. -/
theorem keeps_of_castTo {P : CallFrame → Prop}
    (htype : ∀ index, (CallFrame.typeOf v scope c.op index).Keeps P)
    (hcast : ∀ index target, c.op.signature.isKeyword index = false →
      (CallFrame.castTo v scope c.call index target).Keeps P)
    (hrequest : ∀ (f : CallFrame) requests, P f → P ⟨{ f.session with requests }, f.operands⟩) :
    (CallFrame.view v scope c.call c.op settings .implicitCasts).Keeps P c.SparesKeywords where
  typeOf := htype
  coerce _ types positions hspares := by
    refine CallView.keeps_coerce htype (fun request f h => hrequest f _ h) ?_
    refine CallView.keeps_run_implicitCasts fun index source family target hget himplicit => ?_
    obtain ⟨-, hfamily⟩ := List.getElem?_zip_eq_some.mp hget
    rw [Nat.zero_add]
    refine hcast index target ?_
    -- A keyword has no conversion.
    refine Bool.eq_false_iff.mpr fun hkey => ?_
    obtain ⟨hi, -⟩ := List.getElem?_eq_some_iff.mp hfamily
    rw [hspares index hkey hi] at hfamily
    cases hfamily
    rw [CallView.implicitCast?_ignore] at himplicit
    cases himplicit

omit hforest in
/-- Requests to the engine are no part of the statement. -/
theorem within_requests {s : Session} (hs : b.Continues s) (requests : List CoercionRequest) :
    b.Within (fun _ => False) (fun _ => False) s { s with requests } :=
  ⟨⟨⟨hs.rewrites.1, hs.rewrites.2⟩, hs.operators, hs.engine, hs.settings, hs.recorded⟩, .refl _ _,
    fun _ _ _ => rfl, fun _ _ _ _ _ => rfl⟩

/-- With the standard engine a check keeps what is known of the call. -/
theorem keeps_view (start : Session) (hv : v.Sound b) :
    (CallFrame.view v scope c.call c.op settings .implicitCasts).Keeps (c.Holds start)
      c.SparesKeywords :=
  keeps_of_castTo scope settings (settles_view scope settings .implicitCasts hforest start hv).keeps
    (fun _ target hkey => keeps_castTo scope hforest hv hkey target)
    fun _ requests h => h.untouched hforest (within_requests h.within.continues requests)

omit hforest in
/-- The leaves of the operator spare keywords, and the number of operands is fixed. -/
theorem asksFor_leaves (v : Visit) (c : CallSite b) (start : Session) :
    (CallFrame.view v scope c.call c.op settings engine).AsksFor (c.Holds start) c.SparesKeywords
      c.op.signature.leaves where
  asked _ _ hmem _ _ _ _ hkey hi := Signature.ignore_of_isKeyword hkey hmem hi
  count _ _ h h' := h.count.trans h'.count.symm

/-- A check that has an answer leaves operands that fit a leaf. -/
theorem ends_check (hv : v.Sound b) (hfinite : c.op.signature.IsFinite)
    (hadmits : c.op.arity.admits c.written.length = true) (h : c.Holds start f) :
    (c.op.signature.check (CallFrame.view v scope c.call c.op b.settings .implicitCasts)).Ends (· = f)
      (fun _ f' => c.Holds start f' ∧
        (CallFrame.view v scope c.call c.op b.settings .implicitCasts).Accepts c.Knows
          c.op.signature.leaves f')
      (c.Holds start) := by
  rintro f₀ rfl
  have hkeeps := keeps_view (c := c) scope b.settings hforest start hv
  have hsettles := settles_view (c := c) scope b.settings .implicitCasts hforest start hv
  have hasks := asksFor_leaves scope b.settings .implicitCasts v c start
  have hheld := hkeeps.check c.op.signature hasks.asked _ h
  cases hr : c.op.signature.check (CallFrame.view v scope c.call c.op b.settings .implicitCasts) f₀ with
  | mk r f' =>
    rw [hr] at hheld
    cases r with
    | error e => exact hheld
    | ok answer =>
      refine ⟨hheld, ?_⟩
      cases hsignature : c.op.signature with
      | families positions omittable =>
        rw [hsignature] at hr hasks
        -- The call shows as many operands as the families have positions.
        have hadmits : (Signature.families positions omittable).arity.admits
            c.written.length = true := by
          rw [← hsignature]
          exact hadmits
        have hcount : positions.length = f₀.operands.length := by
          have hshown := Signature.shownCount_of_admits hadmits
          have := h.count
          rw [hsignature, hshown] at this
          exact this.symm
        exact hsettles.accepts_of_familiesCheck hkeeps hasks h hcount hr
      | oneOf alternatives =>
        rw [hsignature] at hr hasks hfinite
        exact hsettles.accepts_of_check_oneOf hkeeps alternatives hfinite hasks h hr
      | openEnded least answer =>
        rw [hsignature] at hfinite
        exact absurd (by simp [Signature.leaves]) (hfinite least answer)

omit hforest in
/-- The check of a call is that of its operator's signature. -/
theorem checkCall_eq (v : Visit) (hengine : b.engine = .implicitCasts) {s : Session}
    (hs : b.Continues s) (all : List NodeId) :
    checkCall v scope c.call c.op all s =
      ((c.op.signature.check (CallFrame.view v scope c.call c.op b.settings .implicitCasts)
          ⟨s, all⟩).1,
        (c.op.signature.check (CallFrame.view v scope c.call c.op b.settings .implicitCasts)
          ⟨s, all⟩).2.session) := by
  unfold checkCall
  rw [Host.session_self, hs.settings, hs.engine, hengine]

/-- An operator whose check has an answer has a leaf that the operands fit. -/
theorem ends_checkCall (hv : v.Sound b) (hengine : b.engine = .implicitCasts)
    (hfinite : c.op.signature.IsFinite) (hadmits : c.op.arity.admits c.written.length = true)
    {s : Session} {all : List NodeId} (h : c.Holds start ⟨s, all⟩) :
    (checkCall v scope c.call c.op all).Ends (· = s)
      (fun _ s' => ∃ f, f.session = s' ∧ c.Holds start f ∧
        (CallFrame.view v scope c.call c.op b.settings .implicitCasts).Accepts c.Knows
          c.op.signature.leaves f)
      (fun s' => ∃ f, f.session = s' ∧ c.Holds start f) := by
  rintro s₁ rfl
  have hend := ends_check scope hforest hv hfinite hadmits h _ rfl
  rw [checkCall_eq scope v hengine h.within.continues]
  cases hr : c.op.signature.check (CallFrame.view v scope c.call c.op b.settings .implicitCasts)
      ⟨s₁, all⟩ with
  | mk r f =>
    rw [hr] at hend
    cases r with
    | error e => exact ⟨f, rfl, hend⟩
    | ok answer => exact ⟨f, rfl, hend⟩

/-! ### Before and after the check -/

/-- The operands from `index` on are those of the frame. -/
def FromIndex (all : List NodeId) (index : Nat) (operands : List NodeId) : Prop :=
  ∀ k operand, operands[k]? = some operand → all[index + k]? = some operand

omit hforest in
/-- The first operands of a frame, in particular those written. -/
theorem FromIndex.take (all : List NodeId) (n : Nat) : FromIndex all 0 (all.take n) := by
  intro k operand hk
  rw [List.getElem?_take] at hk
  split at hk
  · rwa [Nat.zero_add]
  · cases hk

omit hforest in
theorem FromIndex.tail {all rest : List NodeId} (h : FromIndex all index (operand :: rest)) :
    all[index]? = some operand ∧ FromIndex all (index + 1) rest := by
  refine ⟨h 0 operand rfl, fun k x hx => ?_⟩
  have := h (k + 1) x hx
  rwa [show index + (k + 1) = index + 1 + k by omega] at this

/-- Once the operands have been validated in order, the calls below them fit. -/
theorem ends_visitOperands (start : Session) (hv : v.Sound b) (index : Nat) (all operands : List NodeId)
    (hlength : index + operands.length ≤ c.written.length) (hfrom : FromIndex all index operands) :
    (visitOperands v scope c.op.signature index operands).Ends
      (fun s => c.Follows start ⟨s, all⟩ ∧
        ∀ i a, i < index → c.Looks i a → b.FitsBelow s a)
      (fun _ s => c.Follows start ⟨s, all⟩ ∧
        ∀ i a, i < index + operands.length → c.Looks i a → b.FitsBelow s a)
      (fun s => c.Follows start ⟨s, all⟩) := by
  induction operands generalizing index with
  | nil => exact ends_pure fun s hs => by simpa using hs
  | cons operand rest ih =>
    obtain ⟨ho, hrest⟩ := hfrom.tail
    have hlength : index + 1 + rest.length ≤ c.written.length := by
      simp only [List.length_cons] at hlength
      omega
    have hih := ih (index + 1) hlength hrest
    rw [show index + (operand :: rest).length = index + 1 + rest.length by
      simp only [List.length_cons]
      omega]
    unfold visitOperands
    refine Ends.ite (fun hkey => ?_) fun hkey => ?_
    · have hkey : c.op.signature.isKeyword index = false := by simpa using hkey
      have hl : c.Looks index c.written[index] := ⟨hkey, List.getElem?_eq_getElem (by omega)⟩
      refine Ends.bind (fun s hs => ?_) fun _ => hih
      have hend := hv.expression scope hs.1.within.continues (hl.lt_size hforest)
        (hs.1.wraps hl.2 ho) s rfl
      cases hr : v.expression scope operand s with
      | mk r s' =>
        rw [hr] at hend
        cases r with
        | error e => exact hs.1.visited hforest hl hend.1
        | ok type =>
          refine ⟨hs.1.visited hforest hl hend.1, fun i a hi hla => ?_⟩
          by_cases heq : i = index
          · subst heq
            obtain rfl := Option.some.inj (hl.2.symm.trans hla.2)
            exact hend.2.1
          · obtain ⟨hne, -⟩ := hl.apart hforest hla (Ne.symm heq)
            exact (hs.2 i a (by omega) hla).apart hforest hs.1.within.continues hend.1
              hla.visits.child hl.visits.child (Ne.symm hne)
    -- A keyword is nothing to look at.
    · refine hih.imp (fun s hs => ⟨hs.1, fun i a hi hla => ?_⟩) (fun _ _ h => h) fun _ h => h
      have hne : i ≠ index := by
        rintro rfl
        simp [hla.1] at hkey
      exact hs.2 i a (by omega) hla

/-- After the check the type of every operand is looked up once more. -/
theorem ends_operandTypes (hv : v.Sound b) (f₀ : CallFrame) {all operands : List NodeId}
    (hfrom : FromIndex all index operands) :
    (operandTypes v scope c.op.signature index operands).Ends
      (fun s => c.Holds start ⟨s, all⟩ ∧
        (CallFrame.view v scope c.call c.op settings engine).Refines c.Knows f₀ ⟨s, all⟩ ∧
        ∀ i, i < index → ∃ type, c.Knows ⟨s, all⟩ i type)
      (fun _ s => c.Holds start ⟨s, all⟩ ∧
        (CallFrame.view v scope c.call c.op settings engine).Refines c.Knows f₀ ⟨s, all⟩ ∧
        ∀ i, i < index + operands.length → ∃ type, c.Knows ⟨s, all⟩ i type)
      (fun s => c.Holds start ⟨s, all⟩) := by
  induction operands generalizing index with
  | nil => exact ends_pure fun s hs => by simpa using hs
  | cons operand rest ih =>
    obtain ⟨ho, hrest⟩ := hfrom.tail
    rw [show index + (operand :: rest).length = index + 1 + rest.length by
      simp only [List.length_cons]
      omega]
    unfold operandTypes
    refine Ends.ite (fun hkey => ?_) fun hkey => ?_
    · refine Ends.bind (ends_pure fun s hs => ?_) fun type =>
        (ih hrest).bind fun types => ends_pure fun _ h => h
      refine ⟨hs.1, hs.2.1, fun i hi => ?_⟩
      by_cases heq : i = index
      · subst heq
        exact ⟨.symbol, .inr (.inl hkey)⟩
      · exact hs.2.2 i (by omega)
    · refine Ends.bind (fun s hs => ?_) fun type =>
        (ih hrest).bind fun types => ends_pure fun _ h => h
      have hend := hs.1.ends_recorded scope settings engine hforest hv (by simpa using hkey) ho s rfl
      cases hr : v.recorded scope operand s with
      | mk r s' =>
        rw [hr] at hend
        cases r with
        | error e => exact hend.1
        | ok type =>
          refine ⟨hend.1, hs.2.1.trans hend.2.1, fun i hi => ?_⟩
          by_cases heq : i = index
          · subst heq
            exact ⟨type, hend.2.2⟩
          · obtain ⟨t, ht⟩ := hs.2.2 i (by omega)
            exact ⟨t, hend.2.1.known i t ht⟩

/-! ### The call -/

omit hforest in
/-- The frame of a call with placeholders behind the operands. -/
theorem follows_padded {s : Session} {operands all : List NodeId} (hs : b.Continues s)
    (hcall : s.tree.node? c.call = some (.call c.name operands))
    (hpad : padded c.op.signature operands s = (.ok all, s')) :
    c.Follows s ⟨s', all⟩ ∧ operands = all.take c.written.length := by
  obtain ⟨written, hwritten, hwraps⟩ := hs.rewrites.rewritten.call_of_call hcall
  rw [c.node] at hwritten
  cases hwritten
  have hlength := hwraps.length_eq
  have htracks := (tracksSince_padded ⟨hs.rewrites, .refl _ _⟩ hcall hwraps hpad).1
  have hle := Signature.le_shownCount c.op.signature operands.length
  rw [padded_apply] at hpad
  split at hpad
  · rename_i hnone
    cases hpad
    have htake : operands.take c.written.length = operands := List.take_of_length_le (by omega)
    refine ⟨⟨.refl hs, htracks, by rw [htake]; exact hcall, ?_⟩, htake.symm⟩
    simp only [hlength]
    omega
  · cases hpad
    have htake : (operands ++ List.replicate (c.op.signature.shownCount operands.length -
        operands.length) s.tree.nextId).take c.written.length = operands := by
      rw [hlength, List.take_left']
      rfl
    have hkept : ∀ id, id.index < s.tree.size → (s.tree.push .default).node? id = s.tree.node? id := by
      intro id hid
      rw [Tree.node?_push, if_neg (Tree.ne_nextId_of_lt hid)]
    obtain ⟨hgrown, hclosed⟩ := hs.rewrites.rewritten.push_default hs.rewrites.closed
    refine ⟨⟨⟨⟨⟨hgrown, hclosed⟩, hs.operators, hs.engine, hs.settings, ?_⟩, Tree.keepsAdded_push _ _,
      ?_, fun _ _ _ _ _ => rfl⟩, htracks, ?_, ?_⟩, htake.symm⟩
    · intro id hid
      have := hs.recorded id hid
      simp only [Tree.size_push]
      omega
    · intro id hid _
      exact hkept id (Nat.lt_of_lt_of_le hid hs.rewrites.rewritten.size_le)
    · rw [htake]
      exact (hkept _ (Tree.lt_size_of_node? hcall)).trans hcall
    · simp only [List.length_append, List.length_replicate, hlength]
      omega

omit hforest in
/-- When the operands of the frame fit a leaf and the types are known, the call fits. -/
theorem fits_of_accepts (h : c.Holds start f)
    (haccepts : (CallFrame.view v scope c.call c.op b.settings engine).Accepts c.Knows
      c.op.signature.leaves f) :
    f.session.Fits c.name (f.operands.take c.written.length) := by
  obtain ⟨positions, omittable, hleaf, hcount, hfits⟩ := haccepts
  have hle := written_length_le h.toFollows
  have hcount : positions.length = f.operands.length := hcount
  refine ⟨c.op, positions, omittable, ?_, hleaf, ?_, ?_⟩
  · rw [h.within.continues.operators, c.operator]
  · rw [List.length_take, Nat.min_eq_left hle, hcount, h.count]
  intro index operand hget
  obtain ⟨hi, hget⟩ : index < c.written.length ∧ f.operands[index]? = some operand := by
    rw [List.getElem?_take] at hget
    split at hget
    · exact ⟨by assumption, hget⟩
    · cases hget
  have hfamily : positions[index]? = some positions[index] :=
    List.getElem?_eq_getElem (by omega)
  refine ⟨positions[index], hfamily, ?_⟩
  by_cases hkey : c.op.signature.isKeyword index = true
  · have hignore := Signature.ignore_of_isKeyword hkey hleaf (by omega)
    rw [hfamily] at hignore
    rw [Option.some.inj hignore]
    exact .unchecked
  have hadmits := hfits index _ hfamily
  rw [Nat.zero_add] at hadmits
  have hdefault : (CallFrame.view v scope c.call c.op b.settings engine).isDefault f index =
      f.session.isDefault operand := by
    change ((f.operands[index]?).bind _).any _ = _
    rw [hget]
    rfl
  have hnull : (CallFrame.view v scope c.call c.op b.settings engine).isNull f index =
      f.session.isNull operand := by
    change ((f.operands[index]?).bind _).any _ = _
    rw [hget]
    rfl
  unfold CallView.Admits at hadmits
  rw [hdefault, hnull] at hadmits
  rw [h.within.continues.settings]
  refine Legal.mono hadmits fun type hknown => ?_
  rcases hknown with hle | hkey' | ⟨current, hcurrent, htype⟩
  · omega
  · exact absurd hkey' hkey
  · rw [hget] at hcurrent
    cases hcurrent
    exact htype

/-- Since `start` the call has been validated within itself; it fits, and so do the calls below its
    operands. -/
def Answered (c : CallSite b) (start s : Session) : Prop :=
  ∃ current, b.Within (b.StrictlyBelow c.call) (b.Below c.call) start s ∧
    s.tree.node? c.call = some (.call c.name current) ∧ s.Fits c.name current ∧
      ∀ a, b.tree.Visits b.operators c.call a → b.FitsBelow s a

/-- The operands written are validated in order, and the calls below them fit afterwards. -/
theorem ends_visitWritten (hv : v.Sound b) (start : Session) {all operands : List NodeId}
    (hlength : operands.length = c.written.length) (htake : operands = all.take c.written.length) :
    (visitOperands v scope c.op.signature 0 operands).Ends (fun s => c.Follows start ⟨s, all⟩)
      (fun _ s => c.Holds start ⟨s, all⟩)
      (fun s => b.Within (b.StrictlyBelow c.call) (b.Below c.call) start s) := by
  have hend := ends_visitOperands (c := c) scope hforest start hv 0 all operands (by omega)
    (htake ▸ .take all c.written.length)
  refine hend.imp (fun s h => ⟨h, fun _ _ hi => absurd hi (Nat.not_lt_zero _)⟩) ?_ fun s h => h.within
  refine fun _ s h => ⟨h.1, fun {i a _} hl _ _ => h.2 i a ?_ hl⟩
  obtain ⟨hi, -⟩ := List.getElem?_eq_some_iff.mp hl.2
  omega

/-- The operands of a call that fits are looked at once more, which makes all types known. -/
theorem ends_typesWritten (hv : v.Sound b) (h : c.Holds start f)
    (haccepts : (CallFrame.view v scope c.call c.op b.settings .implicitCasts).Accepts c.Knows
      c.op.signature.leaves f) :
    (operandTypes v scope c.op.signature 0 (f.operands.take c.written.length)).Ends (· = f.session)
      (fun _ s => c.Answered start s)
      (fun s => b.Within (b.StrictlyBelow c.call) (b.Below c.call) start s) := by
  refine (ends_operandTypes scope b.settings .implicitCasts hforest hv f (.take _ _)).imp ?_ ?_
    fun _ h => h.within
  · rintro _ rfl
    exact ⟨h, .refl _, fun _ hi => absurd hi (Nat.not_lt_zero _)⟩
  · rintro _ s' ⟨hagain, hrefines, hknown⟩
    refine ⟨_, hagain.within, hagain.synced,
      fits_of_accepts scope .implicitCasts hagain (haccepts.refines hrefines), fun a ha => ?_⟩
    obtain ⟨index, hl⟩ := exists_looks ha
    obtain ⟨hi, -⟩ := List.getElem?_eq_some_iff.mp hl.2
    have hlen := written_length_le h.toFollows
    have htake : index < 0 + (f.operands.take c.written.length).length := by
      rw [List.length_take]
      omega
    obtain ⟨type, hle | hkey | ⟨operand, ho, htype⟩⟩ := hknown index htake
    · omega
    · rw [hl.1] at hkey
      cases hkey
    · exact hagain.fits hl ho (by rw [htype]; rfl)

/-- A call is validated within itself, and with a result only if it fits and so do the calls below
    its operands. -/
theorem ends_callType (hv : v.Sound b) (hengine : b.engine = .implicitCasts)
    (hfinite : c.op.signature.IsFinite) {s : Session} {operands : List NodeId} (hs : b.Continues s)
    (hcall : s.tree.node? c.call = some (.call c.name operands)) :
    (callType v scope c.call c.name operands).Ends (· = s) (fun _ s' => c.Answered s s')
      (fun s' => b.Within (b.StrictlyBelow c.call) (b.Below c.call) s s') := by
  refine ends_state_bind fun s₀ hs₀ => ?_
  subst hs₀
  have hop : s₀.operators.lookup? c.name = some c.op := by
    rw [hs.operators, c.operator]
  rw [Host.session_self, hop]
  simp only [Host.lift_self]
  refine Ends.ite (fun _ => ends_fail ?_) fun hadmits => ?_
  · rintro _ rfl
    exact .refl hs
  obtain ⟨all, s₁, hpad⟩ := exists_padded c.op.signature operands s₀
  obtain ⟨hfollows, htake⟩ := follows_padded hs hcall hpad
  have hlength : operands.length = c.written.length := by
    rw [htake, List.length_take, Nat.min_eq_left (written_length_le hfollows)]
  have hadmits : c.op.arity.admits c.written.length = true := by
    simpa [hlength] using hadmits
  -- The operator's check has an answer only if the operands fit.
  have hcheck : (checkCall v scope c.call c.op all).Ends (fun s => c.Holds s₀ ⟨s, all⟩)
      (fun _ s => ∃ f, f.session = s ∧ c.Holds s₀ f ∧
        (CallFrame.view v scope c.call c.op b.settings .implicitCasts).Accepts c.Knows
          c.op.signature.leaves f)
      (fun s => b.Within (b.StrictlyBelow c.call) (b.Below c.call) s₀ s) := by
    intro s₂ h
    have hend := ends_checkCall scope hforest hv hengine hfinite hadmits h
    refine (hend.imp (fun _ h => h) (fun _ _ h => h) ?_) s₂ rfl
    rintro _ ⟨f, rfl, hf⟩
    exact hf.within
  intro s hs'
  subst hs'
  rw [bind_of_ok hpad]
  refine ((ends_visitWritten scope hforest hv _ hlength htake).bind fun _ => hcheck.bind fun _ => ?_)
    s₁ hfollows
  refine ends_state_bind fun s₂ => ?_
  rintro ⟨f, rfl, hf, haccepts⟩
  have hcurrent : (f.session.tree.operands? c.call).getD [] =
      f.operands.take c.written.length := by
    simp [Tree.operands?, hf.synced, Node.operands?]
  rw [Host.session_self, hcurrent]
  refine (ends_typesWritten scope hforest hv hf haccepts).bind fun types =>
    ends_ofExcept (fun _ _ h _ => h) fun s h => ?_
  obtain ⟨-, hwithin, -⟩ := h
  exact hwithin

end

end CallSite

end SqlTyping
