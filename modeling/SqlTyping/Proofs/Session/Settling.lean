import SqlTyping.Proofs.Session.Answers
import SqlTyping.Proofs.Session.Requerying

namespace SqlTyping

/-!
# Expressions that can be validated again

The type of an expression comes from what is left when the casts around it are taken off, and from
these casts. Both are still there when the expression is validated once more:

* `castType` — the type of an expression from the type of what is under its casts;
* `Session.Typed` — what is under the casts around an expression is settled;
* `Session.Typed.settled` — so is the expression then;
* `Session.Typed.cast` — and the expression with one more cast around it;
* `Session.Typed.later` — and it stays so while other parts of the statement are validated;
* `Session.TypesParts` — expressions are typed by validation to a given depth.
-/

open Checking

/-- The type of an expression under casts, outermost first, in which something of type `type` is
    left. -/
def castType (type : DataType) : List (NodeId × CastTarget) → DataType
  | [] => type
  | (_, target) :: inner => .ofTarget target (castType type inner).nullable

/-- The types of casts are recorded, and nothing else happens. -/
theorem exists_recordCasts (type : DataType) (casts : List (NodeId × CastTarget)) (s : Session) :
    ∃ types, recordCasts type casts s = (.ok (castType type casts), { s with types }) := by
  induction casts with
  | nil => exact ⟨s.types, rfl⟩
  | cons cast rest ih =>
    obtain ⟨types, hr⟩ := ih
    refine ⟨types.put cast.1 (castType type (cast :: rest)), ?_⟩
    unfold recordCasts
    rw [bind_of_ok hr]
    rfl

/-- Casts are taken off again when they are still there and what is left is still no cast. -/
theorem Tree.peelCasts_of_kept {t t' : Tree} {fuel fuel' : Nat} {id core : NodeId}
    {casts : List (NodeId × CastTarget)} (h : t.peelCasts fuel id = (casts, core))
    (hfuel : fuel ≤ fuel')
    (hkept : ∀ z ∈ casts, ∀ node, t.node? z.1 = some node → t'.node? z.1 = some node)
    (hcore : ∀ operand target implicit, t'.node? core ≠ some (.cast operand target implicit)) :
    t'.peelCasts fuel' id = (casts, core) := by
  induction fuel generalizing id casts fuel' with
  | zero =>
    cases h
    exact peelCasts_of_not_cast hcore fuel'
  | succ fuel ih =>
    unfold Tree.peelCasts at h
    split at h
    · rename_i operand target implicit hcast
      obtain ⟨inner, core', hinner⟩ : ∃ inner core', t.peelCasts fuel operand = (inner, core') :=
        ⟨_, _, rfl⟩
      simp only [hinner, Prod.mk.injEq] at h
      obtain ⟨rfl, rfl⟩ := h
      obtain ⟨fuel', rfl⟩ := Nat.exists_eq_add_of_le' (Nat.one_le_of_lt hfuel)
      have hcast' := hkept (id, target) (List.mem_cons_self ..) _ hcast
      have hrest := ih hinner (Nat.le_of_succ_le_succ hfuel)
        fun z hz => hkept z (List.mem_cons_of_mem _ hz)
      unfold Tree.peelCasts
      simp only [hcast', hrest]
    · cases h
      exact peelCasts_of_not_cast hcore fuel'

/-- What is taken off are casts. -/
theorem Tree.exists_cast_of_mem_peelCasts {t : Tree} {fuel : Nat} {id core : NodeId}
    {casts : List (NodeId × CastTarget)} (h : t.peelCasts fuel id = (casts, core))
    {z : NodeId × CastTarget} (hz : z ∈ casts) :
    ∃ operand implicit, t.node? z.1 = some (.cast operand z.2 implicit) := by
  induction fuel generalizing id casts with
  | zero =>
    cases h
    cases hz
  | succ fuel ih =>
    unfold Tree.peelCasts at h
    split at h
    · rename_i operand target implicit hcast
      obtain ⟨inner, core', hinner⟩ : ∃ inner core', t.peelCasts fuel operand = (inner, core') :=
        ⟨_, _, rfl⟩
      simp only [hinner, Prod.mk.injEq] at h
      obtain ⟨rfl, rfl⟩ := h
      rcases List.mem_cons.mp hz with rfl | hz
      · exact ⟨operand, implicit, hcast⟩
      · exact ih hinner hz
    · cases h
      cases hz

namespace Session

variable {b s s' : Session} {left left' : Tree} {view : View} {a x y core : NodeId} {depth : Nat}
  {type : DataType}

/-! ### Expressions with casts around them -/

/-- In the tree `left` the expression `x` is the node `a` of the statement with casts around it. When
    casts are taken off, written ones included, what is left has a settled type, and `type` is the type
    of the whole. -/
inductive Typed (b : Session) (left : Tree) (view : View) (a x : NodeId) : Nat → DataType → Prop
  | mk {depth : Nat} {casts : List (NodeId × CastTarget)} {core : NodeId} {node : Node}
    {inner : DataType} (hgrown : b.tree.size ≤ left.size)
    (hpeel : left.peelCasts left.size x = (casts, core)) (hnode : left.node? core = some node)
    (hcast : ∀ operand target implicit, node ≠ .cast operand target implicit)
    (hpeeled : Tree.Peeled b.operators b.tree left a casts core)
    (hsettled : b.Settled depth left view (b.Below core)
      (fun v scope => expressionType v scope core node) inner) :
    Typed b left view a x (depth + 1) (castType inner casts)

/-- The casts that are taken off are nodes of the part, or were added around one. -/
theorem Hosts.peelCasts_eq {casts : List (NodeId × CastTarget)} {node : Node} {fuel fuel' : Nat}
    (h : b.Hosts (b.Below a) left left') (hpeel : left.peelCasts fuel x = (casts, core))
    (hfuel : fuel ≤ fuel') (hnode : left.node? core = some node)
    (hcast : ∀ operand target implicit, node ≠ .cast operand target implicit)
    (hpeeled : Tree.Peeled b.operators b.tree left a casts core) :
    left'.peelCasts fuel' x = (casts, core) := by
  refine Tree.peelCasts_of_kept hpeel hfuel (fun z hz n hn => ?_) fun operand target implicit hc => ?_
  · obtain ⟨y, -, hw, hy, -⟩ := hpeeled.wraps z hz
    exact h.node? hw hy hn
  · rw [h.own core node hpeeled.below hnode] at hc
    exact hcast operand target implicit (Option.some.inj hc)

/-- What is taken off, and what is left, are nodes of the tree. -/
theorem lt_size_of_peeled {casts : List (NodeId × CastTarget)}
    (h : Tree.Peeled b.operators b.tree left a casts core) (hgrown : b.tree.size ≤ left.size)
    (hz : y ∈ casts.map (·.1) ++ [core]) : y.index < left.size := by
  rcases List.mem_append.mp hz with hz | hz
  · obtain ⟨z, hmem, rfl⟩ := List.mem_map.mp hz
    obtain ⟨x, hx, hw, -⟩ := h.wraps z hmem
    exact hw.lt_size (Nat.lt_of_lt_of_le hx hgrown)
  · obtain rfl := List.mem_singleton.mp hz
    exact Nat.lt_of_lt_of_le h.lt_size hgrown

/-- An expression is settled when what is under its casts is. -/
theorem Typed.settled (h : b.Typed left view a x depth type) :
    b.Settled depth left view (b.Below a) (fun v scope => v.expression scope x) type := by
  intro deeper scope t hd ht hhosts hsees
  cases h with
  | @mk depth casts core node inner hgrown hpeel hnode hcast hpeeled hsettled =>
    have hunder : ∀ id, b.Below core id → b.Below a id := fun _ hid => hpeeled.below.trans hid
    obtain ⟨deeper, rfl⟩ := Nat.exists_eq_add_of_le' (Nat.one_le_of_lt hd)
    obtain ⟨t₁, hrun, hreplays, hleaves⟩ :=
      hsettled deeper scope t (Nat.le_of_succ_le_succ hd) ht (hhosts.mono hunder) hsees
    obtain ⟨types, hrecord⟩ := exists_recordCasts inner casts
      { t₁ with types := t₁.types.put core inner }
    refine ⟨{ t₁ with types }, ?_, hreplays.trans ?_, ?_⟩
    · show expressionStep (visitAt deeper) scope x t = _
      unfold expressionStep
      rw [bind_of_ok (state_apply t)]
      simp only [Host.session_self, Host.lift_self,
        hhosts.peelCasts_eq hpeel hhosts.added.size_le hnode hcast hpeeled]
      rw [bind_of_ok (node_of_some (hhosts.own core node hpeeled.below hnode)), bind_of_ok hrun]
      exact hrecord
    -- Types are recorded for nodes that were there already.
    · have hsize := Nat.le_trans hhosts.added.size_le hreplays.size_le
      refine hreplays.revisits.quiet
        (fun z hz => Nat.lt_of_lt_of_le (lt_size_of_peeled hpeeled hgrown hz) hsize) ?_
      obtain ⟨result, s', hr, hq, -⟩ := exists_recordTypes inner casts core t₁
      obtain ⟨-, rfl⟩ := Prod.mk.inj (hrecord.symm.trans hr)
      exact hq
    · exact (hleaves.mono hunder).trans (.of_same rfl rfl)

/-- A typed expression stays typed while its part is not touched. -/
theorem Typed.later (h : b.Typed left view a x depth type) (hhosts : b.Hosts (b.Below a) left left') :
    b.Typed left' view a x depth type := by
  cases h with
  | @mk depth casts core node inner hgrown hpeel hnode hcast hpeeled hsettled =>
    refine .mk (Nat.le_trans hgrown hhosts.added.size_le)
      (hhosts.peelCasts_eq hpeel hhosts.added.size_le hnode hcast hpeeled)
      (hhosts.own core node hpeeled.below hnode) hcast
      ⟨hpeeled.lt_size, hpeeled.below, fun z hz => ?_, hpeeled.rest⟩
      (hsettled.later (hhosts.mono fun _ hid => hpeeled.below.trans hid))
    obtain ⟨y, hy, hw, hbelow⟩ := hpeeled.wraps z hz
    exact ⟨y, hy, hw.mono hhosts.added, hbelow⟩

/-- One more cast is put around a typed expression. -/
theorem Typed.cast (h : b.Typed left view a x depth type) (hhosts : b.Hosts (b.Below a) left left')
    (hsize : left.size < left'.size) (ha : a.index < b.tree.size) {target : CastTarget}
    (hw : Tree.Wraps b.tree left' a y) (hy : left'.node? y = some (.cast x target true)) :
    b.Typed left' view a y depth (.ofTarget target type.nullable) := by
  cases h with
  | @mk depth casts core node inner hgrown hpeel hnode hcast hpeeled hsettled =>
    obtain ⟨fuel, hfuel⟩ := Nat.exists_eq_add_of_le' (Nat.one_le_of_lt hsize)
    have hrest : left'.peelCasts fuel x = (casts, core) :=
      hhosts.peelCasts_eq hpeel (by omega) hnode hcast hpeeled
    have hall : left'.peelCasts left'.size y = ((y, target) :: casts, core) := by
      rw [hfuel]
      unfold Tree.peelCasts
      simp only [hy, hrest]
    have hpeeled' : Tree.Peeled b.operators b.tree left' a ((y, target) :: casts) core := by
      refine ⟨hpeeled.lt_size, hpeeled.below, fun z hz => ?_, hpeeled.rest⟩
      rcases List.mem_cons.mp hz with rfl | hz
      · exact ⟨a, ha, hw, .refl, hpeeled.below⟩
      · obtain ⟨y, hy, hw, hbelow⟩ := hpeeled.wraps z hz
        exact ⟨y, hy, hw.mono hhosts.added, hbelow⟩
    exact .mk (Nat.le_trans hgrown hhosts.added.size_le) hall
      (hhosts.own core node hpeeled.below hnode) hcast hpeeled'
      (hsettled.later (hhosts.mono fun _ hid => hpeeled.below.trans hid))

/-! ### Expressions without casts -/

/-- Expressions without recursive items are typed by validation to the given depth. -/
def TypesParts (b : Session) (depth : Nat) : Prop :=
  ∀ view a x scope s type s', b.Continues s → a.index < b.tree.size → Tree.Wraps b.tree s.tree a x →
    s.Sees scope view → view.Spares (b.Below a) → b.Plain a →
      (visitAt depth).expression scope x s = (.ok type, s') →
        s.Leaves (b.Below a) s' ∧ b.Typed s'.tree view a x depth type

/-- What is left of an expression is typed by validation of its parts to the given depth. Only the
    operands of a call may have changed. -/
def TypesCore (b : Session) (depth : Nat) (core : NodeId) : Prop :=
  ∀ view scope node s type s', b.Continues s → s.tree.node? core = some node → s.Sees scope view →
    view.Spares (b.Below core) → b.Plain core →
      expressionType (visitAt depth) scope core node s = (.ok type, s') →
        s.Leaves (b.Below core) s' ∧ ∃ node', s'.tree.node? core = some node' ∧
          b.Settled depth s'.tree view (b.Below core)
            (fun v scope => expressionType v scope core node') type

/-- A type that comes from the node alone is settled. -/
theorem Settled.of_pure {own : NodeId → Prop} {x : Visit → ScopeId → Validation DataType}
    (h : ∀ v scope, x v scope = Pure.pure type) : b.Settled depth left view own x type :=
  fun deeper scope t _ ht _ _ => ⟨t, by rw [h]; rfl, .refl ht, .refl t⟩

/-- Nodes that are no calls never change. -/
theorem Within.node?_of_no_call {retyped rewritten : NodeId → Prop} {node : Node}
    (h : b.Within retyped rewritten s s') (hs : b.Continues s) (hn : s.tree.node? x = some node)
    (ho : node.operands? = none) : s'.tree.node? x = some node := by
  by_cases hold : x.index < b.tree.size
  · exact h.continues.rewrites.rewritten.other x node
      (hs.rewrites.rewritten.node?_eq hold hn ho) ho
  · rw [h.added.node? x (by omega) (Tree.lt_size_of_node? hn)]
    exact hn

/-- Calls stay calls. -/
theorem Within.ne_cast {retyped rewritten : NodeId → Prop} {node node' : Node}
    (h : b.Within retyped rewritten s s') (hs : b.Continues s) (hn : s.tree.node? x = some node)
    (hcast : ∀ operand target implicit, node ≠ .cast operand target implicit)
    (hn' : s'.tree.node? x = some node') (operand : NodeId) (target : CastTarget) (implicit : Bool) :
    node' ≠ .cast operand target implicit := by
  rintro rfl
  cases node with
  | call name operands =>
    obtain ⟨written, hwritten, -⟩ := hs.rewrites.rewritten.call_of_call hn
    obtain ⟨current, hcall, -⟩ := h.continues.rewrites.rewritten.call x name written hwritten
    rw [hcall] at hn'
    cases hn'
  | cast operand target implicit => exact hcast _ _ _ rfl
  | _ =>
    have hsame := h.node?_of_no_call hs hn rfl
    rw [hn'] at hsame
    cases hsame

section

variable (hforest : b.tree.IsForest) (hfinite : b.operators.IsFinite)
  (hengine : b.engine = .implicitCasts)

include hforest in
/-- A node that is neither a call nor a cast is typed by its parts. -/
theorem SettlesParts.typesCore (hparts : b.SettlesParts depth) (hcore : core.index < b.tree.size)
    (hcall : ∀ name operands, b.tree.node? core ≠ some (.call name operands)) :
    b.TypesCore depth core := by
  intro view scope node s type s' hs hn hsees hspares hplain hok
  have hwritten : ∀ n, node = n → n.operands? = none → b.tree.node? core = some n := by
    rintro n rfl ho
    exact hs.rewrites.rewritten.node?_eq hcore hn ho
  cases node with
  | literal value =>
    cases hok
    exact ⟨.refl _, _, hn, .of_pure fun _ _ => rfl⟩
  | default =>
    cases hok
    exact ⟨.refl _, _, hn, .of_pure fun _ _ => rfl⟩
  | identifier names =>
    have hok : (s.referenceType scope names, s) = (.ok type, s') := hok
    obtain ⟨htype, rfl⟩ := Prod.mk.inj hok
    refine ⟨.refl _, _, hn, fun deeper scope' t _ ht _ hsees' => ⟨t, ?_, .refl ht, .refl t⟩⟩
    have hmatching : t.settings.matching = s.settings.matching := by
      rw [ht.matching, hs.settings]
    exact congrArg (·, t) (referenceType_of_sees hsees hsees' hmatching htype)
  | cursor query =>
    have hvisit : b.tree.Visits b.operators core query :=
      ⟨_, hwritten _ rfl rfl, by simp [Node.visited, Node.children]⟩
    have hunder : ∀ id, b.Below query id → b.Below core id := fun id hid => .head hvisit hid
    obtain ⟨row, s₁, hquery, hrest⟩ := bind_eq_ok_iff.mp hok
    cases hrest
    obtain ⟨hw, hleaves, hsettled⟩ := hparts.query view query (hforest.lt_size_of_child hvisit.child)
      (hspares.mono hunder) (hplain.below (hunder query .refl)) s scope row _ hs hsees hquery
    refine ⟨hleaves.mono hunder, .cursor query, ?_, fun deeper scope' t hd ht hhosts hsees' => ?_⟩
    · exact hw.continues.rewrites.rewritten.other core _ (hwritten _ rfl rfl) rfl
    · obtain ⟨t', hrun, hreplays, hleaves'⟩ :=
        hsettled deeper scope' t hd ht (hhosts.mono hunder) hsees'
      exact ⟨t', bind_of_ok hrun _, hreplays, hleaves'.mono hunder⟩
  | call name operands =>
    obtain ⟨written, hn₀, -⟩ := hs.rewrites.rewritten.call_of_call hn
    exact absurd hn₀ (hcall name written)
  | _ => cases hok

include hforest hfinite hengine

/-- Expressions are typed when what is left of them is. -/
theorem typesParts_succ (hcore : ∀ core, core.index < b.tree.size → b.TypesCore depth core) :
    b.TypesParts (depth + 1) := by
  intro view a x scope s type s' hs ha hwraps hsees hspares hplain hok
  have hok : expressionStep (visitAt depth) scope x s = (.ok type, s') := hok
  unfold expressionStep at hok
  rw [bind_of_ok (state_apply s)] at hok
  obtain ⟨casts, core, hpeel⟩ : ∃ casts core, s.tree.peelCasts s.tree.size x = (casts, core) :=
    ⟨_, _, rfl⟩
  simp only [Host.session_self, Host.lift_self, hpeel] at hok
  obtain ⟨node, s₁, hnode, hrest⟩ := bind_eq_ok_iff.mp hok
  obtain ⟨rfl, hn⟩ := node_eq_ok hnode
  obtain ⟨inner, s₂, htype, hrecord⟩ := bind_eq_ok_iff.mp hrest
  have hcast : ∀ operand target implicit, node ≠ .cast operand target implicit := by
    rintro operand target implicit rfl
    cases htype
  have hp : Tree.Peeled b.operators b.tree s₁.tree a casts core := by
    refine Tree.peeled_of_peelCasts hs.rewrites.rewritten hforest.closed hwraps ha hpeel ?_
    intro operand target implicit hc
    rw [hn] at hc
    exact hcast operand target implicit (Option.some.inj hc)
  have hunder : ∀ id, b.Below core id → b.Below a id := fun _ hid => hp.below.trans hid
  obtain ⟨hleaves, node', hn', hsettled⟩ := hcore core hp.lt_size view scope node s₁ inner s₂ hs hn
    hsees (hspares.mono hunder) (hplain.below hp.below) htype
  have hw : b.Within (b.StrictlyBelow core) (b.Below core) s₁ s₂ := by
    have hend := (visitAt_sound hforest hfinite hengine depth).ends_expressionType hforest hfinite
      hengine scope hs hp.lt_size hn s₁ rfl
    rw [htype] at hend
    exact hend.1
  have hcast' := hw.ne_cast hs hn hcast hn'
  -- Recording types changes neither the tree nor what can be seen.
  obtain ⟨types, hrun⟩ := exists_recordCasts inner casts
    { s₂ with types := s₂.types.put core inner }
  have hrecord : recordCasts inner casts { s₂ with types := s₂.types.put core inner } =
      (.ok type, s') := hrecord
  rw [hrun] at hrecord
  cases hrecord
  refine ⟨(hleaves.mono hunder).trans (.of_same rfl rfl), ?_⟩
  refine .mk hw.continues.rewrites.rewritten.size_le ?_ hn' hcast'
    ⟨hp.lt_size, hp.below, fun z hz => ?_, hp.rest⟩ hsettled
  · refine Tree.peelCasts_of_kept hpeel hw.added.size_le (fun z hz n hz' => ?_) fun _ _ _ hc => ?_
    · obtain ⟨operand, implicit, hcast⟩ := Tree.exists_cast_of_mem_peelCasts hpeel hz
      obtain rfl := Option.some.inj (hcast.symm.trans hz')
      exact hw.node?_of_no_call hs hcast rfl
    · exact hcast' _ _ _ (Option.some.inj (hn'.symm.trans hc))
  · obtain ⟨y, hy, hwy, hbelow⟩ := hp.wraps z hz
    exact ⟨y, hy, hwy.mono hw.added, hbelow⟩

/-- Typed expressions are settled. -/
theorem TypesParts.settles (h : b.TypesParts depth) {e : NodeId} (he : e.index < b.tree.size)
    (hspares : view.Spares (b.Below e)) (hplain : b.Plain e) :
    b.Settles depth view (b.Below e) fun v scope => v.expression scope e := by
  intro s scope type s' hs hsees hok
  obtain ⟨hleaves, htyped⟩ := h view e e scope s type s' hs he .self hsees hspares hplain hok
  have hend := (visitAt_sound hforest hfinite hengine depth).expression scope hs he .self s rfl
  have hok : (visitAt depth).expression scope e s = (.ok type, s') := hok
  rw [hok] at hend
  exact ⟨hend.1.mono (fun _ _ => trivial) fun _ h => h, hleaves, htyped.settled⟩

end

end Session

end SqlTyping
