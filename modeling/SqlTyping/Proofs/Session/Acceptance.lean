import SqlTyping.Proofs.Session.Operands
import SqlTyping.Proofs.Session.Results
import SqlTyping.Proofs.Session.Visits

namespace SqlTyping

/-!
# Accepted statements

When a query is accepted, every call that has got a type has legal operands, in the statement as it is
in the end (`accepted_calls_fit`). A call is checked once its operands have been validated, but it may
be validated again, as part of an operand that is cast or of the first input of a recursive WITH
item; and types that are recorded are not found out again. The proof goes by the depth of validation:

* `Visit.Sound.ends_queryStep` — a query, by a tour through its parts;
* `Visit.Sound.ends_expressionType` — an expression that is no cast, `CallSite.ends_callType` being
  the case of a call;
* `Visit.Sound.ends_expressionStep` — an expression with the casts around it;
* `visitAt_sound` — validation to any depth.
-/

open Checking

variable {b : Session} {v : Visit}

namespace Visit.Sound

variable {scope : ScopeId} {id : NodeId} {s s' : Session}

theorem of_returns (hv : v.Sound b) (hs : b.Continues s) (hid : id.index < b.tree.size)
    (h : v.Returns scope id s s') :
    b.Within (b.Below id) (b.Below id) s s' ∧ b.FitsBelow s' id := by
  obtain ⟨type, h | h⟩ := h
  · have hend := hv.query scope hs hid s rfl
    rw [h] at hend
    exact hend
  · have hend := hv.expression scope hs hid .self s rfl
    rw [h] at hend
    exact ⟨hend.1, hend.2.1⟩

theorem of_fails (hv : v.Sound b) (hs : b.Continues s) (hid : id.index < b.tree.size)
    (h : v.Fails scope id s s') : b.Within (b.Below id) (b.Below id) s s' := by
  obtain ⟨fault, h | h⟩ := h
  · have hend := hv.query scope hs hid s rfl
    rw [h] at hend
    exact hend
  · have hend := hv.expression scope hs hid .self s rfl
    rw [h] at hend
    exact hend.1

end Visit.Sound

section

variable {own retyped : NodeId → Prop} {s s' : Session}

/-- A quiet change gives types to nothing but its own nodes. -/
theorem Session.Continues.within_quiet (hs : b.Continues s)
    (hown : ∀ x, own x → x.index < s.tree.size)
    (hretyped : ∀ a x, a.index < b.tree.size → Tree.Wraps b.tree s.tree a x → own x → retyped a)
    (hq : s.Quiet own s') : b.Within retyped (fun _ => False) s s' where
  continues := {
    rewrites := ⟨hq.tree ▸ hs.rewrites.rewritten, hq.tree ▸ hs.rewrites.closed⟩
    operators := hq.operators.trans hs.operators
    engine := hq.engine.trans hs.engine
    settings := hq.settings.trans hs.settings
    recorded := by
      intro x hx
      rw [hq.tree]
      rcases hq.recorded x hx with hx | hx
      · exact hown x hx
      · exact hs.recorded x hx }
  added := by
    rw [hq.tree]
    exact .refl _ _
  node? _ _ _ := by rw [hq.tree]
  types a x ha hnot hw := hq.types x fun hx => hnot (hretyped a x ha hw hx)

/-- The nodes of the statement itself wrap nothing but themselves. -/
theorem Session.Continues.within_own (hs : b.Continues s)
    (hown : ∀ {x}, own x → x.index < b.tree.size) (hq : s.Quiet own s') :
    b.Within own (fun _ => False) s s' := by
  refine hs.within_quiet (fun x hx => ?_) (fun a x _ hw hx => ?_) hq
  · exact Nat.lt_of_lt_of_le (hown hx) hs.rewrites.rewritten.size_le
  · exact hw.eq_of_lt (hown hx) ▸ hx

end

/-! ### Queries -/

/-- The tour through the parts of a query. On the way only the query itself and its entries get
    types. -/
def Session.queryTour (b : Session) (v : Visit) (id : NodeId) (s : Session) : Tour where
  visit := v
  query := id
  env := []
  parts := ((b.tree.node? id).map (b.tree.queryParts [] id)).getD []
  start := s
  own x := (x = id ∨ b.tree.Visits b.operators id x) ∧
    ∃ node, b.tree.node? x = some node ∧ node.isClause = true
  inv := b.Within (b.Below id) (b.Below id) s
  place _ _ _ := True
  opened _ _ _ := True

section

variable {id : NodeId} {s : Session}

theorem Session.partBelow_of_mem_queryTour {c : NodeId} {env : Env}
    (h : (c, env) ∈ (b.queryTour v id s).parts) : b.tree.PartBelow b.operators id c := by
  unfold Session.queryTour at h
  cases hn : b.tree.node? id with
  | none => simp [hn] at h
  | some n =>
    simp only [hn, Option.map_some, Option.getD_some] at h
    exact Tree.partBelow_of_mem_queryParts hn h

theorem Session.lt_size_of_own {x : NodeId} (h : (b.queryTour v id s).own x) :
    x.index < b.tree.size := by
  obtain ⟨-, node, hn, -⟩ := h
  exact Tree.lt_size_of_node? hn

/-- Quiet changes on the tour stay within the query. -/
theorem Session.within_queryTour {s' s'' : Session} (hinv : (b.queryTour v id s).inv s')
    (hq : s'.Quiet (b.queryTour v id s).own s'') : (b.queryTour v id s).inv s'' := by
  have hinv : b.Within (b.Below id) (b.Below id) s s' := hinv
  refine hinv.trans ((hinv.continues.within_own Session.lt_size_of_own hq).mono ?_ fun _ h => h.elim)
  rintro x ⟨rfl | hx, -⟩
  · exact .refl
  · exact .single hx

/-- The parts of a query are validated so that the tour goes through. -/
theorem Session.sound_queryTour (hforest : b.tree.IsForest) (hv : v.Sound b)
    (hid : id.index < b.tree.size) : (b.queryTour v id s).Sound b.tree := by
  refine .of_quiet (fun _ _ _ => trivial) (fun _ _ _ => trivial) (fun hinv hn hclause => ?_)
    (fun hinv hq => b.within_queryTour hinv hq) fun hinv hpart hret => ?_
  · exact hinv.continues.rewrites.node?_of_isClause hn hclause
  · have hc := (partBelow_of_mem_queryTour hpart).strictlyBelow.below
    have hvisit := (hv.of_returns hinv.continues (hforest.lt_size_of_below hid hc) hret).1
    exact hinv.trans (hvisit.mono (fun _ h => hc.trans h) fun _ h => hc.trans h)

/-- All parts that have been visited fit, whatever has been visited after them. -/
theorem Session.fitsBelow_of_reaches (hforest : b.tree.IsForest) (hv : v.Sound b)
    (hid : id.index < b.tree.size) (hs : b.Continues s) {visited : List (NodeId × Env)}
    {s' : Session} (h : (b.queryTour v id s).Reaches visited s') :
    b.Within (b.Below id) (b.Below id) s s' ∧ ∀ x ∈ visited, b.FitsBelow s' x.1 ∧
      b.tree.PartBelow b.operators id x.1 := by
  have hsound := b.sound_queryTour (s := s) hforest hv hid
  induction h with
  | start => exact ⟨.refl hs, by simp⟩
  | @quiet visited s₁ s₂ _ hinv hq ih =>
    have hnext : b.Within (b.Below id) (b.Below id) s s₂ := b.within_queryTour hinv hq
    refine ⟨hnext, fun x hx => ?_⟩
    obtain ⟨hfits, hpart⟩ := ih.2 x hx
    refine ⟨hfits.within hforest hinv.continues
      (hinv.continues.within_own Session.lt_size_of_own hq) ?_ ?_, hpart⟩
    -- No node that got a type is a call.
    · rintro call name operands - (⟨-, node, hn, hclause⟩ | hfalse) hcall -
      · obtain ⟨written, hwritten, -⟩ := hnext.continues.rewrites.rewritten.call_of_call hcall
        rw [hn] at hwritten
        cases hwritten
        cases hclause
      · exact hfalse.elim
    -- Nor is one an operand below the part: its parent would be the query, or lie above it.
    · rintro call name operands a hbelow - - hcall hvisits ⟨rfl | ha, -⟩
      · exact hforest.acyclic a ((hpart.strictlyBelow.child.trans_left hbelow.child).tail
          hvisits.child)
      · obtain rfl := hforest.parent_unique ha.child hvisits.child
        exact hforest.acyclic id (hpart.strictlyBelow.child.trans_left hbelow.child)
  | @visit visited s₁ s₂ scope c env _ hinv hmem _ hret ih =>
    have hc := Session.partBelow_of_mem_queryTour hmem
    have hsize := hforest.lt_size_of_below hid hc.strictlyBelow.below
    obtain ⟨hwithin, hfits⟩ := hv.of_returns hinv.continues hsize hret
    refine ⟨hsound.returns hinv hmem trivial hret, fun x hx => ?_⟩
    rcases List.mem_append.mp hx with hx | hx
    · obtain ⟨hold, hpart⟩ := ih.2 x hx
      refine ⟨hold.visited hforest hinv.continues hwithin hfits ?_, hpart⟩
      -- The parent of a part of a query is no call.
      intro call name operands _ hcall hchild
      obtain ⟨p, node, -, hn, hclause, hmem⟩ := hc
      obtain rfl := hforest.parent_unique ⟨node, hn, hmem⟩ hchild
      rw [hn] at hcall
      cases hcall
      cases hclause
    · obtain rfl := List.mem_singleton.mp hx
      exact ⟨hfits, hc⟩

/-- A query is validated within its part, and with a result only if all its calls fit. -/
theorem Visit.Sound.ends_queryStep (hforest : b.tree.IsForest) (hv : v.Sound b) (scope : ScopeId)
    (hs : b.Continues s) (hid : id.index < b.tree.size) :
    (queryStep v scope id).Ends (· = s)
      (fun _ s' => b.Within (b.Below id) (b.Below id) s s' ∧ b.FitsBelow s' id)
      (fun s' => b.Within (b.Below id) (b.Below id) s s') := by
  have hsound := b.sound_queryTour (s := s) hforest hv hid
  have hend : (queryStep v scope id).Ends ((b.queryTour v id s).At [(scope, [])] []) _ _ :=
    hsound.ends_queryStep ?_ (List.mem_singleton.mpr rfl) ?_
  · refine hend.imp ?_ ?_ ?_
    · rintro _ rfl
      exact ⟨.start, .refl hs, fun _ _ => trivial⟩
    · rintro _ s' ⟨n, hn, hproper, hat⟩
      obtain ⟨hwithin, hfits⟩ := b.fitsBelow_of_reaches hforest hv hid hs hat.reaches
      refine ⟨hwithin, fun call name operands hbelow hcall htype => ?_⟩
      obtain ⟨written, hwritten, -⟩ := hwithin.continues.rewrites.rewritten.call_of_call hcall
      rcases Tree.clause_or_below_part hn hproper hbelow with ⟨m, hm, hclause⟩ | ⟨c, env, hc, hbelow⟩
      -- Queries and their entries are no calls.
      · rw [hm] at hwritten
        cases hwritten
        cases hclause
      · exact (hfits (c, env) (by simpa using hc)).1 call name operands hbelow hcall htype
    · rintro s' (⟨hreach, -⟩ | ⟨hreach, hinv, hmem, -, hfail⟩)
      · exact (b.fitsBelow_of_reaches hforest hv hid hs hreach).1
      · have hc := (Session.partBelow_of_mem_queryTour hmem).strictlyBelow.below
        have hvisit := hv.of_fails hinv.continues (hforest.lt_size_of_below hid hc) hfail
        exact hinv.trans (hvisit.mono (fun _ h => hc.trans h) fun _ h => hc.trans h)
  · intro n hn x hx node hnode hclause
    refine ⟨?_, node, hnode, hclause⟩
    rcases List.mem_cons.mp hx with rfl | hx
    · exact .inl rfl
    · exact .inr (Tree.visits_of_isClause hn (Node.isClause_of_mem_entries hx)
        (Node.mem_children_of_entries hx))
  · intro n hn part hpart
    have hn : b.tree.node? id = some n := hn
    show part ∈ ((b.tree.node? id).map (b.tree.queryParts [] id)).getD []
    rw [hn]
    exact hpart

end

/-! ### Expressions -/

section

variable {id core : NodeId} {s : Session} {n : Node}

/-- The types of the casts around an expression are recorded, the outermost one last. -/
theorem recordCasts_apply (type : DataType) (casts : List (NodeId × CastTarget)) (s : Session) :
    ∃ result s', recordCasts type casts s = (.ok result, s') ∧ s.Quiet (· ∈ casts.map (·.1)) s' ∧
      (casts.map (·.1)).head?.elim (s' = s ∧ result = type) (s'.types.get? · = some result) := by
  induction casts with
  | nil =>
    exact ⟨type, s, rfl, ⟨rfl, rfl, rfl, rfl, .refl _, fun _ _ => rfl, fun _ h => .inr h⟩, rfl, rfl⟩
  | cons cast rest ih =>
    obtain ⟨id, target⟩ := cast
    obtain ⟨operand, s', hr, hq, -⟩ := ih
    let result := DataType.ofTarget target operand.nullable
    refine ⟨result, { s' with types := s'.types.put id result }, ?_, ?_, ?_⟩
    · unfold recordCasts
      rw [bind_of_ok hr]
      rfl
    · exact (hq.mono fun x hx => List.mem_cons_of_mem _ hx).trans (.record (by simp) result)
    · simp [OrderedMap.get?_put]

/-- The type of an expression is recorded before those of the casts around it; the outermost node gets the
    result. -/
theorem exists_recordTypes (type : DataType) (casts : List (NodeId × CastTarget)) (core : NodeId)
    (s : Session) :
    ∃ result s', (do
        Validation.record core type
        recordCasts type casts : Validation DataType) s = (.ok result, s') ∧
      s.Quiet (· ∈ casts.map (·.1) ++ [core]) s' ∧
        ∀ id, (casts.map (·.1) ++ [core]).head? = some id → s'.types.get? id = some result := by
  obtain ⟨result, s', hrun, hquiet, hlast⟩ :=
    recordCasts_apply type casts { s with types := s.types.put core type }
  refine ⟨result, s', hrun,
    .trans (.record (by simp) type) (hquiet.mono fun x hx => List.mem_append_left _ hx), fun id hid => ?_⟩
  cases casts with
  | nil =>
    obtain ⟨rfl, rfl⟩ := hlast
    obtain rfl : core = id := Option.some.inj hid
    simp [OrderedMap.get?_put]
  | cons cast rest =>
    obtain rfl : cast.1 = id := Option.some.inj hid
    exact hlast

/-- What the validation of an expression comes to that is no cast. -/
def Session.Validated (b s s' : Session) (core : NodeId) : Prop :=
  b.Within (b.StrictlyBelow core) (b.Below core) s s' ∧
    (∀ name operands, s'.tree.node? core = some (.call name operands) → s'.Fits name operands) ∧
      ∀ x, b.tree.Visits b.operators core x → b.FitsBelow s' x

/-- A node without parts is validated without a change. -/
theorem Session.Continues.ends_leaf (hs : b.Continues s) (hcore : core.index < b.tree.size)
    (hn : s.tree.node? core = some n) (ho : n.operands? = none) (hchildren : n.children = [])
    (r : Except Fault DataType) :
    (Checking.ofExcept r : Validation DataType).Ends (· = s) (fun _ s' => b.Validated s s' core)
      (fun s' => b.Within (b.StrictlyBelow core) (b.Below core) s s') := by
  refine ends_ofExcept ?_ ?_
  · rintro type _ rfl -
    refine ⟨.refl hs, ?_, ?_⟩
    · intro name operands hcall
      rw [hn] at hcall
      cases hcall
      cases ho
    · rintro x ⟨m, hm, hx⟩
      rw [hs.rewrites.rewritten.node?_eq hcore hn ho] at hm
      cases hm
      have := Node.mem_children_of_visited hx
      rw [hchildren] at this
      cases this
  · rintro _ rfl
    exact .refl hs

/-- A call is validated strictly below itself. -/
theorem Visit.Sound.ends_call (hforest : b.tree.IsForest)
    (hfinite : ∀ name op, b.operators.lookup? name = some op → op.signature.IsFinite)
    (hengine : b.engine = .implicitCasts) (hv : v.Sound b) (scope : ScopeId) (hs : b.Continues s)
    {name : String} {operands : List NodeId} (hn : s.tree.node? core = some (.call name operands)) :
    (callType v scope core name operands).Ends (· = s) (fun _ s' => b.Validated s s' core)
      (fun s' => b.Within (b.StrictlyBelow core) (b.Below core) s s') := by
  obtain ⟨written, hwritten, -⟩ := hs.rewrites.rewritten.call_of_call hn
  cases hop : b.operators.lookup? name with
  | none =>
    intro s₁ hs₁
    subst hs₁
    have hunknown : callType v scope core name operands s₁ = (.error (.unknownFunction name), s₁) :=
      callType_of_unknown (hs.operators ▸ hop)
    rw [hunknown]
    exact .refl hs
  | some op =>
    let c : CallSite b := ⟨core, name, written, op, hwritten, hop⟩
    refine (c.ends_callType scope hforest hv hengine (hfinite name op hop) hs hn).imp
      (fun _ h => h) ?_ fun _ h => h
    rintro _ s' ⟨current, hw, hcurrent, hfits, hbelow⟩
    refine ⟨hw, fun name' operands' hcall => ?_, hbelow⟩
    rw [hcurrent] at hcall
    cases hcall
    exact hfits

/-- So is a query that stands for the cursor over its rows. -/
theorem Visit.Sound.ends_cursor (hforest : b.tree.IsForest) (hv : v.Sound b) (scope : ScopeId)
    (hs : b.Continues s) (hcore : core.index < b.tree.size) {query : NodeId}
    (hn : s.tree.node? core = some (.cursor query)) :
    (expressionType v scope core (.cursor query)).Ends (· = s) (fun _ s' => b.Validated s s' core)
      (fun s' => b.Within (b.StrictlyBelow core) (b.Below core) s s') := by
  have hcursor := hs.rewrites.rewritten.node?_eq hcore hn rfl
  have hvisits : b.tree.Visits b.operators core query :=
    ⟨_, hcursor, by simp [Node.visited, Node.children]⟩
  have hquery := hv.query scope hs (hforest.lt_size_of_child hvisits.child)
  have hmono : ∀ {s'}, b.Within (b.Below query) (b.Below query) s s' →
      b.Within (b.StrictlyBelow core) (b.Below core) s s' := fun hw =>
    hw.mono (fun _ h => .head' hvisits h) fun _ h => .head hvisits h
  refine Ends.bind (hquery.imp (fun _ h => h) (fun _ _ h => h) fun _ h => hmono h) fun _ => ?_
  refine ends_pure fun s' h => ⟨hmono h.1, ?_, ?_⟩
  · intro name operands hcall
    obtain ⟨written, hwritten, -⟩ := h.1.continues.rewrites.rewritten.call_of_call hcall
    rw [hcursor] at hwritten
    cases hwritten
  · rintro x ⟨m, hm, hx⟩
    rw [hcursor] at hm
    cases hm
    obtain rfl := List.mem_singleton.mp hx
    exact h.2

/-- An expression that is no cast is validated strictly below itself. -/
theorem Visit.Sound.ends_expressionType (hforest : b.tree.IsForest)
    (hfinite : ∀ name op, b.operators.lookup? name = some op → op.signature.IsFinite)
    (hengine : b.engine = .implicitCasts) (hv : v.Sound b) (scope : ScopeId) (hs : b.Continues s)
    (hcore : core.index < b.tree.size) (hn : s.tree.node? core = some n) :
    (expressionType v scope core n).Ends (· = s) (fun _ s' => b.Validated s s' core)
      (fun s' => b.Within (b.StrictlyBelow core) (b.Below core) s s') := by
  have hfail : ∀ e : Fault, (Checking.fail e : Validation DataType).Ends (· = s)
      (fun _ s' => b.Validated s s' core)
      (fun s' => b.Within (b.StrictlyBelow core) (b.Below core) s s') := by
    intro e
    refine ends_fail ?_
    rintro _ rfl
    exact .refl hs
  cases n with
  | literal value => exact hs.ends_leaf hcore hn rfl rfl (.ok value.type)
  | default => exact hs.ends_leaf hcore hn rfl rfl (.ok .any)
  | identifier names =>
    intro s₁ hs₁
    subst hs₁
    exact hs.ends_leaf hcore hn rfl rfl (s₁.referenceType scope names) s₁ rfl
  | call name operands => exact hv.ends_call hforest hfinite hengine scope hs hn
  | cursor query => exact hv.ends_cursor hforest scope hs hcore hn
  | _ => exact hfail _

/-- The types of what is left of an expression and of the casts around it are recorded between the
    expression and what is left. -/
theorem Session.Validated.within (h : b.Validated s s' core) {e : NodeId} {s'' : Session}
    {casts : List (NodeId × CastTarget)} (hp : Tree.Peeled b.operators b.tree s.tree e casts core)
    (hq : s'.Quiet (· ∈ casts.map (·.1) ++ [core]) s'') :
    b.Within (fun x => b.Below e x ∧ b.Below x core) (fun _ => False) s' s'' := by
  have hgrown := h.1.continues.rewrites.rewritten.size_le
  have horigin : ∀ x ∈ casts.map (·.1) ++ [core], ∃ y, y.index < b.tree.size ∧
      Tree.Wraps b.tree s'.tree y x ∧ b.Below e y ∧ b.Below y core := by
    intro x hx
    rcases List.mem_append.mp hx with hx | hx
    · obtain ⟨z, hz, rfl⟩ := List.mem_map.mp hx
      obtain ⟨y, hy, hwy, hey, hyc⟩ := hp.wraps z hz
      exact ⟨y, hy, hwy.mono h.1.added, hey, hyc⟩
    · obtain rfl := List.mem_singleton.mp hx
      exact ⟨x, hp.lt_size, .self, hp.below, .refl⟩
  refine h.1.continues.within_quiet (fun x hx => ?_) (fun y x hy hwy hx => ?_) hq
  · obtain ⟨y, hy, hwy, -⟩ := horigin x hx
    exact hwy.lt_size (Nat.lt_of_lt_of_le hy hgrown)
  · obtain ⟨z, hz, hwz, hbelow⟩ := horigin x hx
    rwa [hwy.unique hwz hy hz]

/-- The calls of an expression fit after the types of the casts around it have been recorded. -/
theorem Session.Validated.fitsBelow (hforest : b.tree.IsForest) {e : NodeId} {s' s'' : Session}
    {casts : List (NodeId × CastTarget)} (h : b.Validated s s' core)
    (hp : Tree.Peeled b.operators b.tree s.tree e casts core)
    (hw : b.Within (fun x => b.Below e x ∧ b.Below x core) (fun _ => False) s' s'') :
    b.FitsBelow s'' e := by
  obtain ⟨hwithin, hcall, hbelow⟩ := h
  have hs' := hwithin.continues
  have hcycle : ∀ x y, b.tree.Visits b.operators core x → b.Below x y → ¬ b.Below y core := by
    intro x y hvisits hxy hy
    exact hforest.not_above_parent hvisits.child (Tree.Below.child (hxy.trans hy))
  have hunder : b.FitsBelow s'' core := by
    intro call name operands hcore hnode htype
    rcases Relation.ReflTransGen.cases_head hcore with rfl | ⟨x, hvisits, hx⟩
    -- The call itself: its operands are not around it.
    · have hnode' := hnode
      rw [hw.node? core hp.lt_size fun h => h] at hnode'
      refine (hcall name operands hnode').within hforest hs' hw hnode' fun x hvisits hx => ?_
      exact hcycle x x hvisits .refl hx.2
    · refine ((hbelow x hvisits).within hforest hs' hw ?_ ?_) call name operands hx hnode htype
      · rintro y _ _ hxy (⟨-, hy⟩ | hfalse)
        · exact absurd hy (hcycle x y hvisits hxy)
        · exact hfalse.elim
      · rintro y _ _ a hxy - - - hya ⟨-, ha⟩
        exact hcycle x a hvisits (hxy.tail hya) ha
  intro call name operands hcall' hnode htype
  rcases hp.rest call hcall' with hcore | ⟨operand, target, implicit, hcast⟩
  · exact hunder call name operands hcore hnode htype
  · obtain ⟨written, hwritten, -⟩ := hw.continues.rewrites.rewritten.call_of_call hnode
    rw [hcast] at hwritten
    cases hwritten

/-- An expression with the casts around it is validated within itself. -/
theorem Visit.Sound.ends_expressionStep (hforest : b.tree.IsForest)
    (hfinite : ∀ name op, b.operators.lookup? name = some op → op.signature.IsFinite)
    (hengine : b.engine = .implicitCasts) (hv : v.Sound b) (scope : ScopeId) {a : NodeId}
    (hs : b.Continues s) (ha : a.index < b.tree.size) (hwraps : Tree.Wraps b.tree s.tree a id) :
    (expressionStep v scope id).Ends (· = s)
      (fun type s' => b.Within (b.Below a) (b.Below a) s s' ∧ b.FitsBelow s' a ∧
        s'.types.get? id = some type)
      (fun s' => b.Within (b.Below a) (b.Below a) s s' ∧ s'.types.get? id = s.types.get? id) := by
  refine ends_state_bind fun s₀ hs₀ => ?_
  subst hs₀
  obtain ⟨casts, core, hpeel⟩ : ∃ casts core, s₀.tree.peelCasts s₀.tree.size id = (casts, core) :=
    ⟨_, _, rfl⟩
  have hhead := s₀.tree.head?_peelCasts s₀.tree.size id
  rw [hpeel] at hhead
  simp only [Host.session_self, Host.lift_self, hpeel]
  intro s hs'
  subst hs'
  cases hn : s.tree.node? core with
  | none =>
    rw [bind_of_error (node_of_none hn)]
    exact ⟨.refl hs, rfl⟩
  | some n =>
    rw [bind_of_ok (node_of_some hn)]
    by_cases hcast : ∃ operand target implicit, n = .cast operand target implicit
    · obtain ⟨operand, target, implicit, rfl⟩ := hcast
      exact ⟨.refl hs, rfl⟩
    have hp : Tree.Peeled b.operators b.tree s.tree a casts core := by
      refine Tree.peeled_of_peelCasts hs.rewrites.rewritten hforest.closed hwraps ha hpeel ?_
      intro operand target implicit hc
      rw [hn] at hc
      exact hcast ⟨operand, target, implicit, Option.some.inj hc⟩
    have htype := hv.ends_expressionType hforest hfinite hengine scope hs hp.lt_size hn s rfl
    have hinside : ∀ {s'}, b.Within (b.StrictlyBelow core) (b.Below core) s s' →
        b.Within (b.Below a) (b.Below a) s s' := fun hw =>
      hw.mono (fun _ h => hp.below.trans h.to_reflTransGen) fun _ h => hp.below.trans h
    cases hr : expressionType v scope core n s with
    | mk r s' =>
      rw [hr] at htype
      cases r with
      | error e =>
        rw [bind_of_error hr]
        refine ⟨hinside htype, htype.types a id ha ?_ hwraps⟩
        exact fun h => hforest.acyclic core (h.child.trans_left hp.below.child)
      | ok type =>
        rw [bind_of_ok hr]
        obtain ⟨result, s'', hrecord, hquiet, hlast⟩ := exists_recordTypes type casts core s'
        rw [hrecord]
        have hw := htype.within hp hquiet
        exact ⟨(hinside htype.1).trans (hw.mono (fun _ h => h.1) fun _ h => h.elim),
          htype.fitsBelow hforest hp hw, hlast id hhead⟩

/-- A placeholder has the type of unknown values; nothing of the statement is touched. -/
theorem within_placeholder (scope : ScopeId) (hs : b.Continues s) (hid : b.tree.size ≤ id.index)
    (hn : s.tree.node? id = some .default) :
    b.Within (fun _ => False) (fun _ => False) s (expressionStep v scope id s).2 := by
  rw [expressionStep_placeholder hn]
  have hq : s.Quiet (id = ·) { s with types := s.types.put id .any } := .record rfl .any
  refine hs.within_quiet ?_ ?_ hq
  · rintro _ rfl
    exact Tree.lt_size_of_node? hn
  · rintro a _ ha hw rfl
    cases hw with
    | self => omega
    | cast _ hcast =>
      rw [hn] at hcast
      cases hcast

end

/-! ### Whole runs -/

/-- The operators of the table have lists of families and choices for signatures. -/
def OperatorTable.IsFinite (ops : OperatorTable) : Prop :=
  ∀ name op, ops.lookup? name = some op → op.signature.IsFinite

theorem OperatorTable.IsFinite.register {ops : OperatorTable} {op : Operator} (h : ops.IsFinite)
    (hop : op.signature.IsFinite) : (ops.register op).IsFinite := by
  intro name found hfound
  rw [lookup?_register] at hfound
  split at hfound
  · cases hfound
    exact hop
  · exact h name found hfound

theorem OperatorTable.IsFinite.registerAll {ops : OperatorTable} {added : List Operator}
    (h : ops.IsFinite) (hadded : ∀ op ∈ added, op.signature.IsFinite) :
    (ops.registerAll added).IsFinite := by
  induction added generalizing ops with
  | nil => exact h
  | cons op rest ih =>
    exact ih (h.register (hadded op (by simp))) fun op hop => hadded op (by simp [hop])

/-- The standard operators are among those with which acceptance is sound. -/
theorem OperatorTable.isFinite_standard : standard.IsFinite :=
  IsFinite.registerAll (fun _ _ h => by cases h) (by decide)

/-- Validation to any depth is sound. -/
theorem visitAt_sound (hforest : b.tree.IsForest) (hfinite : b.operators.IsFinite)
    (hengine : b.engine = .implicitCasts) (depth : Nat) : (visitAt depth).Sound b := by
  induction depth with
  | zero =>
    refine ⟨fun scope {id s} hs hid => ?_, fun scope {id a s} hs ha hw => ?_,
      fun scope {id s} hs hid hn => .refl hs⟩
    · refine ends_fail ?_
      rintro _ rfl
      exact .refl hs
    · refine ends_fail ?_
      rintro _ rfl
      exact ⟨.refl hs, rfl⟩
  | succ depth ih =>
    refine ⟨fun scope {id s} hs hid => ?_, fun scope {id a s} hs ha hw => ?_,
      fun scope {id s} hs hid hn => ?_⟩
    · exact ih.ends_queryStep hforest scope hs hid
    · exact ih.ends_expressionStep hforest hfinite hengine scope hs ha hw
    · exact within_placeholder scope hs hid hn

/-- When a query is accepted in a session in which nothing has been validated before, every call of
    the statement that has a type, casts included, has operands that are legal for one list of
    families that its operator accepts. -/
theorem accepted_calls_fit {s s' : Session} {query : NodeId} {row : DataType}
    (hfresh : s.types = {}) (hforest : s.tree.IsForest) (hfinite : s.operators.IsFinite)
    (hengine : s.engine = .implicitCasts)
    (hok : Session.validateQuery query s = (.ok row, s')) (call : NodeId) (name : String)
    (operands : List NodeId) (hcall : s'.tree.node? call = some (.call name operands))
    (htype : (s'.typeOf? call).isSome = true) : s'.Fits name operands := by
  have hnone : ∀ id, s.types.get? id = none := by
    intro id
    rw [hfresh]
    rfl
  have hs : s.Continues s := .refl hforest.closed fun id hid => by simp [hnone] at hid
  have hquery := lt_size_of_validateQuery hok
  have hend := (visitAt_sound hforest hfinite hengine s.maxDepth).query ScopeTree.rootId hs hquery s
    rfl
  have hok : (visitAt s.maxDepth).query ScopeTree.rootId query s = (.ok row, s') := hok
  rw [hok] at hend
  obtain ⟨hwithin, hfits⟩ := hend
  by_cases hbelow : s.Below query call
  · exact hfits call name operands hbelow hcall htype
  -- Nothing else has got a type.
  · obtain ⟨written, hwritten, -⟩ := hwithin.continues.rewrites.rewritten.call_of_call hcall
    have hsame := hwithin.types call call (Tree.lt_size_of_node? hwritten) hbelow .self
    have htype : (s'.types.get? call).isSome = true := htype
    rw [hsame, hnone] at htype
    cases htype

/-- `SELECT UPPER(5)`, in which the operand has been cast to a string. -/
theorem accepted_calls_fit_upper :
    let s : Session := { tree := ⟨#[⟨.literal (.integer 5), ⟨13, 14⟩⟩, ⟨.call "UPPER" [⟨0⟩], ⟨7, 15⟩⟩,
      ⟨.select { items := [.expression ⟨1⟩ none], sources := [], condition := none }, ⟨0, 15⟩⟩]⟩ }
    ∃ row s', s.tree.IsForest ∧ Session.validateQuery ⟨2⟩ s = (.ok row, s') ∧
      s'.Fits "UPPER" [⟨3⟩] := by
  intro s
  have hforest : s.tree.IsForest := .of_ordered (by decide) (by decide) (by decide)
  have hrow : (Session.validateQuery ⟨2⟩ s).1 = .ok (.row [("EXPR$0", .notNull .varchar)]) := by
    decide +kernel
  have hcall : (Session.validateQuery ⟨2⟩ s).2.tree.node? ⟨1⟩ = some (.call "UPPER" [⟨3⟩]) := by
    decide +kernel
  have htype : ((Session.validateQuery ⟨2⟩ s).2.typeOf? ⟨1⟩).isSome = true := by
    decide +kernel
  cases hok : Session.validateQuery ⟨2⟩ s with
  | mk r s' =>
    rw [hok] at hrow hcall htype
    cases hrow
    exact ⟨_, s', hforest, rfl, accepted_calls_fit rfl hforest OperatorTable.isFinite_standard rfl
      hok ⟨1⟩ "UPPER" [⟨3⟩] hcall htype⟩

end SqlTyping
