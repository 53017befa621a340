import SqlTyping.Proofs.Scope.Offering
import SqlTyping.Proofs.Session.Rewriting

namespace SqlTyping

/-!
# Guarded validations

Validation keeps to the nodes below the one it is asked for. What it changes there, and with which
faults it may stop, is seen step by step, once for all invariants:

* `Session.After` — a later moment of a validation;
* `Session.Upholds t₀ part base G` — `G` survives what validation does to the nodes `part` of the
  statement `t₀`, to scopes and to row sources; names are bound in scopes from `base` on only;
* `Session.Allows t₀ part G E` — the faults that can come where `G` holds are in `E`;
* `Visit.Guarded` — the parts of a node are validated so that `G` holds afterwards, whatever the
  outcome, and a fault is in `E`;
* `visitAt_guarded` — this holds of validation to any depth.

A part is counted with the depth that is left for it, so `E` may say that the depth suffices.
-/

/-- A session is validated with the settings, the operators and the engine of another one. -/
structure Session.SetUpAs (s s' : Session) : Prop where
  settings : s'.settings = s.settings
  operators : s'.operators = s.operators
  engine : s'.engine = s.engine

/-- A later moment of a validation of the statement `t₀`. -/
structure Session.After (t₀ : Tree) (s s' : Session) : Prop where
  rewrites : s'.RewritesSince t₀ s.tree
  setup : s.SetUpAs s'
  widens : s.scopes.Widens s'.scopes
  sources : s.sources.Grows s'.sources
  items : ∀ node, (s.sources.ofNode? node).isSome = true → (s'.sources.ofNode? node).isSome = true

/-- A later moment at which `G` holds. -/
def Session.Goes (t₀ : Tree) (G : Session → Prop) (s s' : Session) : Prop := s.After t₀ s' ∧ G s'

/-- What a scope of the given role shows has been registered. -/
def Session.Presents (s : Session) : ScopeRole → Prop
  | .catalog | .block => True
  | .withItem item _ => (s.sources.ofNode? item).isSome = true
  | .recursiveItem item _ => (s.sources.selfViewOf? item).isSome = true

/-- The view of an item from inside stays once it has been made. -/
theorem Session.Presents.recursiveItem {s s' : Session} {id : NodeId}
    (h : (s.sources.selfViewOf? id).isSome = true) (hg : s.sources.Grows s'.sources) (name : String) :
    s'.Presents (.recursiveItem id name) := by
  obtain ⟨view, hview⟩ := Option.isSome_iff_exists.mp h
  exact Option.isSome_iff_exists.mpr ⟨view, hg.selfView id view hview⟩

/-- A row source has been registered, or found under a name. -/
def Session.Stands (s : Session) (source : SourceId) : Prop :=
  (s.sources.get? source).isSome = true ∨ ∃ scope names found,
    s.scopes.requireTable scope names s.settings.matching s.sources = .ok found ∧
      found.source = source

/-- The node is a recursive WITH item. -/
def Tree.IsRecursive (t : Tree) (id : NodeId) : Prop :=
  ∃ item, t.node? id = some (.withItem item) ∧ item.recursive = true

/-- The invariant `G` survives validation of the nodes `part` of the statement `t₀`. The depth that is
    left for a node suffices for its children, and one less does as well. -/
structure Session.Upholds (t₀ : Tree) (part : Nat → NodeId → Prop) (base : Nat) (G : Session → Prop) :
    Prop where
  closed : t₀.NoDangling
  lt_size : ∀ {depth a}, part depth a → a.index < t₀.size
  child : ∀ {depth a c}, part depth a → t₀.Child a c → part depth c
  below : ∀ {depth a c}, part (depth + 1) a → t₀.Child a c → part depth c
  base_le : ∀ {s}, G s → base ≤ s.scopes.size
  view : ∀ {s item id}, G s → s.sources.selfViewOf? item = some id →
    ∃ e, s.sources.get? id = some e ∧ e.node = some item
  record : ∀ {s id} (type : DataType), G s → id.index < s.tree.size →
    (∀ a, a.index < t₀.size → Tree.Wraps t₀ s.tree a id → ∃ depth, part depth a) →
      G { s with types := s.types.put id type }
  newScope : ∀ {s parent role node id scopes}, G s → s.Presents role →
    s.scopes.newScope parent role node = .ok (id, scopes) → G { s with scopes }
  addBinding : ∀ {s scope binding scopes}, G s → base ≤ scope.index → s.Stands binding.source →
    s.scopes.addBinding scope binding = .ok scopes → G { s with scopes }
  register : ∀ {s depth node} (kind : SourceKind) (enclosing : Option NodeId), G s → part depth node →
    G { s with sources := (s.sources.register node kind enclosing).2 }
  selfView : ∀ {s depth item id sources}, G s → part depth item → t₀.IsRecursive item →
    s.sources.selfView item = .ok (id, sources) → G { s with sources }
  setRow : ∀ {s depth node id e row sources}, G s → part depth node → s.sources.get? id = some e →
    e.node = some node → s.sources.setRow id row = .ok sources → G { s with sources }
  selfReference : ∀ {s} (reference : NodeId × SourceId), G s →
    G { s with selfReferences := s.selfReferences ++ [reference] }
  tree : ∀ {s depth call tree}, G s → part depth call → Session.Rewrites t₀ { s with tree } →
    Tree.Recast t₀ call s.tree tree → G { s with tree }
  requests : ∀ {s} (requests : List CoercionRequest), G s → G { s with requests }

/-- Where `G` holds, a validation of the nodes `part` of the statement `t₀` stops with faults in `E`
    only. -/
structure Session.Allows (t₀ : Tree) (part : Nat → NodeId → Prop) (G : Session → Prop)
    (E : Fault → Prop) : Prop where
  semantic : ∀ e : Fault, e.isInternal = false → E e
  /-- No depth is left, or none for a placeholder below a call. -/
  deep : ∀ {depth a} (text : String), depth ≤ 1 → part depth a → E (.cyclicNode text)
  /-- Casts have been taken off and there is still one. -/
  round : ∀ {depth a id s casts core operand target implicit} (text : String), G s → s.Rewrites t₀ →
    part depth a → Tree.Wraps t₀ s.tree a id →
      s.tree.peelCasts s.tree.size id = (casts, core) →
        s.tree.node? core = some (.cast operand target implicit) → E (.cyclicNode text)
  table : ∀ {s scope names e}, G s → scope.index < s.scopes.size →
    s.scopes.requireTable scope names s.settings.matching s.sources = .error e → E e
  exposed : ∀ {depth a name label} (text : String), part depth a →
    t₀.node? a = some (.tableRef name label) → exposedName? name label = none → E (.internal text)
  reference : ∀ {depth a names s scope e}, part depth a → t₀.node? a = some (.identifier names) → G s →
    scope.index < s.scopes.size → s.referenceType scope names = .error e → E e
  engine : ∀ {s}, G s → s.engine = .implicitCasts ∨ ∀ e, E e
  infer : ∀ {s name op types e}, G s → s.operators.lookup? name = some op →
    op.arity.least ≤ types.length → op.returns.infer types = .error e → E e

/-- A node of the tree `t` belongs to the validation: it wraps one of the parts, or it is a placeholder
    that has been added for a call. -/
def Tree.IsPart (t₀ : Tree) (part : Nat → NodeId → Prop) (depth : Nat) (t : Tree) (id : NodeId) :
    Prop :=
  (∃ a, part depth a ∧ Wraps t₀ t a id) ∨
    (t₀.size ≤ id.index ∧ t.node? id = some .default ∧ (depth = 0 → ∃ call, part 1 call))

/-- What holds of the frame of a call while it is checked. -/
def CallFrame.Stays (t₀ : Tree) (G : Session → Prop) (written : List NodeId) (s : Session)
    (count : Nat) (f : CallFrame) : Prop :=
  Session.Goes t₀ G s f.session ∧ f.Tracks t₀ written ∧ f.operands.length = count

open Checking

/-- The parts with the given depth left are validated so that `G` holds afterwards and a fault is in
    `E`. -/
structure Visit.Guarded (t₀ : Tree) (part : Nat → NodeId → Prop) (G : Session → Prop)
    (E : Fault → Prop) (depth : Nat) (v : Visit) : Prop where
  query : ∀ {scope a s}, Session.Goes t₀ G s s → part depth a → scope.index < s.scopes.size →
    Runs (Session.Goes t₀ G) E s (v.query scope a) fun _ _ => True
  expression : ∀ {scope id s}, Session.Goes t₀ G s s → Tree.IsPart t₀ part depth s.tree id →
    scope.index < s.scopes.size →
      Runs (Session.Goes t₀ G) E s (v.expression scope id) fun _ _ => True

/-- Nothing is said about faults: any engine and any operators are allowed. -/
theorem Session.allows_all {t₀ : Tree} {part : Nat → NodeId → Prop} {G : Session → Prop} :
    Session.Allows t₀ part G fun _ => True where
  semantic _ _ := trivial
  deep _ _ _ := trivial
  round _ _ _ _ _ _ _ := trivial
  table _ _ _ := trivial
  exposed _ _ _ _ := trivial
  reference _ _ _ _ _ := trivial
  engine _ := .inr fun _ => trivial
  infer _ _ _ _ := trivial

/-! ### What is registered -/

/-- A registered node stays registered when a node is. -/
theorem RowSources.isSome_ofNode?_register {s : RowSources} (node : NodeId) (kind : SourceKind)
    (enclosing : Option NodeId) {other : NodeId} (h : (s.ofNode? other).isSome = true) :
    ((s.register node kind enclosing).2.ofNode? other).isSome = true := by
  rw [RowSources.ofNode?_register]
  split
  · rfl
  · exact h

/-- What a scope shows stays registered. -/
theorem Session.Presents.grows {s : Session} {sources : RowSources} {role : ScopeRole}
    (h : s.Presents role) (hg : s.sources.Grows sources)
    (hitems : ∀ node, (s.sources.ofNode? node).isSome = true → (sources.ofNode? node).isSome = true) :
    Session.Presents { s with sources } role := by
  cases role with
  | catalog | block => trivial
  | withItem item name => exact hitems item h
  | recursiveItem item name =>
    obtain ⟨view, hknown⟩ := Option.isSome_iff_exists.mp h
    exact Option.isSome_iff_exists.mpr ⟨view, hg.selfView item view hknown⟩

/-! ### The operands of a call on a host -/

namespace Checking.Runs

variable {σ : Type} [Host σ] {R : σ → σ → Prop} {E : Fault → Prop} {v : Visit.On σ} {scope : ScopeId}
  {operands : List NodeId} {s : σ}

theorem recorded {id : NodeId} (hs : R s s)
    (h : Runs R E s (v.expression scope id) fun _ _ => True) :
    Runs R E s (v.recorded scope id) fun _ _ => True := by
  refine .state_bind ?_
  split
  · exact .pure hs trivial
  · exact h

omit [Host σ] in
theorem visitOperands (hR : Course R) (hs : R s s) (signature : Signature) (index : Nat)
    (h : ∀ o ∈ operands, ∀ t, R s t → Runs R E t (v.expression scope o) fun _ _ => True) :
    Runs R E s (SqlTyping.visitOperands v scope signature index operands) fun _ _ => True := by
  induction operands generalizing s index with
  | nil => exact .pure hs trivial
  | cons operand rest ih =>
    have hrest : ∀ t, R s t → Runs R E t (SqlTyping.visitOperands v scope signature (index + 1) rest)
        fun _ _ => True := fun t ht =>
      ih (hR.stays ht) _ fun o ho t' ht' => h o (List.mem_cons_of_mem _ ho) t' (hR.trans ht ht')
    unfold SqlTyping.visitOperands
    refine .ite (fun _ => ?_) fun _ => hrest s hs
    exact (h operand (List.mem_cons_self ..) s hs).bind hR fun _ t ht _ => hrest t ht

theorem operandTypes (hR : Course R) (hs : R s s) (signature : Signature) (index : Nat)
    (h : ∀ o ∈ operands, ∀ t, R s t → Runs R E t (v.expression scope o) fun _ _ => True) :
    Runs R E s (SqlTyping.operandTypes v scope signature index operands)
      fun types _ => types.length = operands.length := by
  induction operands generalizing s index with
  | nil => exact .pure hs rfl
  | cons operand rest ih =>
    have hrest : ∀ type t, R s t → Runs R E t (do
        let types ← SqlTyping.operandTypes v scope signature (index + 1) rest
        Pure.pure (type :: types) : Checking σ (List DataType))
          fun types _ => types.length = (operand :: rest).length := by
      intro type t ht
      refine (ih (hR.stays ht) _ fun o ho t' ht' =>
        h o (List.mem_cons_of_mem _ ho) t' (hR.trans ht ht')).bind hR ?_
      exact fun types t' ht' hl => .pure (hR.stays ht') (congrArg (· + 1) hl)
    unfold SqlTyping.operandTypes
    refine Runs.ite (fun _ => ?_) fun _ => ?_
    · exact .bind_ok (pure_apply _ s) (hrest _ s hs)
    · exact (recorded hs (h operand (List.mem_cons_self ..) s hs)).bind hR fun type t ht _ => hrest type t ht

/-- What is true of the frame of a call after its check is true of the host. -/
theorem checkCall {call : NodeId} {op : Operator} {K : CallFrame.On σ → Prop}
    {Q : Bool → CallFrame.On σ → Prop}
    (h : Runs (fun _ => K) E ⟨s, operands⟩ (op.signature.check
      (CallFrame.view v scope call op (Host.session s).settings (Host.session s).engine)) Q)
    (hR : ∀ f, K f → R s f.session) :
    Runs R E s (SqlTyping.checkCall v scope call op operands) fun _ _ => True := by
  unfold Runs SqlTyping.checkCall
  cases hx : op.signature.check
      (CallFrame.view v scope call op (Host.session s).settings (Host.session s).engine)
      ⟨s, operands⟩ with
  | mk r f =>
    cases r with
    | ok answer => exact ⟨hR f (h.of_ok hx).1, trivial⟩
    | error e => exact ⟨hR f (h.of_error hx).1, (h.of_error hx).2⟩

end Checking.Runs

/-! ### Later moments -/

section

variable {t₀ : Tree} {G : Session → Prop} {s s' s'' : Session}

theorem Session.SetUpAs.refl (s : Session) : s.SetUpAs s := ⟨rfl, rfl, rfl⟩

theorem Session.SetUpAs.trans (h : s.SetUpAs s') (h' : s'.SetUpAs s'') : s.SetUpAs s'' :=
  ⟨h'.settings.trans h.settings, h'.operators.trans h.operators, h'.engine.trans h.engine⟩

theorem Session.After.trans (h : s.After t₀ s') (h' : s'.After t₀ s'') : s.After t₀ s'' where
  rewrites := ⟨h'.rewrites.1, h.rewrites.2.trans h'.rewrites.2⟩
  setup := h.setup.trans h'.setup
  widens := h.widens.trans h'.widens
  sources := h.sources.trans h'.sources
  items node hn := h'.items node (h.items node hn)

theorem Session.After.refl (h : s.Rewrites t₀) : s.After t₀ s :=
  ⟨⟨h, .refl _ _⟩, .refl s, .refl _, .refl _, fun _ hn => hn⟩

/-- Scopes that are there stay there. -/
theorem Session.After.scopes (h : s.After t₀ s') : s.scopes.size ≤ s'.scopes.size := h.widens.size_le

/-- What happens to the tree is no concern of scopes and row sources. -/
theorem Session.After.of_tree (h : s'.RewritesSince t₀ s.tree) (hsetup : s.SetUpAs s')
    (hscopes : s'.scopes = s.scopes) (hsources : s'.sources = s.sources) : s.After t₀ s' := by
  refine ⟨h, hsetup, ?_, ?_, fun node hn => ?_⟩
  · rw [hscopes]
    exact .refl _
  · rw [hsources]
    exact .refl _
  · rw [hsources]
    exact hn

theorem course_goes : Course (Session.Goes t₀ G) where
  trans h h' := ⟨h.1.trans h'.1, h'.2⟩
  stays h := ⟨.refl h.1.rewrites.1, h.2⟩

/-- The tree has not changed. -/
theorem Session.Goes.of_same (hs : Session.Goes t₀ G s s) (htree : s'.tree = s.tree)
    (hsetup : s.SetUpAs s') (hscopes : s.scopes.Widens s'.scopes) (hsources : s.sources.Grows s'.sources)
    (hitems : ∀ node, (s.sources.ofNode? node).isSome = true →
      (s'.sources.ofNode? node).isSome = true) (hG : G s') : Session.Goes t₀ G s s' := by
  refine ⟨⟨⟨⟨?_, ?_⟩, ?_⟩, hsetup, hscopes, hsources, hitems⟩, hG⟩
  · exact htree ▸ hs.1.rewrites.1.rewritten
  · exact htree ▸ hs.1.rewrites.1.closed
  · exact htree ▸ .refl _ _

/-- A source that has been registered for a node stays registered for it. -/
theorem Session.After.source {id : SourceId} {node : NodeId} (h : s.After t₀ s')
    (hid : ∃ e, s.sources.get? id = some e ∧ e.node = some node) :
    ∃ e, s'.sources.get? id = some e ∧ e.node = some node := by
  obtain ⟨e, he, hnode⟩ := hid
  obtain ⟨e', he', hnode', -⟩ := h.sources.source id e he
  exact ⟨e', he', hnode'.trans hnode⟩

end

section

variable {t₀ : Tree} {part : Nat → NodeId → Prop} {base d : Nat} {G : Session → Prop}
  {E : Fault → Prop} {v : Visit} {s : Session} {scope parent : ScopeId} {id : NodeId}

/-! ### Elementary changes -/

namespace Session.Upholds

variable (h : Session.Upholds t₀ part base G)

include h

theorem runs_record (hs : Session.Goes t₀ G s s) (type : DataType) (hsize : id.index < s.tree.size)
    (hid : ∀ a, a.index < t₀.size → Tree.Wraps t₀ s.tree a id → ∃ d, part d a) :
    Runs (Session.Goes t₀ G) E s (Validation.record id type) fun _ s' =>
      s' = { s with types := s.types.put id type } :=
  ⟨hs.of_same rfl ⟨rfl, rfl, rfl⟩ (.refl _) (.refl _) (fun _ hn => hn) (h.record type hs.2 hsize hid), rfl⟩

/-- A node of the statement is itself a part. -/
theorem runs_recordPart (hs : Session.Goes t₀ G s s) (hid : part d id) (type : DataType) :
    Runs (Session.Goes t₀ G) E s (Validation.record id type) fun _ s' =>
      s' = { s with types := s.types.put id type } := by
  have hsize := Nat.lt_of_lt_of_le (h.lt_size hid) hs.1.rewrites.1.rewritten.size_le
  refine h.runs_record hs type hsize fun a _ hw => ⟨d, ?_⟩
  rw [hw.eq_of_lt (h.lt_size hid)]
  exact hid

/-- A scope is added below one that is there. -/
theorem runs_newScope (hs : Session.Goes t₀ G s s) (hparent : parent.index < s.scopes.size)
    (role : ScopeRole) (hrole : s.Presents role) (node : Option NodeId) :
    Runs (Session.Goes t₀ G) E s (Validation.onScopes (·.newScope parent role node)) fun scope s' =>
      scope.index = s.scopes.size ∧ scope.index < s'.scopes.size := by
  obtain ⟨scopes, hnew⟩ := ScopeTree.exists_newScope hparent role node
  refine .of_outcomes (fun id s' hx => ?_) fun e s' hx => ?_
  · simp only [Validation.onScopes, hnew, Prod.mk.injEq, Except.ok.injEq] at hx
    obtain ⟨rfl, rfl⟩ := hx
    refine ⟨hs.of_same rfl ⟨rfl, rfl, rfl⟩ (.newScope hnew) (.refl _) (fun _ hn => hn)
      (h.newScope hs.2 hrole hnew), rfl, ?_⟩
    show s.scopes.size < scopes.size
    rw [ScopeTree.size_newScope hnew]
    exact Nat.lt_succ_self _
  · simp [Validation.onScopes, hnew] at hx

/-- A name is bound in a scope that is there. -/
theorem runs_bindName (hs : Session.Goes t₀ G s s) (hbase : base ≤ scope.index)
    (hscope : scope.index < s.scopes.size) (name : String) {source : SourceId}
    (hsource : s.Stands source) :
    Runs (Session.Goes t₀ G) E s (Validation.bindName scope name source) fun _ _ => True := by
  obtain ⟨scopes, hadd⟩ : ∃ scopes,
      s.scopes.addBinding scope { names := [name], source, nullable := false } = .ok scopes := by
    unfold ScopeTree.addBinding
    rw [if_pos hscope]
    exact ⟨_, rfl⟩
  refine .of_outcomes (fun a s' hx => ?_) fun e s' hx => ?_
  · simp only [Validation.bindName, Validation.onScopes, hadd, Except.map, Prod.mk.injEq] at hx
    obtain ⟨-, rfl⟩ := hx
    exact ⟨hs.of_same rfl ⟨rfl, rfl, rfl⟩ (.addBinding hadd) (.refl _) (fun _ hn => hn)
      (h.addBinding hs.2 hbase hsource hadd), trivial⟩
  · simp [Validation.bindName, Validation.onScopes, hadd, Except.map] at hx

/-- A part is registered. -/
theorem runs_register (hs : Session.Goes t₀ G s s) (hid : part d id) (kind : SourceKind)
    (enclosing : Option NodeId) :
    Runs (Session.Goes t₀ G) E s (Validation.register id kind enclosing) fun source s' =>
      (∃ e, s'.sources.get? source = some e ∧ e.node = some id) ∧
        (s'.sources.ofNode? id).isSome = true := by
  have hself : ((s.sources.register id kind enclosing).2.ofNode? id).isSome = true := by
    rw [RowSources.ofNode?_register, if_pos rfl]
    rfl
  exact ⟨hs.of_same rfl ⟨rfl, rfl, rfl⟩ (.refl _) (.register _ _ _ _)
      (fun _ => RowSources.isSome_ofNode?_register _ _ _) (h.register kind enclosing hs.2 hid),
    ⟨_, RowSources.get?_register_self _ _ _ _, rfl⟩, hself⟩

/-- The view of a registered item from inside is there or is made. -/
theorem runs_selfView (hs : Session.Goes t₀ G s s) (hid : part d id)
    (hrecursive : t₀.IsRecursive id) (hitem : (s.sources.ofNode? id).isSome = true) :
    Runs (Session.Goes t₀ G) E s (Validation.selfView id) fun view s' =>
      (∃ e, s'.sources.get? view = some e ∧ e.node = some id) ∧
        (s'.sources.selfViewOf? id).isSome = true := by
  obtain ⟨own, hown⟩ := Option.isSome_iff_exists.mp hitem
  have hfound : ∀ {view sources}, s.sources.selfView id = .ok (view, sources) →
      (∃ e, sources.get? view = some e ∧ e.node = some id) ∧
        (sources.selfViewOf? id).isSome = true := by
    intro view sources hview
    refine ⟨?_, by rw [RowSources.selfViewOf?_of_selfView hview]; rfl⟩
    rcases RowSources.selfView_eq_ok hview with ⟨hknown, rfl⟩ | ⟨own, -, -, rfl, rfl⟩
    · exact h.view hs.2 hknown
    · exact ⟨_, (RowSources.get?_addView ..).trans (if_pos rfl), rfl⟩
  refine .of_outcomes (fun view s' hx => ?_) fun e s' hx => ?_
  · unfold Validation.selfView at hx
    cases hview : s.sources.selfView id with
    | error e => simp [hview] at hx
    | ok found =>
      obtain ⟨view', sources⟩ := found
      simp only [hview, Prod.mk.injEq, Except.ok.injEq] at hx
      obtain ⟨rfl, rfl⟩ := hx
      refine ⟨hs.of_same rfl ⟨rfl, rfl, rfl⟩ (.refl _) (.of_selfView hview) (fun node hn => ?_)
        (h.selfView hs.2 hid hrecursive hview), hfound hview⟩
      rw [RowSources.ofNode?_of_selfView hview]
      exact hn
  · unfold Validation.selfView RowSources.selfView at hx
    cases hv : s.sources.selfViewOf? id with
    | none => simp [hv, hown] at hx
    | some view => simp [hv] at hx

/-- The row type of the source of a part is set. -/
theorem runs_setRow (hs : Session.Goes t₀ G s s) (hid : part d id) {source : SourceId}
    (hsource : ∃ e, s.sources.get? source = some e ∧ e.node = some id) (row : DataType) :
    Runs (Session.Goes t₀ G) E s (Validation.setRow source row) fun _ _ => True := by
  obtain ⟨e, he, hnode⟩ := hsource
  have hlt : source.index < s.sources.size := (Array.getElem?_eq_some_iff.mp he).1
  obtain ⟨sources, hset, hitems⟩ : ∃ sources, s.sources.setRow source row = .ok sources ∧
      ∀ node, sources.ofNode? node = s.sources.ofNode? node := by
    unfold RowSources.setRow
    rw [if_pos hlt]
    exact ⟨_, rfl, fun _ => rfl⟩
  refine .of_outcomes (fun a s' hx => ?_) fun e s' hx => ?_
  · simp only [Validation.setRow, hset, Prod.mk.injEq] at hx
    obtain ⟨-, rfl⟩ := hx
    refine ⟨hs.of_same rfl ⟨rfl, rfl, rfl⟩ (.refl _) (.of_setRow hset) (fun node hn => ?_)
      (h.setRow hs.2 hid he hnode hset), trivial⟩
    rw [hitems]
    exact hn
  · simp [Validation.setRow, hset] at hx

/-! ### Queries -/

omit h in
/-- A node of the statement is read. -/
theorem runs_node {α : Type} {f : Node → Validation α} {Q : α → Session → Prop}
    (hs : Session.Goes t₀ G s s) (hlt : id.index < t₀.size)
    (hf : ∀ n, s.tree.node? id = some n → Runs (Session.Goes t₀ G) E s (f n) Q) :
    Runs (Session.Goes t₀ G) E s (Validation.node id >>= f) Q := by
  have hsize := Nat.lt_of_lt_of_le hlt hs.1.rewrites.1.rewritten.size_le
  obtain ⟨n, hn⟩ := Option.isSome_iff_exists.mp (Tree.isSome_node?_iff.mpr hsize)
  exact .bind_ok (node_of_some hn) (hf n hn)

variable (ha : Session.Allows t₀ part G E)

include ha

theorem runs_bindTable (hs : Session.Goes t₀ G s s) (hid : part d id)
    {name : List String} {label : Option String} (hn : t₀.node? id = some (.tableRef name label))
    (hparent : parent.index < s.scopes.size) (hbase : base ≤ scope.index)
    (hscope : scope.index < s.scopes.size) :
    Runs (Session.Goes t₀ G) E s (bindTable parent scope id name label) fun _ _ => True := by
  rw [bindTable_eq]
  refine .state_bind (Runs.bind course_goes (Q := fun found t => t = s ∧
    s.scopes.requireTable parent name s.settings.matching s.sources = .ok found) ?_ ?_)
  · exact .ofExcept hs (fun found hfound => ⟨rfl, hfound⟩) fun e he => ha.table hs.2 hparent he
  rintro found t - ⟨rfl, hfound⟩
  refine .ite (fun _ => .fail hs (ha.semantic _ rfl)) fun _ => ?_
  -- Neither the list of references nor the types are looked at when names are.
  have hbind : ∀ exposed (t' : Session), t'.scopes = t.scopes → t'.sources = t.sources →
      t'.settings = t.settings → Session.Goes t₀ G t' t' →
        Runs (Session.Goes t₀ G) E t' (Validation.bindName scope exposed found.source)
          fun _ _ => True := by
    intro exposed t' hscopes hsources hsettings ht'
    refine h.runs_bindName ht' hbase (by rw [hscopes]; exact hscope) exposed (.inr ?_)
    refine ⟨parent, name, found, ?_, rfl⟩
    rw [hscopes, hsources, hsettings]
    exact hfound
  have hrest : ∀ t' : Session, t'.scopes = t.scopes → t'.sources = t.sources →
      t'.settings = t.settings → Session.Goes t₀ G t' t' →
        Runs (Session.Goes t₀ G) E t' (exposeTable scope id name label
          (t.sources.row? found.source) found.source) fun _ _ => True := by
    intro t' hscopes hsources hsettings ht'
    unfold exposeTable
    split
    · rename_i hexposed
      exact .fail ht' (ha.exposed _ hid hn hexposed)
    · split
      · refine (h.runs_recordPart ht' hid _).bind course_goes fun _ t'' ht'' heq => ?_
        subst heq
        exact hbind _ _ hscopes hsources hsettings (course_goes.stays ht'')
      · exact hbind _ _ hscopes hsources hsettings ht'
  refine .ite (fun _ => ?_) fun _ => hrest t rfl rfl rfl hs
  refine Runs.bind course_goes (Q := fun _ t' => t' =
    { t with selfReferences := t.selfReferences ++ [(id, found.source)] }) ?_ ?_
  · exact ⟨hs.of_same rfl ⟨rfl, rfl, rfl⟩ (.refl _) (.refl _) (fun _ hn => hn) (h.selfReference _ hs.2), rfl⟩
  · rintro _ t' ht' rfl
    exact hrest _ rfl rfl rfl (course_goes.stays ht')

omit ha in
theorem runs_bindDerived (hs : Session.Goes t₀ G s s) (hid : part d id) (hbase : base ≤ scope.index)
    (hscope : scope.index < s.scopes.size) (block : NodeId) (label : String) (row : DataType) :
    Runs (Session.Goes t₀ G) E s (bindDerived scope block id label row) fun _ _ => True := by
  refine (h.runs_register hs hid _ _).bind course_goes fun source s₁ hs₁ hq => ?_
  refine (h.runs_setRow (course_goes.stays hs₁) hid hq.1 row).bind course_goes fun _ s₂ hs₂ _ => ?_
  refine (h.runs_recordPart (course_goes.stays hs₂) hid row).bind course_goes fun _ s₃ hs₃ _ => ?_
  obtain ⟨e, he, -⟩ := (hs₂.1.trans hs₃.1).source hq.1
  exact h.runs_bindName (course_goes.stays hs₃) hbase
    (Nat.lt_of_lt_of_le hscope ((hs₁.1.trans hs₂.1).trans hs₃.1).scopes) label (.inl (by rw [he]; rfl))

variable (hv : v.Guarded t₀ part G E d)

include hv

omit ha in
theorem runs_bindSubquery (hs : Session.Goes t₀ G s s) (hid : part d id) {query : NodeId}
    (hquery : part d query) (hparent : parent.index < s.scopes.size) (hbase : base ≤ scope.index)
    (hscope : scope.index < s.scopes.size) (block : NodeId) (label : String) :
    Runs (Session.Goes t₀ G) E s (bindSubquery v parent scope block id query label)
      fun _ _ => True := by
  refine (hv.query hs hquery hparent).bind course_goes fun row s₁ hs₁ _ => ?_
  exact h.runs_bindDerived (course_goes.stays hs₁) hid hbase (Nat.lt_of_lt_of_le hscope hs₁.1.scopes)
    block label row

theorem runs_bindSource (hs : Session.Goes t₀ G s s) (hid : part d id)
    (hparent : parent.index < s.scopes.size) (hbase : base ≤ scope.index)
    (hscope : scope.index < s.scopes.size) (block : NodeId) :
    Runs (Session.Goes t₀ G) E s (bindSource v parent scope block id) fun _ _ => True := by
  refine runs_node hs (h.lt_size hid) fun n hn => ?_
  split
  · have hwritten := hs.1.rewrites.1.node?_of_isClause hn rfl
    exact h.runs_bindTable ha hs hid hwritten hparent hbase hscope
  · have hwritten := hs.1.rewrites.1.node?_of_isClause hn rfl
    refine h.runs_bindSubquery hv hs hid (h.child hid ⟨_, hwritten, ?_⟩) hparent hbase hscope _ _
    simp [Node.children]
  · exact .fail hs (ha.semantic _ rfl)

omit ha in
theorem runs_itemColumns (hs : Session.Goes t₀ G s s) (hscope : scope.index < s.scopes.size)
    (columns : Columns) (place : Nat) {item : SelectItem}
    (hitem : ∀ c ∈ Node.itemChild item, part d c) :
    Runs (Session.Goes t₀ G) E s (itemColumns v scope columns place item) fun _ _ => True := by
  cases item with
  | star => exact .state_bind (.pure hs trivial)
  | expression c label =>
    have hc := hitem c (by simp [Node.itemChild])
    refine (hv.expression hs (.inl ⟨c, hc, .self⟩) hscope).bind course_goes fun type s₁ hs₁ _ => ?_
    exact runs_node (course_goes.stays hs₁) (h.lt_size hc) fun n _ =>
      .pure (course_goes.stays hs₁) trivial

omit ha in
theorem runs_selectColumns (hs : Session.Goes t₀ G s s) (hscope : scope.index < s.scopes.size)
    (columns : Columns) (place : Nat) {items : List SelectItem}
    (hitems : ∀ c ∈ items.flatMap Node.itemChild, part d c) :
    Runs (Session.Goes t₀ G) E s (selectColumns v scope columns place items) fun _ _ => True := by
  induction items generalizing s columns place with
  | nil => exact .pure hs trivial
  | cons item rest ih =>
    rw [List.flatMap_cons] at hitems
    refine (h.runs_itemColumns hv hs hscope columns place fun c hc =>
      hitems c (List.mem_append_left _ hc)).bind course_goes fun columns s₁ hs₁ _ => ?_
    exact ih (course_goes.stays hs₁) (Nat.lt_of_lt_of_le hscope hs₁.1.scopes) columns (place + 1)
      fun c hc => hitems c (List.mem_append_right _ hc)

omit ha in
/-- The condition and the columns of a SELECT. -/
theorem runs_selectTail (hs : Session.Goes t₀ G s s) (hscope : scope.index < s.scopes.size)
    {block : SelectBlock}
    (hchild : ∀ c ∈ block.condition.toList ++ block.items.flatMap Node.itemChild, part d c) :
    Runs (Session.Goes t₀ G) E s (selectTail v scope block) fun _ _ => True := by
  have hcolumns : ∀ t, Session.Goes t₀ G s t → Runs (Session.Goes t₀ G) E t (do
      let columns ← selectColumns v scope [] 0 block.items
      Pure.pure (DataType.row columns) : Validation DataType) fun _ _ => True := by
    intro t ht
    refine (h.runs_selectColumns hv (course_goes.stays ht) (Nat.lt_of_lt_of_le hscope ht.1.scopes) [] 0
      fun c hc => hchild c (List.mem_append_right _ hc)).bind course_goes fun _ t' ht' _ => ?_
    exact .pure (course_goes.stays ht') trivial
  unfold selectTail
  cases hcondition : block.condition with
  | none => exact hcolumns s hs
  | some condition =>
    have hc := hchild condition (List.mem_append_left _ (by simp [hcondition]))
    refine (hv.expression hs (.inl ⟨_, hc, .self⟩) hscope).bind course_goes ?_
    exact fun _ t ht _ => hcolumns t ht

theorem runs_selectRow (hs : Session.Goes t₀ G s s) (hparent : parent.index < s.scopes.size)
    {block : SelectBlock} (hchild : ∀ c ∈ (Node.select block).children, part d c) (q : NodeId) :
    Runs (Session.Goes t₀ G) E s (selectRow v parent q block) fun _ _ => True := by
  simp only [Node.children, List.mem_append] at hchild
  rw [selectRow_eq]
  refine (h.runs_newScope hs hparent .block trivial (some q)).bind course_goes ?_
  rintro scope s₁ hs₁ ⟨hnew, hscope⟩
  have hbase : base ≤ scope.index := by
    rw [hnew]
    exact h.base_le hs.2
  refine Runs.bind course_goes (Q := fun _ _ => True) ?_ fun _ s₂ hs₂ _ => ?_
  · refine Runs.forM course_goes (course_goes.stays hs₁) fun entry hentry t ht => ?_
    exact h.runs_bindSource ha hv (course_goes.stays ht) (hchild entry (.inl (.inr hentry)))
      (Nat.lt_of_lt_of_le hparent (hs₁.1.trans ht.1).scopes) hbase
      (Nat.lt_of_lt_of_le hscope ht.1.scopes) q
  · refine h.runs_selectTail hv (course_goes.stays hs₂) (Nat.lt_of_lt_of_le hscope hs₂.1.scopes)
      fun c hc => hchild c ?_
    exact (List.mem_append.mp hc).elim .inr fun hc => .inl (.inl hc)

omit h in
theorem runs_setOperationRow (hs : Session.Goes t₀ G s s) (hscope : scope.index < s.scopes.size)
    {operation : SetOperation}
    (hchild : ∀ c ∈ (Node.setOperation operation).children, part d c) :
    Runs (Session.Goes t₀ G) E s (setOperationRow v scope operation) fun _ _ => True := by
  have hleft := hchild operation.left (by simp [Node.children])
  have hright := hchild operation.right (by simp [Node.children])
  refine (hv.query hs hleft hscope).bind course_goes fun left s₁ hs₁ _ => ?_
  refine (hv.query (course_goes.stays hs₁) hright (Nat.lt_of_lt_of_le hscope hs₁.1.scopes)).bind
    course_goes fun right s₂ hs₂ _ => ?_
  refine .ofExcept (course_goes.stays hs₂) (fun _ _ => trivial) fun e he => ha.semantic e ?_
  unfold unionRow at he
  split at he
  · cases he
  · cases he
    rfl

omit h hv in
/-- A column list of the wrong length is a fault of the statement. -/
theorem runs_renamed (hs : Session.Goes t₀ G s s) (name : String) (columns : Option (List String))
    (row : DataType) : Runs (Session.Goes t₀ G) E s
      (Checking.ofExcept (renamed name columns row) : Validation DataType) fun _ _ => True := by
  refine .ofExcept hs (fun _ _ => trivial) fun e he => ha.semantic e ?_
  unfold renamed at he
  split at he
  · cases he
  · split at he
    · cases he
    · cases he
      rfl

theorem runs_recursiveRow (hs : Session.Goes t₀ G s s) (hid : part d id)
    (hrecursive : t₀.IsRecursive id) (hitem : (s.sources.ofNode? id).isSome = true)
    (hparent : parent.index < s.scopes.size)
    (name : String) {item : WithItem} (hquery : part d item.query) :
    Runs (Session.Goes t₀ G) E s (recursiveRow v parent id name item) fun _ _ => True := by
  refine runs_node hs (h.lt_size hquery) fun n hn => ?_
  split
  · rename_i operation
    have hwritten := hs.1.rewrites.1.node?_of_isClause hn rfl
    have hleft : part d operation.left :=
      h.child hquery ⟨_, hwritten, by simp [Node.children]⟩
    refine (h.runs_selfView hs hid hrecursive hitem).bind course_goes fun view s₁ hs₁ hq => ?_
    refine (hv.query (course_goes.stays hs₁) hleft (Nat.lt_of_lt_of_le hparent hs₁.1.scopes)).bind
      course_goes fun anchor s₂ hs₂ _ => ?_
    refine (runs_renamed ha (course_goes.stays hs₂) name item.columns anchor).bind course_goes
      fun row s₃ hs₃ _ => ?_
    refine (h.runs_setRow (course_goes.stays hs₃) hid ((hs₂.1.trans hs₃.1).source hq.1) row).bind
      course_goes fun _ s₄ hs₄ _ => ?_
    have hlater := (hs₂.1.trans hs₃.1).trans hs₄.1
    -- The scope shows the view, which has been there since it was asked for.
    have hview := Session.Presents.recursiveItem hq.2 hlater.sources name
    refine (h.runs_newScope (course_goes.stays hs₄)
      (Nat.lt_of_lt_of_le hparent (hs₁.1.trans hlater).scopes) _ hview (some id)).bind course_goes ?_
    rintro scope s₅ hs₅ ⟨-, hscope⟩
    exact hv.query (course_goes.stays hs₅) hquery hscope
  · exact .fail hs (ha.semantic _ rfl)

omit hv in
theorem runs_showItem (hs : Session.Goes t₀ G s s) (hid : part d id) {source : SourceId}
    (hsource : ∃ e, s.sources.get? source = some e ∧ e.node = some id)
    (hitem : (s.sources.ofNode? id).isSome = true) (hparent : parent.index < s.scopes.size)
    (item : WithItem) (body : DataType) :
    Runs (Session.Goes t₀ G) E s (showItem parent id item source body) fun scope s' =>
      scope.index < s'.scopes.size := by
  refine (runs_renamed ha hs _ item.columns body).bind course_goes fun row s₁ hs₁ _ => ?_
  refine (h.runs_setRow (course_goes.stays hs₁) hid (hs₁.1.source hsource) row).bind course_goes
    fun _ s₂ hs₂ _ => ?_
  refine (h.runs_recordPart (course_goes.stays hs₂) hid row).bind course_goes fun _ s₃ hs₃ _ => ?_
  have hlater := (hs₁.1.trans hs₂.1).trans hs₃.1
  exact (h.runs_newScope (course_goes.stays hs₃) (Nat.lt_of_lt_of_le hparent hlater.scopes)
    (.withItem id (qualifiedName item.name)) (hlater.items id hitem) (some id)).imp
      fun scope s' _ hscope => hscope.2

theorem runs_bindWithItem (hs : Session.Goes t₀ G s s) (hid : part d id)
    (hparent : parent.index < s.scopes.size) :
    Runs (Session.Goes t₀ G) E s (bindWithItem v parent id) fun scope s' =>
      scope.index < s'.scopes.size := by
  refine runs_node hs (h.lt_size hid) fun n hn => ?_
  split
  · rename_i item
    have hwritten := hs.1.rewrites.1.node?_of_isClause hn rfl
    have hquery : part d item.query := h.child hid ⟨_, hwritten, by simp [Node.children]⟩
    refine (h.runs_register hs hid .withItem none).bind course_goes fun source s₁ hs₁ hq => ?_
    have hparent₁ := Nat.lt_of_lt_of_le hparent hs₁.1.scopes
    have hshow : ∀ body t, Session.Goes t₀ G s₁ t → Runs (Session.Goes t₀ G) E t
        (showItem parent id item source body) fun scope s' => scope.index < s'.scopes.size :=
      fun body t ht => h.runs_showItem ha (course_goes.stays ht) hid (ht.1.source hq.1)
        (ht.1.items id hq.2) (Nat.lt_of_lt_of_le hparent₁ ht.1.scopes) item body
    refine .ite (fun hrecursive => ?_) fun _ => ?_
    · exact (h.runs_recursiveRow ha hv (course_goes.stays hs₁) hid ⟨item, hwritten, hrecursive⟩ hq.2
        hparent₁ _ hquery).bind course_goes fun body t ht _ => hshow body t ht
    · exact (hv.query (course_goes.stays hs₁) hquery hparent₁).bind course_goes
        fun body t ht _ => hshow body t ht
  · exact .fail hs (ha.semantic _ rfl)

theorem runs_withRow (hs : Session.Goes t₀ G s s) (hscope : scope.index < s.scopes.size)
    {body : NodeId} (hbody : part d body) {items : List NodeId}
    (hitems : ∀ c ∈ items, part d c) :
    Runs (Session.Goes t₀ G) E s (withRow v scope body items) fun _ _ => True := by
  induction items generalizing s scope with
  | nil => exact hv.query hs hbody hscope
  | cons item rest ih =>
    refine (h.runs_bindWithItem ha hv hs (hitems item (List.mem_cons_self ..)) hscope).bind
      course_goes fun scope s₁ hs₁ hscope₁ => ?_
    exact ih (course_goes.stays hs₁) hscope₁ fun c hc => hitems c (List.mem_cons_of_mem _ hc)

theorem runs_queryStep (hs : Session.Goes t₀ G s s) (hid : part (d + 1) id)
    (hscope : scope.index < s.scopes.size) :
    Runs (Session.Goes t₀ G) E s (queryStep v scope id) fun _ _ => True := by
  refine runs_node hs (h.lt_size hid) fun n hn => Runs.bind course_goes (Q := fun _ _ => True) ?_ ?_
  · -- A query is as it was written, so what it refers to are parts.
    have hchild : n.isClause = true → ∀ c ∈ n.children, part d c := fun hclause c hc =>
      h.below hid ⟨n, hs.1.rewrites.1.node?_of_isClause hn hclause, hc⟩
    cases n with
    | select block => exact h.runs_selectRow ha hv hs hscope (hchild rfl) id
    | setOperation operation => exact runs_setOperationRow ha hv hs hscope (hchild rfl)
    | withQuery items body =>
      exact h.runs_withRow ha hv hs hscope (hchild rfl body (by simp [Node.children]))
        fun c hc => hchild rfl c (by simp [Node.children, hc])
    | _ => exact .fail hs (ha.semantic _ rfl)
  · intro row s₁ hs₁ _
    refine (h.runs_recordPart (course_goes.stays hs₁) hid row).bind course_goes fun _ s₂ hs₂ _ => ?_
    exact .pure (course_goes.stays hs₂) trivial

/-! ### Calls -/

omit h ha hv in
/-- A part stays one while nodes are added. -/
theorem isPart_mono {t t' : Tree} (hid : Tree.IsPart t₀ part d t id)
    (hk : Tree.KeepsAdded t₀ t t') : Tree.IsPart t₀ part d t' id := by
  rcases hid with ⟨a, hp, hw⟩ | ⟨hnew, hn, hcall⟩
  · exact .inl ⟨a, hp, hw.mono hk⟩
  · exact .inr ⟨hnew, (hk.node? id hnew (Tree.lt_size_of_node? hn)).trans hn, hcall⟩

omit ha hv in
/-- The operands that a frame tracks are parts. -/
theorem isPart_of_tracks {call operand : NodeId} {name : String} {written : List NodeId}
    {f : CallFrame} (hp : part (d + 1) call) (hn : t₀.node? call = some (.call name written))
    (hf : f.Tracks t₀ written) (ho : operand ∈ f.operands) :
    Tree.IsPart t₀ part d f.session.tree operand := by
  obtain ⟨index, hi, rfl⟩ := List.getElem_of_mem ho
  rcases hf.operand index _ (List.getElem?_eq_getElem hi) with ⟨a, hwritten, hw, -⟩ | ⟨-, hnew, hd⟩
  · exact .inl ⟨a, h.below hp ⟨_, hn, List.mem_of_getElem? hwritten⟩, hw⟩
  · refine .inr ⟨hnew, hd, ?_⟩
    rintro rfl
    exact ⟨call, hp⟩

omit h ha in
theorem runs_recorded (hs : Session.Goes t₀ G s s) (hid : Tree.IsPart t₀ part d s.tree id)
    (hscope : scope.index < s.scopes.size) :
    Runs (Session.Goes t₀ G) E s (v.recorded scope id) fun _ _ => True :=
  .recorded hs (hv.expression hs hid hscope)

omit h ha in
theorem runs_visitOperands (hs : Session.Goes t₀ G s s) (hscope : scope.index < s.scopes.size)
    (signature : Signature) (index : Nat) {operands : List NodeId}
    (hparts : ∀ o ∈ operands, Tree.IsPart t₀ part d s.tree o) :
    Runs (Session.Goes t₀ G) E s (visitOperands v scope signature index operands) fun _ _ => True :=
  .visitOperands course_goes hs signature index fun o ho _ ht => hv.expression (course_goes.stays ht)
    (isPart_mono (hparts o ho) ht.1.rewrites.2) (Nat.lt_of_lt_of_le hscope ht.1.scopes)

omit h ha in
theorem runs_operandTypes (hs : Session.Goes t₀ G s s) (hscope : scope.index < s.scopes.size)
    (signature : Signature) (index : Nat) {operands : List NodeId}
    (hparts : ∀ o ∈ operands, Tree.IsPart t₀ part d s.tree o) :
    Runs (Session.Goes t₀ G) E s (operandTypes v scope signature index operands)
      fun types _ => types.length = operands.length :=
  .operandTypes course_goes hs signature index fun o ho _ ht => hv.expression (course_goes.stays ht)
    (isPart_mono (hparts o ho) ht.1.rewrites.2) (Nat.lt_of_lt_of_le hscope ht.1.scopes)

section

variable {call : NodeId} {name : String} {written all : List NodeId} {op : Operator}

variable (hp : part (d + 1) call) (hcall : t₀.node? call = some (.call name written))

include hp hcall

omit ha in
/-- The type of an operand that is there. -/
theorem guards_typeOf (hscope : scope.index < s.scopes.size) {index count : Nat}
    (hi : index < count ∨ ∀ e, E e) :
    (CallFrame.typeOf v scope op index).Guards (CallFrame.Stays t₀ G written s count) E := by
  refine guards_state_bind fun f hf => ?_
  obtain ⟨hgoes, htracks, hcount⟩ := hf
  cases ho : f.operands[index]? with
  | none =>
    refine .fail ⟨hgoes, htracks, hcount⟩ ?_
    rcases hi with hi | hi
    · have := List.getElem?_eq_none_iff.mp ho
      omega
    · exact hi _
  | some operand =>
    refine .ite (fun _ => .pure ⟨hgoes, htracks, hcount⟩ trivial) fun _ => ?_
    have hrun := runs_recorded hv (course_goes.stays hgoes)
      (h.isPart_of_tracks hp hcall htracks (List.mem_of_getElem? ho))
      (Nat.lt_of_lt_of_le hscope hgoes.1.scopes)
    have hmoved : ∀ t, Session.Goes t₀ G f.session t →
        CallFrame.Stays t₀ G written s count { f with session := t } := fun t ht =>
      ⟨course_goes.trans hgoes ht, htracks.onSession ht.1.rewrites.1 ht.1.rewrites.2, hcount⟩
    exact hrun.focus hmoved

omit ha in
/-- A cast of an operand, and the validation of what is cast. -/
theorem guards_castTo (hscope : scope.index < s.scopes.size) (count index : Nat)
    (target : DataType) : (CallFrame.castTo v scope call index target).Guards
      (CallFrame.Stays t₀ G written s count) E := by
  rintro f ⟨hgoes, htracks, hcount⟩
  have hgrown : ∀ tree, Session.RewritesSince t₀ f.session.tree { f.session with tree } →
      Tree.Recast t₀ call f.session.tree tree →
        Session.Goes t₀ G s { f.session with tree } := fun tree hsince hcast =>
    course_goes.trans hgoes ⟨.of_tree hsince ⟨rfl, rfl, rfl⟩ rfl rfl, h.tree hgoes.2 hp hsince.1 hcast⟩
  rcases htracks.castTo_cases v scope hcall index target with
    heq | ⟨tree, hsince, -, hrecast, heq | ⟨hi, hwrapped, heq⟩⟩
  -- There is nothing to cast.
  · unfold Runs
    rw [heq]
    exact ⟨⟨hgoes, htracks, hcount⟩, trivial⟩
  -- The cast is in the tree, and no call points at it.
  · unfold Runs
    rw [heq]
    exact ⟨⟨hgrown tree hsince hrecast, htracks.onSession hsince.1 hsince.2, hcount⟩, trivial⟩
  · have hstart := hgrown tree hsince hrecast
    have hmem : f.session.tree.nextId ∈ f.operands.set index f.session.tree.nextId :=
      List.mem_set hi _
    have hrun := hv.expression (course_goes.stays hstart)
      (h.isPart_of_tracks hp hcall hwrapped hmem) (Nat.lt_of_lt_of_le hscope hstart.1.scopes)
    have hmoved : ∀ t, Session.Goes t₀ G { f.session with tree } t →
        CallFrame.Stays t₀ G written s count
          ⟨t, f.operands.set index f.session.tree.nextId⟩ := fun t ht =>
      ⟨course_goes.trans hstart ht, hwrapped.onSession ht.1.rewrites.1 ht.1.rewrites.2,
        by simpa using hcount⟩
    unfold Runs
    rw [heq]
    cases hx : v.expression scope f.session.tree.nextId { f.session with tree } with
    | mk r t =>
      cases r with
      | ok type => exact ⟨hmoved t (hrun.of_ok hx).1, trivial⟩
      | error e => exact ⟨hmoved t (hrun.of_error hx).1, (hrun.of_error hx).2⟩

/-- The check of a call. -/
theorem runs_checkCall (hs : Session.Goes t₀ G s s) (hscope : scope.index < s.scopes.size)
    (hall : CallFrame.Tracks t₀ written ⟨s, all⟩) :
    Runs (Session.Goes t₀ G) E s (checkCall v scope call op all) fun _ _ => True := by
  have htype : ∀ index, (index < all.length ∨ ∀ e, E e) →
      (CallFrame.typeOf v scope op index).Guards (CallFrame.Stays t₀ G written s all.length) E :=
    fun index hi => h.guards_typeOf hv hp hcall hscope hi
  have hcast := h.guards_castTo hv hp hcall hscope all.length
  have hshown : ∀ (f : CallFrame) index, CallFrame.Stays t₀ G written s all.length f →
      index < f.operands.length → index < all.length ∨ ∀ e, E e := fun f index hf hi =>
    .inl (hf.2.2 ▸ hi)
  have hview : (CallFrame.view v scope call op s.settings s.engine).Guards
      (CallFrame.Stays t₀ G written s all.length) E (fun index => index < all.length ∨ ∀ e, E e)
      fun _ => True := by
    refine ⟨hshown, htype, fun _ types positions _ => ?_, fun _ _ => ha.semantic _ rfl,
      fun _ => ha.semantic _ rfl⟩
    refine CallView.guards_coerce (CallView.guards_signatureText _ hshown htype) ?_ ?_
    · rintro request f ⟨hgoes, htracks, hcount⟩
      refine ⟨course_goes.trans hgoes ⟨.of_tree ⟨⟨hgoes.1.rewrites.1.rewritten,
        hgoes.1.rewrites.1.closed⟩, .refl _ _⟩ ⟨rfl, rfl, rfl⟩ rfl rfl, h.requests _ hgoes.2⟩, ?_, hcount⟩
      exact htracks.onSession ⟨hgoes.1.rewrites.1.rewritten, hgoes.1.rewrites.1.closed⟩ (.refl _ _)
    -- The standard engine passes on faults of casts; any other one may do as it likes.
    · rcases ha.engine hs.2 with hengine | hE
      · show ((s.engine.plan op.name types positions).run _).Guards _ _
        rw [hengine]
        exact CallView.guards_run_implicitCasts fun index source family target _ _ =>
          hcast (0 + index) target
      · exact CallView.guards_run (fun index => htype index (.inr hE)) hcast hE _
  exact (hview.check op.signature (fun _ _ _ _ _ _ => trivial) ⟨s, all⟩ ⟨hs, hall, rfl⟩).checkCall
    fun f hf => hf.1

omit hcall ha hv in
/-- Placeholders for omitted operands are added. -/
theorem runs_padded {operands : List NodeId} (hs : Session.Goes t₀ G s s)
    (hn : s.tree.node? call = some (.call name operands))
    (hw : List.Forall₂ (Tree.Wraps t₀ s.tree) written operands) (signature : Signature) :
    Runs (Session.Goes t₀ G) E s (padded signature operands) fun all s' =>
      CallFrame.Tracks t₀ written ⟨s', all⟩ ∧ ∀ o ∈ operands, o ∈ all := by
  obtain ⟨all, s₁, hpad⟩ := exists_padded signature operands s
  have hsince := tracksSince_padded ⟨hs.1.rewrites.1, .refl _ s.tree⟩ hn hw hpad
  have hgoes : Session.Goes t₀ G s s₁ := by
    rw [padded_apply] at hpad
    split at hpad
    · cases hpad
      exact hs
    · cases hpad
      refine ⟨.of_tree ⟨hsince.1.rewrites, hsince.2⟩ ⟨rfl, rfl, rfl⟩ rfl rfl,
        h.tree hs.2 hp hsince.1.rewrites ?_⟩
      exact Tree.recast_push hs.1.rewrites.1.rewritten.size_le (.inl rfl)
  unfold Runs
  rw [hpad]
  exact ⟨hgoes, hsince.1, fun o ho => mem_of_padded hpad ho⟩

omit hcall in
/-- A call is validated from its operator to its type. -/
theorem runs_callType {operands : List NodeId} (hs : Session.Goes t₀ G s s)
    (hscope : scope.index < s.scopes.size) (hn : s.tree.node? call = some (.call name operands)) :
    Runs (Session.Goes t₀ G) E s (callType v scope call name operands) fun _ _ => True := by
  obtain ⟨written, hcall, hw⟩ := hs.1.rewrites.1.rewritten.call_of_call hn
  unfold callType
  refine .state_bind ?_
  cases hop : s.operators.lookup? name with
  | none => exact .fail hs (ha.semantic _ rfl)
  | some op =>
    refine .ite (fun _ => .fail hs (ha.semantic _ rfl)) fun hadmits => ?_
    refine (h.runs_padded hp hs hn hw op.signature).bind course_goes ?_
    rintro all s₁ hs₁ ⟨htracks, hmem⟩
    have hscope₁ := Nat.lt_of_lt_of_le hscope hs₁.1.scopes
    refine (runs_visitOperands hv (course_goes.stays hs₁) hscope₁ op.signature 0 fun o ho =>
      h.isPart_of_tracks hp hcall htracks (hmem o ho)).bind course_goes fun _ s₂ hs₂ _ => ?_
    refine (h.runs_checkCall ha hv hp hcall (course_goes.stays hs₂)
      (Nat.lt_of_lt_of_le hscope₁ hs₂.1.scopes)
      (htracks.onSession hs₂.1.rewrites.1 hs₂.1.rewrites.2)).bind course_goes fun _ s₃ hs₃ _ => ?_
    -- The operands are read again: casts may have been put around them.
    obtain ⟨hcount, hread⟩ := hs₃.1.rewrites.1.tracks_operands hcall
    refine .state_bind ?_
    refine (runs_operandTypes hv (course_goes.stays hs₃)
      (Nat.lt_of_lt_of_le hscope₁ (hs₂.1.trans hs₃.1).scopes) op.signature 0 fun o ho =>
        h.isPart_of_tracks hp hcall hread ho).bind course_goes ?_
    intro types s₄ hs₄ hlength
    refine .ofExcept (course_goes.stays hs₄) (fun _ _ => trivial) fun e he => ?_
    refine ha.infer hs.2 hop ?_ he
    rw [hlength, ← hcount, hw.length_eq]
    simp only [Bool.not_eq_eq_eq_not, Bool.not_true, Bool.not_eq_false] at hadmits
    exact (Arity.admits_iff.mp hadmits).1

end

/-! ### Expressions -/

omit ha hv in
/-- Everything below a part is a part. -/
theorem part_of_below {a x : NodeId} (ha : part d a)
    (hx : Relation.ReflTransGen t₀.Child a x) : part d x := by
  induction hx with
  | refl => exact ha
  | tail _ hc ih => exact h.child ih hc

omit ha hv in
/-- The types of casts around parts are recorded. -/
theorem runs_recordCasts (hs : Session.Goes t₀ G s s) (type : DataType)
    {casts : List (NodeId × CastTarget)}
    (hcasts : ∀ z ∈ casts, ∃ a, part d a ∧ Tree.Wraps t₀ s.tree a z.1) :
    Runs (Session.Goes t₀ G) E s (recordCasts type casts) fun _ _ => True := by
  induction casts with
  | nil => exact .pure hs trivial
  | cons cast rest ih =>
    refine (ih fun z hz => hcasts z (List.mem_cons_of_mem _ hz)).bind course_goes
      fun operand s₁ hs₁ _ => ?_
    obtain ⟨a, hp, hw⟩ := hcasts cast (List.mem_cons_self ..)
    have hw := hw.mono hs₁.1.rewrites.2
    have hsize := hw.lt_size (Nat.lt_of_lt_of_le (h.lt_size hp) hs₁.1.rewrites.1.rewritten.size_le)
    refine (h.runs_record (course_goes.stays hs₁) _ hsize fun x hx hwx => ⟨d, ?_⟩).bind course_goes
      fun _ s₂ hs₂ _ => .pure (course_goes.stays hs₂) trivial
    rw [hwx.unique hw hx (h.lt_size hp)]
    exact hp

theorem runs_expressionType (hs : Session.Goes t₀ G s s) (hid : part (d + 1) id)
    (hscope : scope.index < s.scopes.size) {n : Node} (hn : s.tree.node? id = some n)
    (hcast : ∀ operand target implicit, n ≠ .cast operand target implicit) :
    Runs (Session.Goes t₀ G) E s (expressionType v scope id n) fun _ _ => True := by
  have hwritten : n.operands? = none → t₀.node? id = some n :=
    hs.1.rewrites.1.rewritten.node?_eq (h.lt_size hid) hn
  cases n with
  | literal value => exact .pure hs trivial
  | identifier names =>
    exact .state_bind (.ofExcept hs (fun _ _ => trivial) fun e he =>
      ha.reference hid (hwritten rfl) hs.2 hscope he)
  | call name operands => exact h.runs_callType ha hv hid hs hscope hn
  | cursor query =>
    have hquery : part d query := h.below hid ⟨_, hwritten rfl, by simp [Node.children]⟩
    exact (hv.query hs hquery hscope).bind course_goes fun _ s₁ hs₁ _ =>
      .pure (course_goes.stays hs₁) trivial
  | default => exact .pure hs trivial
  | cast operand target implicit => exact absurd rfl (hcast operand target implicit)
  | _ => exact .fail hs (ha.semantic _ rfl)

/-- An expression with casts around it. -/
theorem runs_wrapped (hs : Session.Goes t₀ G s s) {a : NodeId} (hp : part (d + 1) a)
    (hw : Tree.Wraps t₀ s.tree a id) (hscope : scope.index < s.scopes.size) :
    Runs (Session.Goes t₀ G) E s (expressionStep v scope id) fun _ _ => True := by
  obtain ⟨casts, core, hpeel⟩ : ∃ casts core, s.tree.peelCasts s.tree.size id = (casts, core) :=
    ⟨_, _, rfl⟩
  unfold expressionStep
  refine .state_bind ?_
  simp only [Host.session_self, Host.lift_self, hpeel]
  by_cases hcast : ∃ operand target implicit,
      s.tree.node? core = some (.cast operand target implicit)
  -- The casts go round, or there are too many.
  · obtain ⟨operand, target, implicit, hn⟩ := hcast
    refine .bind_ok (node_of_some hn) (.bind course_goes (Q := fun _ _ => False) ?_ ?_)
    · exact .fail hs (ha.round _ hs.2 hs.1.rewrites.1 hp hw hpeel hn)
    · exact fun _ _ _ hf => hf.elim
  · have hpeeled : Tree.Peeled s.operators t₀ s.tree a casts core :=
      Tree.peeled_of_peelCasts hs.1.rewrites.1.rewritten h.closed hw (h.lt_size hp) hpeel
        fun operand target implicit hc => hcast ⟨_, _, _, hc⟩
    have hcore := h.part_of_below hp hpeeled.below.child
    refine runs_node hs hpeeled.lt_size fun n hn => ?_
    refine (h.runs_expressionType ha hv hs hcore hscope hn ?_).bind course_goes fun type s₁ hs₁ _ => ?_
    · rintro operand target implicit rfl
      exact hcast ⟨_, _, _, hn⟩
    refine (h.runs_recordPart (course_goes.stays hs₁) hcore type).bind course_goes fun _ s₂ hs₂ _ => ?_
    have hcasts : ∀ z ∈ casts, ∃ x, part (d + 1) x ∧ Tree.Wraps t₀ s₂.tree x z.1 := by
      intro z hz
      obtain ⟨x, -, hwx, hbelow, -⟩ := hpeeled.wraps z hz
      exact ⟨x, h.part_of_below hp hbelow.child, hwx.mono (hs₁.1.trans hs₂.1).rewrites.2⟩
    exact h.runs_recordCasts (course_goes.stays hs₂) type hcasts

omit ha hv in
/-- A placeholder only gets a type. -/
theorem runs_placeholder (hs : Session.Goes t₀ G s s) (hnew : t₀.size ≤ id.index)
    (hn : s.tree.node? id = some .default) :
    Runs (Session.Goes t₀ G) E s (expressionStep v scope id) fun _ _ => True := by
  have hpeel : s.tree.peelCasts s.tree.size id = ([], id) :=
    Tree.peelCasts_of_not_cast (fun operand target implicit hc => by cases hn.symm.trans hc) _
  unfold expressionStep
  refine .state_bind ?_
  simp only [Host.session_self, Host.lift_self, hpeel]
  refine .bind_ok (node_of_some hn) (.bind_ok (pure_apply _ s) ?_)
  refine (h.runs_record hs .any (Tree.lt_size_of_node? hn) fun a ha hw => ?_).bind course_goes
    fun _ s₁ hs₁ _ => .pure (course_goes.stays hs₁) trivial
  -- A placeholder is around nothing.
  cases hw with
  | self => omega
  | cast _ hc =>
    rw [hn] at hc
    cases hc

theorem runs_expressionStep (hs : Session.Goes t₀ G s s)
    (hid : Tree.IsPart t₀ part (d + 1) s.tree id) (hscope : scope.index < s.scopes.size) :
    Runs (Session.Goes t₀ G) E s (expressionStep v scope id) fun _ _ => True := by
  rcases hid with ⟨a, hp, hw⟩ | ⟨hnew, hn, -⟩
  · exact h.runs_wrapped ha hv hs hp hw hscope
  · exact h.runs_placeholder hs hnew hn

end Session.Upholds

/-! ### All depths -/

/-- Validation to any depth upholds what each step upholds, and stops with the faults that are
    allowed. -/
theorem visitAt_guarded (h : Session.Upholds t₀ part base G) (ha : Session.Allows t₀ part G E)
    (depth : Nat) : (visitAt depth).Guarded t₀ part G E depth := by
  induction depth with
  | zero =>
    refine ⟨fun hs hp _ => .fail hs (ha.deep _ (Nat.zero_le 1) hp), fun hs hid _ => .fail hs ?_⟩
    rcases hid with ⟨a, hp, -⟩ | ⟨-, -, hcall⟩
    · exact ha.deep _ (Nat.zero_le 1) hp
    · obtain ⟨call, hp⟩ := hcall rfl
      exact ha.deep _ (Nat.le_refl 1) hp
  | succ depth ih =>
    refine ⟨fun hs hp hscope => ?_, fun hs hid hscope => ?_⟩
    · exact h.runs_queryStep ha ih hs hp hscope
    · exact h.runs_expressionStep ha ih hs hid hscope

end

end SqlTyping
