import SqlTyping.Proofs.Session.CallMirroring

namespace SqlTyping

/-!
# Validations of one part

Expressions with the casts around them, and the recursion that ties queries, calls and expressions
together:

* `Visit.Mirrors.expressionStep` — when what lies below an expression is validated alike, so is the
  expression;
* `visitAt_mirrors` — validations of the part mirror each other. The depth that is left may differ, as
  one of the statements may have more nodes; it is never used up where there are no cycles.
-/

open Checking

variable {ρ : Renumbering} {N : Naming} {own : NodeId → Prop} {rank : NodeId → Nat} {s t : Session}
  {depth : Nat} {v v' : Visit} {scope : ScopeId} {id : NodeId}

/-- The types of casts are recorded under their new numbers. -/
theorem Session.Mirrors.recordCasts (hm : Session.Mirrors ρ own s t) (type : DataType)
    (casts : List (NodeId × CastTarget)) :
    EndAlike (Session.Mirrors ρ own) Eq s t (SqlTyping.recordCasts type casts)
      (SqlTyping.recordCasts type (casts.map fun z => (ρ.nodes.node z.1, z.2))) := by
  induction casts with
  | nil => exact .pure hm rfl
  | cons cast rest ih =>
    refine ih.bind fun operand _ s₁ t₁ _ heq hm₁ => ?_
    subst heq
    exact (hm₁.record _ _).bind fun _ _ s₂ t₂ _ _ hm₂ => .pure hm₂ rfl

/-- A placeholder only gets a type. -/
theorem Session.Mirrors.placeholder (hm : Session.Mirrors ρ own s t) (hnew : ρ.nodes.start ≤ id.index)
    (hn : s.tree.node? id = some .default) :
    EndAlike (Session.Mirrors ρ own) Eq s t (SqlTyping.expressionStep v scope id)
      (SqlTyping.expressionStep v' (ρ.scopes.scope scope) (ρ.nodes.node id)) := by
  have hn' : t.tree.node? (ρ.nodes.node id) = some .default := by
    rw [hm.tree.node? id (.inr hnew), hn]
    rfl
  have hpeel : ∀ (tree : Tree) id fuel, tree.node? id = some .default →
      tree.peelCasts fuel id = ([], id) := fun tree id fuel hn =>
    Tree.peelCasts_of_not_cast (fun _ _ _ hcast => by rw [hn] at hcast; cases hcast) fuel
  unfold SqlTyping.expressionStep
  refine .state_bind ?_
  simp only [Host.session_self, Host.lift_self, hpeel s.tree id _ hn, hpeel t.tree _ _ hn']
  have hrest : EndAlike (Session.Mirrors ρ own) Eq s t
      (Validation.record id .any >>= fun _ => SqlTyping.recordCasts .any [])
      (Validation.record (ρ.nodes.node id) .any >>= fun _ => SqlTyping.recordCasts .any []) :=
    (hm.record id .any).bind fun _ _ s₁ t₁ _ _ hm₁ => .pure hm₁ rfl
  exact hrest.of_apply (bind_of_ok (node_of_some hn) _) (bind_of_ok (node_of_some hn') _)

namespace Visit.Mirrors

variable (hv : Visit.Mirrors ρ N own rank depth v v') (hρ : ρ.Suits N.tree own rank)
  (hs : Session.Goes N.tree Session.OwnsSources s s) (hm : Session.Mirrors ρ own s t)
  (hscope : s.scopes.Visible ρ.scopes scope)

include hv hρ hs hm hscope

/-- An expression that is no cast has the same type. -/
theorem expressionType (hid : Tree.HasRoom own rank (depth + 1) id)
    (hfinds : ρ.FindsBelow N s scope id) {n : Node}
    (hn : s.tree.node? id = some n)
    (hcast : ∀ operand target implicit, n ≠ .cast operand target implicit) :
    EndAlike (Session.Mirrors ρ own) Eq s t (SqlTyping.expressionType v scope id n)
      (SqlTyping.expressionType v' (ρ.scopes.scope scope) id (n.renumber ρ.nodes.node)) := by
  cases n with
  | literal value => exact .pure hm rfl
  | identifier names =>
    refine .state_bind ?_
    rw [hm.referenceType hscope names]
    exact .ofExcept_eq hm _
  | call name operands => exact hv.callType hρ hscope hfinds hid hs hm hn
  | cursor query =>
    have hwritten := hs.1.rewrites.1.rewritten.node?_eq (hρ.isClosed.lt_size id hid.1) hn rfl
    rw [hρ.renumber_eq hid.1 hwritten]
    have hquery := hid.below (c := query) hρ.isClosed hρ.rank
      ⟨_, hwritten, by simp [Node.children]⟩
    have hfound : ρ.FindsBelow N s scope query := hfinds.part hwritten fun env =>
      .inr (List.mem_singleton.mpr rfl)
    exact (hv.query hs hm hquery hscope hfound).bind fun _ _ s₁ t₁ _ _ hm₁ => .pure hm₁ rfl
  | default => exact .pure hm rfl
  | cast operand target implicit => exact absurd rfl (hcast operand target implicit)
  | _ => exact .fail hm

/-- An expression with casts around it is validated alike. -/
theorem wrapped {a : NodeId} (hp : Tree.HasRoom own rank (depth + 1) a)
    (hw : Tree.Wraps N.tree s.tree a id) (hfinds : ρ.FindsBelow N s scope a) :
    EndAlike (Session.Mirrors ρ own) Eq s t (SqlTyping.expressionStep v scope id)
      (SqlTyping.expressionStep v' (ρ.scopes.scope scope) (ρ.nodes.node id)) := by
  obtain ⟨casts, core, hpeel⟩ : ∃ casts core, s.tree.peelCasts s.tree.size id = (casts, core) :=
    ⟨_, _, rfl⟩
  have hrewrites := hs.1.rewrites.1
  have hends := hρ.isClosed.peelCasts_ends hrewrites.rewritten hrewrites.closed hρ.acyclic hp.1 hw hpeel
  have hpeeled : Tree.Peeled s.operators N.tree s.tree a casts core :=
    Tree.peeled_of_peelCasts hrewrites.rewritten hρ.closed hw (hρ.isClosed.lt_size a hp.1) hpeel hends
  have hcore := hρ.upholds.part_of_below hp hpeeled.below.child
  have hsize : s.tree.size ≤ t.tree.size := by
    rw [hm.tree.size]
    exact Nat.le_add_right _ _
  have hpeel' : t.tree.peelCasts t.tree.size (ρ.nodes.node id) =
      (casts.map fun z => (ρ.nodes.node z.1, z.2), core) := by
    have hmoved : ∀ x, (∃ b, own b ∧ Tree.Wraps N.tree s.tree b x) →
        own x ∨ ρ.nodes.start ≤ x.index := by
      rintro x ⟨b, hb, hwb⟩
      cases hwb with
      | self => exact .inl hb
      | cast hnew => exact .inr (hρ.start ▸ hnew)
    have hinner : ∀ x operand target implicit, (∃ b, own b ∧ Tree.Wraps N.tree s.tree b x) →
        s.tree.node? x = some (.cast operand target implicit) →
          ∃ b, own b ∧ Tree.Wraps N.tree s.tree b operand := fun x operand target implicit hx hn =>
      Tree.CastsPart.wraps ⟨hx, target, implicit, hn⟩ hrewrites.rewritten hρ.isClosed
    have hsame := hm.tree.peelCasts hmoved hinner hsize ⟨a, hp.1, hw⟩ hpeel hends
    rwa [hρ.node_eq hcore.1] at hsame
  unfold SqlTyping.expressionStep
  refine .state_bind ?_
  simp only [Host.session_self, Host.lift_self, hpeel, hpeel']
  refine hρ.node hs hm hcore.1 fun n hn => ?_
  have hcast : ∀ operand target implicit, n ≠ .cast operand target implicit := by
    rintro operand target implicit rfl
    exact hends operand target implicit hn
  have hfound : ρ.FindsBelow N s scope core := hfinds.imp fun _ hresolved =>
    hresolved.peeled hpeeled (hρ.acyclic core hcore.1)
  refine (hv.expressionType hρ hs hm hscope hcore hfound hn hcast).bind fun type _ s₁ t₁ _ heq hm₁ => ?_
  subst heq
  exact (hρ.record hm₁ hcore.1 type).bind fun _ _ s₂ t₂ _ _ hm₂ => hm₂.recordCasts type casts

/-- An expression is validated alike when what lies below it is. -/
theorem expressionStep (hid : Tree.IsPart N.tree (Tree.HasRoom own rank) (depth + 1) s.tree id)
    (hfinds : ρ.FindsWrapped N own s scope id) :
    EndAlike (Session.Mirrors ρ own) Eq s t (SqlTyping.expressionStep v scope id)
      (SqlTyping.expressionStep v' (ρ.scopes.scope scope) (ρ.nodes.node id)) := by
  rcases hid with ⟨a, hp, hw⟩ | ⟨hnew, hn, -⟩
  · exact hv.wrapped hρ hs hm hscope hp hw (hfinds a hp.1 hw)
  · exact hm.placeholder (hρ.start ▸ hnew) hn

end Visit.Mirrors

/-! ### All depths -/

/-- The part is validated alike to any depth, also when more is left in the other session. -/
theorem visitAt_mirrors (hρ : ρ.Suits N.tree own rank) (depth more : Nat) :
    Visit.Mirrors ρ N own rank depth (visitAt depth) (visitAt (depth + more)) := by
  induction depth with
  | zero =>
    -- There is room below every node of the part, so no depth is not enough for any.
    have hroom : ∀ {depth a}, depth ≤ 1 → ¬ Tree.HasRoom own rank depth a := fun hdepth hp => by
      have := hp.2
      omega
    refine ⟨visitAt_guarded hρ.upholds Session.allows_all 0, fun _ _ hp _ _ => ?_, fun _ _ hid _ _ => ?_⟩
    · exact absurd hp (hroom (Nat.zero_le 1))
    · rcases hid with ⟨a, hp, -⟩ | ⟨-, -, hcall⟩
      · exact absurd hp (hroom (Nat.zero_le 1))
      · obtain ⟨call, hp⟩ := hcall rfl
        exact absurd hp (hroom (Nat.le_refl 1))
  | succ depth ih =>
    rw [Nat.succ_add]
    refine ⟨visitAt_guarded hρ.upholds Session.allows_all _, fun hs hm hp hscope hfinds => ?_,
      fun hs hm hid hscope hfinds => ?_⟩
    · exact ih.queryStep hρ hs hm hp hscope hfinds
    · exact ih.expressionStep hρ hs hm hscope hid hfinds

end SqlTyping
