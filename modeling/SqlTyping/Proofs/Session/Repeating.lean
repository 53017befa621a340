import SqlTyping.Proofs.Session.Acceptance
import SqlTyping.Proofs.Session.Views

namespace SqlTyping

/-!
# Validations that can be repeated

A part of a statement that has been validated with a result is left such that it can be validated
again, with the same result and without another conversion, also where operands must not be converted:

* `Session.Revisits` — a session in which a statement is validated once more;
* `Session.Hosts` — the nodes of a part are as they were left;
* `Session.Replays` — validating once more adds nothing but placeholders;
* `Session.Repeats` — from states with `P` a check leads to `Q`, and so does each later run of it that
  finds the nodes of the part as the first run has left them. The two runs may start in different
  scopes, so `P` and `Q` speak about one session at a time;
* `Session.Repeats.bind` — checks one after the other, with no node in common;
* `Session.Settled` — what a first run has shown of all later ones.
-/

namespace Session

/-- A session in which the statement of `b` is validated once more, as far as it has been rewritten.
    Where operands must not be converted, none is the NULL literal. -/
structure Revisits (b t : Session) : Prop where
  continues : Session.Continues { b with settings := t.settings } t
  matching : t.settings.matching = b.settings.matching
  nulls : t.settings.coercion = true ∨ ∀ call name operands,
    t.tree.node? call = some (.call name operands) → ∀ o ∈ operands, t.isNull o = false

/-- The nodes `own` of the tree `left` are in another tree, and so are all that were added to the
    statement of `b`. -/
structure Hosts (b : Session) (own : NodeId → Prop) (left other : Tree) : Prop where
  added : Tree.KeepsAdded b.tree left other
  own : ∀ id node, own id → left.node? id = some node → other.node? id = some node

/-- Nothing but placeholders has been added to the statement. -/
structure Replays (b t t' : Session) : Prop where
  revisits : b.Revisits t'
  settings : t'.settings = t.settings
  kept : ∀ id node, t.tree.node? id = some node → t'.tree.node? id = some node
  added : ∀ id node, t'.tree.node? id = some node → t.tree.node? id = some node ∨ node = .default

variable {b s s' t t' t'' : Session} {own own' : NodeId → Prop} {left other : Tree}

/-- A later moment of the first validation is a second validation's beginning. -/
theorem Continues.revisits (h : b.Continues s) (hcoercion : b.settings.coercion = true) :
    b.Revisits s where
  continues := by
    refine ⟨h.rewrites, h.operators, h.engine, rfl, h.recorded⟩
  matching := by rw [h.settings]
  nulls := .inl (by rw [h.settings]; exact hcoercion)

/-- Nodes that stay, and placeholders, make no operand a NULL literal. -/
theorem Revisits.replays (h : b.Revisits t)
    (hcontinues : Session.Continues { b with settings := t.settings } t')
    (hkept : ∀ id node, t.tree.node? id = some node → t'.tree.node? id = some node)
    (hadded : ∀ id node, t'.tree.node? id = some node →
      t.tree.node? id = some node ∨ node = .default) : b.Replays t t' where
  revisits := {
    continues := by
      rw [hcontinues.settings]
      exact hcontinues
    matching := by
      rw [hcontinues.settings]
      exact h.matching
    nulls := by
      rw [hcontinues.settings]
      refine h.nulls.imp_right fun hnone call name operands hcall o ho => ?_
      rcases hadded call _ hcall with hcall | hdefault
      · obtain ⟨node, hnode⟩ := Option.isSome_iff_exists.mp
          (h.continues.rewrites.closed call _ hcall o ho)
        have hnull := hnone call name operands hcall o ho
        unfold isNull at hnull ⊢
        rw [hnode] at hnull
        rwa [hkept o node hnode]
      · cases hdefault }
  settings := hcontinues.settings
  kept := hkept
  added := hadded

theorem Replays.refl (h : b.Revisits t) : b.Replays t t :=
  ⟨h, rfl, fun _ _ h => h, fun _ _ h => .inl h⟩

theorem Replays.trans (h : b.Replays t t') (h' : b.Replays t' t'') : b.Replays t t'' where
  revisits := h'.revisits
  settings := h'.settings.trans h.settings
  kept id node hn := h'.kept id node (h.kept id node hn)
  added id node hn := (h'.added id node hn).elim (h.added id node) .inr

theorem Replays.size_le (h : b.Replays t t') : t.tree.size ≤ t'.tree.size := by
  by_contra hlt
  have hlast : (t.tree.node? ⟨t'.tree.size⟩).isSome = true :=
    Tree.isSome_node?_iff.mpr (Nat.lt_of_not_le hlt)
  obtain ⟨node, hn⟩ := Option.isSome_iff_exists.mp hlast
  exact Nat.lt_irrefl _ (Tree.lt_size_of_node? (h.kept _ _ hn))

/-- A quiet change repeats nothing. -/
theorem Revisits.quiet (h : b.Revisits t) (hown : ∀ x, own x → x.index < t.tree.size)
    (hq : t.Quiet own t') : b.Replays t t' := by
  refine h.replays (h.continues.within_quiet hown (fun _ _ _ _ _ => trivial) hq).continues ?_ ?_
  · intro id node hn
    rwa [hq.tree]
  · intro id node hn
    exact .inl (by rwa [hq.tree] at hn)

theorem Hosts.mono (h : b.Hosts own' left other) (hown : ∀ id, own id → own' id) :
    b.Hosts own left other :=
  ⟨h.added, fun id node hid => h.own id node (hown id hid)⟩

theorem Hosts.refl (own : NodeId → Prop) (left : Tree) : b.Hosts own left left :=
  ⟨.refl _ _, fun _ _ _ h => h⟩

theorem Hosts.trans {last : Tree} (h : b.Hosts own left other) (h' : b.Hosts own other last) :
    b.Hosts own left last :=
  ⟨h.added.trans h'.added, fun id node hid hn => h'.own id node hid (h.own id node hid hn)⟩

/-- What is around a node of the part is there as it was left. -/
theorem Hosts.node? (h : b.Hosts own left other) {a x : NodeId} (hw : Tree.Wraps b.tree left a x)
    (ha : own a) {node : Node} (hn : left.node? x = some node) : other.node? x = some node := by
  by_cases hold : x.index < b.tree.size
  · exact h.own x node (hw.eq_of_lt hold ▸ ha) hn
  · rw [h.added.node? x (by omega) (Tree.lt_size_of_node? hn)]
    exact hn

/-- The nodes of the statement stay while it is validated once more. -/
theorem Replays.hosts (h : b.Replays t t') (own : NodeId → Prop) : b.Hosts own t.tree t'.tree where
  added := by
    refine ⟨h.size_le, fun id _ hid => ?_⟩
    obtain ⟨node, hn⟩ := Option.isSome_iff_exists.mp (Tree.isSome_node?_iff.mpr hid)
    rw [h.kept id node hn, hn]
  own id node _ hn := h.kept id node hn

/-- A part stays while another one is validated. -/
theorem Within.hosts {retyped rewritten : NodeId → Prop} (h : b.Within retyped rewritten s s')
    (hdisjoint : ∀ id, own id → ¬ rewritten id) : b.Hosts own s.tree s'.tree where
  added := h.added
  own id node hid hn := by
    by_cases hold : id.index < b.tree.size
    · rwa [h.node? id hold (hdisjoint id hid)]
    · rwa [h.added.node? id (by omega) (Tree.lt_size_of_node? hn)]

/-! ### Checks that can be repeated -/

/-- From every session with `P` in which a statement is validated for the first time, a result of the
    check `x` comes with `Q`, and only the nodes `own` have been rewritten. From then on each run of `x`,
    to the same depth or a greater one, that starts with `P` and finds these nodes as they were left ends
    in the same way. What the runs have in common is the value `g`; each has a place `r` of its own. -/
def Repeats {ρ α γ : Type} (b : Session) (depth : Nat) (own : NodeId → Prop) (P : ρ → Session → Prop)
    (x : Visit → ρ → Validation α) (Q : γ → ρ → α → Session → Prop) : Prop :=
  ∀ r s a s', b.Continues s → P r s → x (visitAt depth) r s = (.ok a, s') →
    b.Within (fun _ => True) own s s' ∧ ∃ g, Q g r a s' ∧ ∀ deeper r' t, depth ≤ deeper →
      b.Revisits t → b.Hosts own s'.tree t.tree → P r' t →
        ∃ a' t', x (visitAt deeper) r' t = (.ok a', t') ∧ b.Replays t t' ∧ Q g r' a' t'

/-- What is left of a part in the tree `left` has the type `type` as seen from every scope with a given
    view, to a given depth. -/
def Settled (b : Session) (depth : Nat) (left : Tree) (view : View) (own : NodeId → Prop)
    (x : Visit → ScopeId → Validation DataType) (type : DataType) : Prop :=
  ∀ deeper scope t, depth ≤ deeper → b.Revisits t → b.Hosts own left t.tree → t.Sees scope view →
    ∃ t', x (visitAt deeper) scope t = (.ok type, t') ∧ b.Replays t t' ∧ t.Leaves own t'

namespace Repeats

open Checking

variable {ρ σ α β γ δ : Type} {depth : Nat} {P : ρ → Session → Prop}
  {x : Visit → ρ → Validation α} {Q : γ → ρ → α → Session → Prop}

/-- Less may be asked for, and more may be known in the beginning. -/
theorem imp {P' : ρ → Session → Prop} {Q' : δ → ρ → α → Session → Prop}
    (h : b.Repeats depth own P x Q) (hown : ∀ id, own id → own' id)
    (hP : ∀ r s, P' r s → P r s) (hQ : ∀ g, ∃ g', ∀ r a s, Q g r a s → Q' g' r a s) :
    b.Repeats depth own' P' x Q' := by
  intro r s a s' hs hp hok
  obtain ⟨hw, g, hq, hagain⟩ := h r s a s' hs (hP r s hp) hok
  obtain ⟨g', hg⟩ := hQ g
  refine ⟨hw.mono (fun _ h => h) hown, g', hg _ _ _ hq, ?_⟩
  intro deeper r' t hd ht hhosts hp'
  obtain ⟨a', t', hrun, hreplays, hq'⟩ := hagain deeper r' t hd ht (hhosts.mono hown) (hP r' t hp')
  exact ⟨a', t', hrun, hreplays, hg _ _ _ hq'⟩

/-- Two checks one after the other, each with nodes of its own. -/
theorem bind (own' : NodeId → Prop) {f : Visit → ρ → α → Validation β} {R : δ → ρ → β → Session → Prop}
    (hx : b.Repeats depth own P x Q)
    (hf : ∀ g, b.Repeats depth own' (fun (r : ρ × α) s => Q g r.1 r.2 s)
      (fun v r => f v r.1 r.2) fun g' r c s => R g' r.1 c s)
    (hdisjoint : ∀ id, own id → ¬ own' id) :
    b.Repeats depth (fun id => own id ∨ own' id) P (fun v r => x v r >>= f v r) R := by
  intro r s c s'' hs hp hok
  obtain ⟨a, s', hfirst, hrest⟩ := bind_eq_ok_iff.mp hok
  obtain ⟨hw, g, hq, hagain⟩ := hx r s a s' hs hp hfirst
  obtain ⟨hw', g', hr, hagain'⟩ := hf g (r, a) s' c s'' hw.continues hq hrest
  refine ⟨(hw.mono (fun _ h => h) fun _ h => .inl h).trans
    (hw'.mono (fun _ h => h) fun _ h => .inr h), g', hr, ?_⟩
  intro deeper r' t hd ht hhosts hp'
  have hhosts₁ : b.Hosts own s'.tree t.tree :=
    (hw'.hosts hdisjoint).trans (hhosts.mono fun _ h => .inl h)
  obtain ⟨a', t', hrun, hreplays, hq'⟩ := hagain deeper r' t hd ht hhosts₁ hp'
  have hhosts₂ : b.Hosts own' s''.tree t'.tree :=
    (hhosts.mono fun _ h => .inr h).trans (hreplays.hosts own')
  obtain ⟨c', t'', hrun', hreplays', hr'⟩ :=
    hagain' deeper (r', a') t' hd hreplays.revisits hhosts₂ hq'
  exact ⟨c', t'', bind_eq_ok_iff.mpr ⟨a', t', hrun, hrun'⟩, hreplays.trans hreplays', hr'⟩

/-- The same where the first check has the same result in each run. -/
theorem bind_value (own' : NodeId → Prop) {f : Visit → ρ → α → Validation β} {R : δ → ρ → β → Session → Prop}
    {I : ρ → Session → Prop}
    (hx : b.Repeats depth own P x fun (value : α) r a s => a = value ∧ I r s)
    (hf : ∀ value, b.Repeats depth own' I (fun v r => f v r value) R)
    (hdisjoint : ∀ id, own id → ¬ own' id) :
    b.Repeats depth (fun id => own id ∨ own' id) P (fun v r => x v r >>= f v r) R := by
  refine hx.bind own' (fun value => ?_) hdisjoint
  rintro ⟨r, a⟩ s c s' hs ⟨rfl, hi⟩ hok
  obtain ⟨hw, g, hr, hagain⟩ := hf _ r s c s' hs hi hok
  refine ⟨hw, g, hr, ?_⟩
  rintro deeper ⟨r', a'⟩ t hd ht hhosts ⟨rfl, hi'⟩
  exact hagain deeper r' t hd ht hhosts hi'

/-- A check that changes a session quietly, and whose result is the same in each session with `P`. -/
theorem of_quiet {x : ρ → Validation α} (hquiet : ∀ r (s : Session), (x r).Keeps
      (s.Quiet fun id => id.index < b.tree.size))
    (hrun : ∀ r s a s', b.Continues s → P r s → x r s = (.ok a, s') → ∃ g, Q g r a s' ∧
      ∀ r' t, b.Revisits t → P r' t → ∃ a' t', x r' t = (.ok a', t') ∧ Q g r' a' t') :
    b.Repeats depth own P (fun _ => x) Q := by
  intro r s a s' hs hp hok
  have hok : x r s = (.ok a, s') := hok
  obtain ⟨g, hq, hagain⟩ := hrun r s a s' hs hp hok
  have hfirst := hquiet r s s (.refl s)
  rw [hok] at hfirst
  refine ⟨(hs.within_own (fun h => h) hfirst).mono (fun _ _ => trivial) fun _ h => h.elim, g, hq, ?_⟩
  intro deeper r' t _ ht _ hp'
  obtain ⟨a', t', hok', hq'⟩ := hagain r' t ht hp'
  have hsecond := hquiet r' t t (.refl t)
  rw [hok'] at hsecond
  refine ⟨a', t', hok', ht.quiet (fun x hx => ?_) hsecond, hq'⟩
  exact Nat.lt_of_lt_of_le hx ht.continues.rewrites.rewritten.size_le

/-- A check that always has a result. -/
theorem of_total {x : ρ → Validation α} {Q : ρ → α → Session → Prop}
    (hquiet : ∀ r (s : Session), (x r).Keeps (s.Quiet fun id => id.index < b.tree.size))
    (hrun : ∀ r s, b.Revisits s → P r s → ∃ a s', x r s = (.ok a, s') ∧ Q r a s')
    (hcoercion : b.settings.coercion = true) :
    b.Repeats depth own P (fun _ => x) fun (_ : Unit) => Q := by
  refine of_quiet hquiet fun r s a s' hs hp hok => ⟨(), ?_, fun r' t ht hp' => hrun r' t ht hp'⟩
  obtain ⟨a₁, s₁, hrun, hq⟩ := hrun r s (hs.revisits hcoercion) hp
  rw [hok] at hrun
  cases hrun
  exact hq

theorem pure {a : ρ → α} {Q : ρ → α → Session → Prop} (h : ∀ r s, P r s → Q r (a r) s) :
    b.Repeats depth own P (fun _ r => Pure.pure (a r)) fun (_ : Unit) => Q := by
  intro r s _ s' hs hp hok
  cases hok
  refine ⟨.refl hs, (), h r s hp, fun deeper r' t _ ht _ hp' => ?_⟩
  exact ⟨a r', t, rfl, .refl ht, h r' t hp'⟩

/-- The check may be put differently for the statement of `b`. -/
theorem congr {y : Visit → ρ → Validation α} (h : b.Repeats depth own P y Q)
    (heq : ∀ v r s, s.Rewrites b.tree → x v r s = y v r s) : b.Repeats depth own P x Q := by
  intro r s a s' hs hp hok
  rw [heq _ _ _ hs.rewrites] at hok
  obtain ⟨hw, g, hq, hagain⟩ := h r s a s' hs hp hok
  refine ⟨hw, g, hq, fun deeper r' t hd ht hhosts hp' => ?_⟩
  rw [heq _ _ _ ⟨ht.continues.rewrites.rewritten, ht.continues.rewrites.closed⟩]
  exact hagain deeper r' t hd ht hhosts hp'

/-- The places may be part of something larger. -/
theorem comap (h : b.Repeats depth own P x Q) (e : σ → ρ) :
    b.Repeats depth own (fun r => P (e r)) (fun v r => x v (e r)) fun g r => Q g (e r) := by
  intro r s a s' hs hp hok
  obtain ⟨hw, g, hq, hagain⟩ := h (e r) s a s' hs hp hok
  exact ⟨hw, g, hq, fun deeper r' => hagain deeper (e r')⟩

/-- What a check leads to may be put in terms of the session it starts from. -/
theorem of_anchored {P : ρ → Session → Prop} {x : Visit → ρ → Validation α}
    {Q : γ → ρ × Session → α → Session → Prop}
    (h : b.Repeats depth own (fun (r : ρ × Session) s => s = r.2 ∧ P r.1 s) (fun v r => x v r.1) Q) :
    b.Repeats depth own P x fun g r a s => ∃ start, P r start ∧ Q g (r, start) a s := by
  intro r s a s' hs hp hok
  obtain ⟨hw, g, hq, hagain⟩ := h (r, s) s a s' hs ⟨rfl, hp⟩ hok
  refine ⟨hw, g, ⟨s, hp, hq⟩, fun deeper r' t hd ht hhosts hp' => ?_⟩
  obtain ⟨a', t', hrun, hreplays, hq'⟩ := hagain deeper (r', t) t hd ht hhosts ⟨rfl, hp'⟩
  exact ⟨a', t', hrun, hreplays, t, hp', hq'⟩

/-- A value that does not depend on the session. -/
theorem ofExcept (result : Except Fault α) :
    b.Repeats depth own P (fun _ _ => Checking.ofExcept result) fun value r a s =>
      a = value ∧ P r s := by
  refine of_quiet (fun r s => keeps_ofExcept _) fun r s a s' _ hp hok => ?_
  obtain ⟨rfl, rfl⟩ := Prod.mk.inj hok
  exact ⟨a, ⟨rfl, hp⟩, fun r' t _ hp' => ⟨a, t, rfl, rfl, hp'⟩⟩

/-- A check that is never repeated. -/
theorem of_refused (h : ∀ v r s a s', b.Continues s → x v r s ≠ (.ok a, s')) :
    b.Repeats depth own P x Q :=
  fun r s a s' hs _ hok => absurd hok (h _ r s a s' hs)

end Repeats

/-! ### Parts of a statement -/

/-- A part of a statement, validated with a result from a scope with the given view, is settled. -/
def Settles (b : Session) (depth : Nat) (view : View) (own : NodeId → Prop)
    (x : Visit → ScopeId → Validation DataType) : Prop :=
  ∀ s scope type s', b.Continues s → s.Sees scope view → x (visitAt depth) scope s = (.ok type, s') →
    b.Within (fun _ => True) own s s' ∧ s.Leaves own s' ∧ b.Settled depth s'.tree view own x type

section

variable {depth : Nat} {view : View} {x : Visit → ScopeId → Validation DataType} {type : DataType}

/-- What is settled stays so while other parts are validated. -/
theorem Settled.later (h : b.Settled depth left view own x type) (hhosts : b.Hosts own left other) :
    b.Settled depth other view own x type :=
  fun deeper scope t hd ht ho => h deeper scope t hd ht (hhosts.trans ho)

/-- A part is settled when its validation can be repeated and leaves what was there. -/
theorem Settles.of_repeats (h : b.Repeats depth own
    (fun (r : ScopeId × Session) s => s = r.2 ∧ s.Sees r.1 view) (fun v r => x v r.1)
    fun type r a s => a = type ∧ r.2.Leaves own s) : b.Settles depth view own x := by
  intro s scope type s' hs hsees hok
  obtain ⟨hw, g, ⟨rfl, hleaves⟩, hagain⟩ := h (scope, s) s type s' hs ⟨rfl, hsees⟩ hok
  refine ⟨hw, hleaves, fun deeper scope' t hd ht hhosts hsees' => ?_⟩
  obtain ⟨type', t', hrun, hreplays, rfl, hleaves'⟩ :=
    hagain deeper (scope', t) t hd ht hhosts ⟨rfl, hsees'⟩
  exact ⟨t', hrun, hreplays, hleaves'⟩

/-- The validation of a part can be repeated wherever its view is at hand, and what is known there
    stays when it is known of every session that goes on with the same scopes and row sources. -/
theorem Settles.repeats {ρ : Type} {P : ρ → Session → Prop} (h : b.Settles depth view own x)
    (scope : ρ → ScopeId) (hsees : ∀ r s, P r s → s.Sees (scope r) view)
    (hstays : ∀ r s s', P r s → s.Leaves own s' → P r s') :
    b.Repeats depth own P (fun v r => x v (scope r)) fun type r a s => a = type ∧ P r s := by
  intro r s a s' hs hp hok
  obtain ⟨hw, hleaves, hsettled⟩ := h s (scope r) a s' hs (hsees r s hp) hok
  refine ⟨hw, a, ⟨rfl, hstays r s s' hp hleaves⟩, fun deeper r' t hd ht hhosts hp' => ?_⟩
  obtain ⟨t', hrun, hreplays, hleaves'⟩ :=
    hsettled deeper (scope r') t hd ht hhosts (hsees r' t hp')
  exact ⟨a, t', hrun, hreplays, rfl, hstays r' t t' hp' hleaves'⟩

end

end Session

end SqlTyping
