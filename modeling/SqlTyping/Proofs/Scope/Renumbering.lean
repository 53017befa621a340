import SqlTyping.Proofs.Scope.Offering
import SqlTyping.Proofs.Tree.Renumbering

namespace SqlTyping

/-!
# Scopes and row sources under other numbers

Scopes and row sources that are added are numbered like nodes. What is found through them does not
depend on their numbers, nor on a WITH item between a scope and its parent whose name the scope itself
binds:

* `Pairing` — which numbers of one registry stand for which of another one;
* `Renumbering` — how the numbers of nodes, scopes and row sources are moved, and which further tables
  the catalog has;
* `RowSources.Holds`, `ScopeTree.Visible` — a source and a scope whose number stands for another one;
* `RowSources.Mirrors`, `ScopeTree.Mirrors` — these sources and scopes are in another registry, and in
  another tree of scopes, under their new numbers;
* `ScopeTree.Mirrors.requireTable`, `ScopeTree.Mirrors.lookupColumn` — names are found alike, as long as
  the further tables are not needed.
-/

/-- Which numbers of a registry stand for which of another one: of those below `left` the `known` ones,
    each for its `old` one, and from `left` on all of them, in order, for those from `right` on. -/
structure Pairing where
  left : Nat
  right : Nat
  old : Nat → Nat
  known : Nat → Prop
  lt : ∀ {i}, known i → i < left ∧ old i < right
  inj : ∀ {i j}, known i → known j → old i = old j → i = j

namespace Pairing

/-- Numbers that were in use before keep their places, and others are moved. -/
def kept (left right : Nat) (known : Nat → Prop) (h : ∀ {i}, known i → i < left ∧ i < right) :
    Pairing where
  left := left
  right := right
  old i := i
  known := known
  lt := h
  inj _ _ heq := heq

/-- The number that a number stands for. -/
def apply (p : Pairing) (i : Nat) : Nat := if i < p.left then p.old i else p.right + (i - p.left)

/-- The number stands for another one. -/
def Knows (p : Pairing) (i : Nat) : Prop := p.known i ∨ p.left ≤ i

variable {p : Pairing} {i j : Nat}

theorem apply_of_known (h : p.known i) : p.apply i = p.old i := if_pos (p.lt h).1

theorem apply_of_le (h : p.left ≤ i) : p.apply i = p.right + (i - p.left) :=
  if_neg (Nat.not_lt.mpr h)

theorem apply_inj (hi : p.Knows i) (hj : p.Knows j) : p.apply i = p.apply j ↔ i = j := by
  refine ⟨fun heq => ?_, fun heq => heq ▸ rfl⟩
  rcases hi with hi | hi
  · rw [apply_of_known hi] at heq
    rcases hj with hj | hj
    · rw [apply_of_known hj] at heq
      exact p.inj hi hj heq
    -- What was in use before lies below what has been added.
    · rw [apply_of_le hj] at heq
      have := p.lt hi
      omega
  · rw [apply_of_le hi] at heq
    rcases hj with hj | hj
    · rw [apply_of_known hj] at heq
      have := p.lt hj
      omega
    · rw [apply_of_le hj] at heq
      omega

/-- The scope that a scope stands for. -/
def scope (p : Pairing) (id : ScopeId) : ScopeId := ⟨p.apply id.index⟩

/-- The row source that a row source stands for. -/
def source (p : Pairing) (id : SourceId) : SourceId := ⟨p.apply id.index⟩

/-- A source that is registered keeps its number when all of these do. -/
theorem map_source_eq {known : Option SourceId} (h : ∀ id, known = some id → p.source id = id) :
    known.map p.source = known := by
  cases known with
  | none => rfl
  | some id => exact congrArg some (h id rfl)

theorem scope_inj {a b : ScopeId} (ha : p.Knows a.index) (hb : p.Knows b.index) :
    p.scope a = p.scope b ↔ a = b := by
  obtain ⟨i⟩ := a
  obtain ⟨j⟩ := b
  simp only [scope, ScopeId.mk.injEq]
  exact apply_inj ha hb

theorem source_inj {a b : SourceId} (ha : p.Knows a.index) (hb : p.Knows b.index) :
    p.source a = p.source b ↔ a = b := by
  obtain ⟨i⟩ := a
  obtain ⟨j⟩ := b
  simp only [source, SourceId.mk.injEq]
  exact apply_inj ha hb

/-- What comes next stands for what comes next. -/
theorem apply_next {size size' : Nat} (hle : p.left ≤ size)
    (hsize : size' + p.left = size + p.right) : p.apply size = size' := by
  rw [apply_of_le hle]
  omega

end Pairing

/-- How the numbers of nodes, scopes and row sources are moved. The row sources of the WITH items `items`
    correspond, and the second catalog may have tables `more` besides those of the first one. -/
structure Renumbering where
  nodes : Shift
  scopes : Pairing
  sources : Pairing
  items : NodeId → Prop
  more : List Binding

variable {ρ : Renumbering} {items : NodeId → Prop}

/-! ### Row sources -/

namespace RowSources

/-- The source is there, and its number stands for another one. -/
structure Holds (p : Pairing) (s : RowSources) (id : SourceId) : Prop where
  known : p.Knows id.index
  lt_size : id.index < s.size

/-- The sources whose numbers stand for others are in `s'` under these, with the same rows, and so is
    what is registered for the nodes `items`. -/
structure Mirrors (p : Pairing) (items : NodeId → Prop) (s s' : RowSources) : Prop where
  left_le : p.left ≤ s.size
  size : s'.size + p.left = s.size + p.right
  source : ∀ id, s.Holds p id → ∃ e e', s.get? id = some e ∧ s'.get? (p.source id) = some e' ∧
    e'.row = e.row ∧ e'.isSelfReference = e.isSelfReference
  item : ∀ node, items node → s'.ofNode? node = (s.ofNode? node).map p.source ∧
    ∀ id, s.ofNode? node = some id → s.Holds p id
  selfView : ∀ node, items node → s'.selfViewOf? node = (s.selfViewOf? node).map p.source ∧
    ∀ id, s.selfViewOf? node = some id → s.Holds p id

variable {p : Pairing} {s s' : RowSources} {id : SourceId}

/-- What is there stays as the registry grows. -/
theorem Holds.mono {t : RowSources} (h : s.Holds p id) (hle : s.size ≤ t.size) : t.Holds p id :=
  ⟨h.known, Nat.lt_of_lt_of_le h.lt_size hle⟩

theorem Holds.grows {t : RowSources} (h : s.Holds p id) (hg : s.Grows t) : t.Holds p id :=
  h.mono hg.size_le

namespace Mirrors

variable (h : Mirrors p items s s')

include h

/-- The next source gets corresponding numbers in both registries. -/
theorem nextId : p.source s.nextId = s'.nextId :=
  congrArg SourceId.mk (Pairing.apply_next h.left_le h.size)

/-- The row types are the same. -/
theorem row? (hid : s.Holds p id) : s'.row? (p.source id) = s.row? id := by
  obtain ⟨e, e', he, he', hrow, -⟩ := h.source id hid
  rw [RowSources.row?_of_get? he, RowSources.row?_of_get? he', hrow]

theorem rowOrEmpty (hid : s.Holds p id) : s'.rowOrEmpty (p.source id) = s.rowOrEmpty id := by
  unfold RowSources.rowOrEmpty
  rw [h.row? hid]

/-- Sources that stand for a recursive item itself correspond. -/
theorem isSelfReference (hid : s.Holds p id) :
    (s'.get? (p.source id)).any RowSource.isSelfReference =
      (s.get? id).any RowSource.isSelfReference := by
  obtain ⟨e, e', he, he', -, hself⟩ := h.source id hid
  rw [he, he']
  exact hself

/-- Corresponding sources are added. -/
theorem push {e e' : RowSource} (hrow : e'.row = e.row)
    (hself : e'.isSelfReference = e.isSelfReference) : Mirrors p items (s.push e) (s'.push e') where
  left_le := by
    have := h.left_le
    rw [size_push]
    omega
  size := by
    have := h.size
    rw [size_push, size_push]
    omega
  source id hid := by
    have hnext : p.Knows s.nextId.index := .inr h.left_le
    simp only [get?_push, ← h.nextId, Pairing.source_inj hid.known hnext]
    by_cases heq : id = s.nextId
    · rw [if_pos heq, if_pos heq]
      exact ⟨e, e', rfl, rfl, hrow, hself⟩
    · rw [if_neg heq, if_neg heq]
      refine h.source id ⟨hid.known, ?_⟩
      obtain ⟨i⟩ := id
      have hlt : i < s.size + 1 := size_push s e ▸ hid.lt_size
      have hne : i ≠ s.size := fun hi => heq (congrArg SourceId.mk hi)
      show i < s.size
      omega
  item node hnode := ⟨(h.item node hnode).1, fun id hid => ((h.item node hnode).2 id hid).mono (by simp)⟩
  selfView node hnode :=
    ⟨(h.selfView node hnode).1, fun id hid => ((h.selfView node hnode).2 id hid).mono (by simp)⟩

/-- A source is registered for the same node. -/
theorem register (node : NodeId) (kind : SourceKind) (enclosing enclosing' : Option NodeId) :
    Mirrors p items (s.register node kind enclosing).2 (s'.register node kind enclosing').2 := by
  have hpush : Mirrors p items (s.push ⟨some node, kind, .emptyRow, enclosing⟩)
      (s'.push ⟨some node, kind, .emptyRow, enclosing'⟩) := h.push rfl rfl
  have hnext : (s.register node kind enclosing).2.Holds p s.nextId :=
    ⟨.inr h.left_le, Nat.lt_of_lt_of_eq (Nat.lt_succ_self _) (size_push s _).symm⟩
  -- The sources are those that were added, under whatever nodes.
  have hholds : ∀ id, (s.push ⟨some node, kind, .emptyRow, enclosing⟩).Holds p id →
      (s.register node kind enclosing).2.Holds p id := fun _ hid => ⟨hid.known, hid.lt_size⟩
  refine ⟨hpush.left_le, hpush.size, fun id hid => hpush.source id ⟨hid.known, hid.lt_size⟩,
    fun other ho => ?_, fun other ho => ⟨(hpush.selfView other ho).1, fun id hid =>
      hholds id ((hpush.selfView other ho).2 id hid)⟩⟩
  rw [ofNode?_register, ofNode?_register]
  split
  · refine ⟨by rw [← h.nextId]; rfl, fun id hid => ?_⟩
    exact Option.some.inj hid ▸ hnext
  · exact ⟨(hpush.item other ho).1, fun id hid => hholds id ((hpush.item other ho).2 id hid)⟩

/-- The view of an item from inside is added for corresponding sources. -/
theorem addView (node : NodeId) (own : SourceId) :
    Mirrors p items (s.addView node own) (s'.addView node (p.source own)) ∧
      (s.addView node own).Holds p s.nextId := by
  let inside : RowSource := ⟨some node, .selfReference own, .emptyRow, (s.get? own).bind (·.enclosing)⟩
  let inside' : RowSource := ⟨some node, .selfReference (p.source own), .emptyRow,
    (s'.get? (p.source own)).bind (·.enclosing)⟩
  have hpush : Mirrors p items (s.push inside) (s'.push inside') := h.push rfl rfl
  -- The sources are those that were added, whatever they are views of.
  have hholds : ∀ id, (s.push inside).Holds p id → (s.addView node own).Holds p id :=
    fun _ hid => ⟨hid.known, hid.lt_size⟩
  have hnext : (s.addView node own).Holds p s.nextId :=
    hholds _ ⟨.inr h.left_le, Nat.lt_of_lt_of_eq (Nat.lt_succ_self _) (size_push s _).symm⟩
  refine ⟨⟨hpush.left_le, hpush.size, fun id hid => hpush.source id ⟨hid.known, hid.lt_size⟩,
    fun other ho => ⟨(hpush.item other ho).1, fun id hid => hholds id ((hpush.item other ho).2 id hid)⟩,
    fun other ho => ?_⟩, hnext⟩
  rw [selfViewOf?_addView, selfViewOf?_addView]
  split
  · refine ⟨by rw [← h.nextId]; rfl, fun id hid => ?_⟩
    exact Option.some.inj hid ▸ hnext
  · exact ⟨(hpush.selfView other ho).1, fun id hid => hholds id ((hpush.selfView other ho).2 id hid)⟩

/-- The view of an item from inside is there in both registries or is made in both. -/
theorem selfView_eq_ok {node : NodeId} (hnode : items node) {t : RowSources}
    (hview : s.selfView node = .ok (id, t)) :
    ∃ t', s'.selfView node = .ok (p.source id, t') ∧ Mirrors p items t t' ∧ t.Holds p id := by
  have hknown := (h.selfView node hnode).1
  have hitem := (h.item node hnode).1
  rcases RowSources.selfView_eq_ok hview with ⟨hsome, rfl⟩ | ⟨own, hnone, hown, rfl, rfl⟩
  · rw [hsome] at hknown
    exact ⟨s', selfView_of_known hknown, h, (h.selfView node hnode).2 _ hsome⟩
  · rw [hnone] at hknown
    rw [hown] at hitem
    obtain ⟨hmirrors, hnext⟩ := h.addView node own
    exact ⟨_, by rw [selfView_of_new hknown hitem, h.nextId], hmirrors, hnext⟩

theorem selfView_eq_error {node : NodeId} (hnode : items node) {e : Fault}
    (hview : s.selfView node = .error e) : s'.selfView node = .error e := by
  unfold RowSources.selfView at hview ⊢
  rw [(h.selfView node hnode).1, (h.item node hnode).1]
  cases hknown : s.selfViewOf? node with
  | some known =>
    rw [hknown] at hview
    cases hview
  | none =>
    rw [hknown] at hview
    cases hitem : s.ofNode? node with
    | none =>
      rw [hitem] at hview
      exact hview
    | some item =>
      rw [hitem] at hview
      cases hview

/-- The row type of corresponding sources is set. -/
theorem setRow (hid : s.Holds p id) (row : DataType) :
    ∃ t t', s.setRow id row = .ok t ∧ s'.setRow (p.source id) row = .ok t' ∧ Mirrors p items t t' := by
  obtain ⟨e, e', he, he', -, hself⟩ := h.source id hid
  obtain ⟨t, hset⟩ : ∃ t, s.setRow id row = .ok t := ⟨_, if_pos hid.lt_size⟩
  obtain ⟨t', hset'⟩ : ∃ t', s'.setRow (p.source id) row = .ok t' :=
    ⟨_, if_pos (Array.getElem?_eq_some_iff.mp he').1⟩
  have hsize := RowSources.size_setRow hset
  have hsize' := RowSources.size_setRow hset'
  have hholds : ∀ {other}, s.Holds p other → t.Holds p other := fun h =>
    h.mono (Nat.le_of_eq hsize.symm)
  refine ⟨t, t', hset, hset', ⟨?_, ?_, fun other hother => ?_, fun node hn => ?_, fun node hn => ?_⟩⟩
  · rw [hsize]
    exact h.left_le
  · rw [hsize, hsize']
    exact h.size
  · have hother : s.Holds p other := hother.mono (Nat.le_of_eq hsize)
    simp only [RowSources.get?_setRow hset, RowSources.get?_setRow hset',
      Pairing.source_inj hother.known hid.known]
    split
    · exact ⟨{ e with row }, { e' with row }, by rw [he]; rfl, by rw [he']; rfl, rfl, hself⟩
    · exact h.source other hother
  · rw [ofNode?_of_setRow hset, ofNode?_of_setRow hset']
    exact ⟨(h.item node hn).1, fun id hid => hholds ((h.item node hn).2 id hid)⟩
  · rw [selfViewOf?_of_setRow hset, selfViewOf?_of_setRow hset']
    exact ⟨(h.selfView node hn).1, fun id hid => hholds ((h.selfView node hn).2 id hid)⟩

end Mirrors

end RowSources

/-! ### Scopes -/

/-- A binding that refers to its source under its new number. -/
def Binding.renumber (ρ : Renumbering) (b : Binding) : Binding :=
  { b with source := ρ.sources.source b.source }

/-- Bindings to sources that keep their numbers stay as they are. -/
theorem Binding.map_renumber_eq {bindings : List Binding}
    (h : ∀ b ∈ bindings, ρ.sources.source b.source = b.source) :
    bindings.map (Binding.renumber ρ) = bindings := by
  refine (List.map_congr_left fun b hb => ?_).trans (List.map_id _)
  simp only [Binding.renumber, h b hb, id]

/-- The item that a scope of this role shows, if it shows one, is one of the nodes `items`. -/
def ScopeRole.ShowsOnly (items : NodeId → Prop) : ScopeRole → Prop
  | .catalog | .block => True
  | .withItem item _ | .recursiveItem item _ => items item

theorem ScopeRole.ShowsOnly.imp {items items' : NodeId → Prop} {role : ScopeRole}
    (h : role.ShowsOnly items) (hsub : ∀ id, items id → items' id) : role.ShowsOnly items' := by
  cases role with
  | catalog | block => trivial
  | withItem item _ | recursiveItem item _ => exact hsub item h

namespace ScopeTree

/-- The scope is there, and its number stands for another one. -/
structure Visible (p : Pairing) (t : ScopeTree) (id : ScopeId) : Prop where
  known : p.Knows id.index
  lt_size : id.index < t.size

/-- A visible scope stays visible. -/
theorem Visible.mono {p : Pairing} {t t' : ScopeTree} {id : ScopeId} (h : t.Visible p id)
    (hle : t.size ≤ t'.size) : t'.Visible p id :=
  ⟨h.known, Nat.lt_of_lt_of_le h.lt_size hle⟩

theorem Visible.exists_scope {p : Pairing} {t : ScopeTree} {id : ScopeId} (h : t.Visible p id) :
    ∃ scope, t.get? id = some scope :=
  ⟨_, Array.getElem?_eq_getElem h.lt_size⟩

/-- The scope binds a one-part name and lies in the scope of a WITH item with that name, which no name
    leads to then. Around the item is `parent`. -/
structure Covers (p : Pairing) (t : ScopeTree) (scope : Scope) (parent : ScopeId) : Prop where
  between : ∃ (id : ScopeId) (hidden : Scope) (item : NodeId) (name : String) (b : Binding),
    scope.parent = some id ∧ ¬ p.Knows id.index ∧ t.get? id = some hidden ∧
      hidden.role = .withItem item name ∧ hidden.bindings = [] ∧ hidden.parent = some parent ∧
        b ∈ scope.bindings ∧ b.names = [name]

/-- What corresponding scopes bind, and what is around them. Only around a scope of the first tree there
    may be a WITH item that is covered. -/
inductive Around (ρ : Renumbering) (t : ScopeTree) (id : ScopeId) (scope scope' : Scope) : Prop
  | root (hold : id.index < ρ.scopes.left) (hrole : scope.role = .catalog)
    (hparent : scope.parent = none) (hparent' : scope'.parent = none)
    (hbindings : scope'.bindings = scope.bindings.map (Binding.renumber ρ) ++ ρ.more)
  | inner {parent : ScopeId} (hparent : scope.parent = some parent ∨ t.Covers ρ.scopes scope parent)
    (hvisible : t.Visible ρ.scopes parent) (hparent' : scope'.parent = some (ρ.scopes.scope parent))
    (hbindings : scope'.bindings = scope.bindings.map (Binding.renumber ρ))

section Added

variable {t u : ScopeTree} {id x : ScopeId} {scope scope' : Scope}

/-- What is around a scope does not change as another one is added. -/
theorem Around.newScope {parent new : ScopeId} {role : ScopeRole} {node : Option NodeId}
    (h : t.Around ρ x scope scope') (hnew : t.newScope parent role node = .ok (new, u)) :
    u.Around ρ x scope scope' := by
  have hsize := size_newScope hnew
  cases h with
  | root hold hrole hparent hparent' hbindings => exact .root hold hrole hparent hparent' hbindings
  | inner hparent hvisible hparent' hbindings =>
    refine .inner (hparent.imp_right fun hcovers => ⟨?_⟩) (hvisible.mono (by omega)) hparent' hbindings
    obtain ⟨between, hidden, item, name, b, hparent, hnot, hs, hrest⟩ := hcovers.between
    exact ⟨between, hidden, item, name, b, hparent, hnot, get?_newScope_of_some hnew hs, hrest⟩

variable {b : Binding} (hid : t.Visible ρ.scopes id) (hadd : t.addBinding id b = .ok u)

include hid hadd

/-- A WITH item that is covered binds nothing, as its scope is none of the visible ones. -/
theorem Covers.addBinding {parent : ScopeId} (h : t.Covers ρ.scopes scope parent)
    (hparent : scope'.parent = scope.parent) (hsub : ∀ c ∈ scope.bindings, c ∈ scope'.bindings) :
    u.Covers ρ.scopes scope' parent := by
  obtain ⟨between, hidden, item, name, c, hup, hnot, hs, hrole, hnone, haround, hc, hname⟩ := h
  refine ⟨between, hidden, item, name, c, hparent.trans hup, hnot, ?_, hrole, hnone, haround,
    hsub c hc, hname⟩
  have hne : between ≠ id := by
    rintro rfl
    exact hnot hid.known
  rw [get?_addBinding hadd, if_neg hne]
  exact hs

/-- What is around the other scopes does not change as a name is bound in one. -/
theorem Around.addBinding (h : t.Around ρ x scope scope') : u.Around ρ x scope scope' := by
  cases h with
  | root hold hcatalog hparent hparent' hbindings => exact .root hold hcatalog hparent hparent' hbindings
  | inner hparent hvisible hparent' hbindings =>
    exact .inner (hparent.imp_right fun hcovered => hcovered.addBinding hid hadd rfl fun c hc => hc)
      (hvisible.mono (Nat.le_of_eq (size_addBinding hadd).symm)) hparent' hbindings

/-- The scopes that a name is bound in lie where they did. The catalog is none of them when the second one
    has further tables. -/
theorem Around.addBinding_self (h : t.Around ρ id scope scope')
    (hinner : ρ.more = [] ∨ ρ.scopes.left ≤ id.index) :
    u.Around ρ id { scope with bindings := scope.bindings ++ [b] }
      { scope' with bindings := scope'.bindings ++ [b.renumber ρ] } := by
  cases h with
  | root hold hcatalog hparent hparent' hbindings =>
    have hmore : ρ.more = [] := hinner.resolve_right (Nat.not_le.mpr hold)
    refine .root hold hcatalog hparent hparent' ?_
    simp [hbindings, hmore]
  | inner hparent hvisible hparent' hbindings =>
    refine .inner (hparent.imp_right fun hcovered => ?_)
      (hvisible.mono (Nat.le_of_eq (size_addBinding hadd).symm)) hparent' (by simp [hbindings])
    exact hcovered.addBinding hid hadd rfl fun c hc => List.mem_append_left _ hc

end Added

/-- The scopes whose numbers stand for others are in `t'` under these. They lie in each other, show items
    whose row sources correspond, and bind sources whose numbers stand for others. -/
structure Mirrors (ρ : Renumbering) (sources : RowSources) (t t' : ScopeTree) : Prop where
  left_le : ρ.scopes.left ≤ t.size
  size : t'.size + ρ.scopes.left = t.size + ρ.scopes.right
  nested : t.Nested
  nested' : t'.Nested
  scope : ∀ id scope, t.Visible ρ.scopes id → t.get? id = some scope →
    ∃ scope', t'.get? (ρ.scopes.scope id) = some scope' ∧ scope'.role = scope.role ∧
      t.Around ρ id scope scope'
  role : ∀ id scope, t.Visible ρ.scopes id → t.get? id = some scope → scope.role.ShowsOnly ρ.items
  bound : ∀ id scope b, t.Visible ρ.scopes id → t.get? id = some scope → b ∈ scope.bindings →
    sources.Holds ρ.sources b.source

/-- The second answer is the one to the first, or there is only a second one, with `X`. -/
def AnswersOrMore {α β : Type} (g : α → β) (X : β → Prop) (r : Except Fault (Option α))
    (r' : Except Fault (Option β)) : Prop :=
  r' = r.map (Option.map g) ∨ r = .ok none ∧ ∃ b, r' = .ok (some b) ∧ X b

/-- An answer to the first question is one to the second. -/
theorem map_ne_ok_none {α β : Type} {g : α → β} {r : Except Fault (Option α)} (h : r ≠ .ok none) :
    r.map (Option.map g) ≠ .ok none := by
  match r, h with
  | .error _, _ => exact nofun
  | .ok (some _), _ => exact nofun
  | .ok none, h => exact absurd rfl h

namespace Mirrors

variable {sources sources' : RowSources} {t t' : ScopeTree} {id : ScopeId}
  (h : Mirrors ρ sources t t')

include h

/-- The next scope gets corresponding numbers in both trees. -/
theorem nextId : ρ.scopes.scope t.nextId = t'.nextId :=
  congrArg ScopeId.mk (Pairing.apply_next h.left_le h.size)

/-- Sources are added, and those that are bound stay. -/
theorem grows (hg : sources.Grows sources') : Mirrors ρ sources' t t' :=
  ⟨h.left_le, h.size, h.nested, h.nested', h.scope, h.role,
    fun id scope b hid hs hb => (h.bound id scope b hid hs hb).grows hg⟩

/-- Of corresponding scopes, one without an answer leaves the search to the scope that both lie in. That
    one lies further out, even if there is a WITH item between. -/
theorem firstAlong_around {α : Type} {ask : ScopeId → Scope → Except Fault (Option α)}
    {scope around : Scope} {parent : ScopeId} (hs : t.get? id = some scope)
    (hnone : ask id scope = .ok none)
    (hskip : ∀ {between hidden item name} {b : Binding}, b ∈ scope.bindings → b.names = [name] →
      hidden.role = .withItem item name → hidden.bindings = [] → ask between hidden = .ok none)
    (hparent : scope.parent = some parent ∨ t.Covers ρ.scopes scope parent)
    (haround : t.get? parent = some around) :
    t.firstAlong ask (t.chain id) = t.firstAlong ask (t.chain parent) ∧ around.depth < scope.depth := by
  rcases hparent with hparent | ⟨between, hidden, item, name, b, hup, -, hbetween, hitem, hempty, hparent,
    hb, hname⟩
  · obtain ⟨found, hfound, hdepth⟩ := h.nested id scope parent hs hparent
    obtain rfl := Option.some.inj (haround.symm.trans hfound)
    exact ⟨h.nested.firstAlong_chain_of_none hs hparent hnone, by omega⟩
  · obtain ⟨found, hfound, hdepth⟩ := h.nested id scope between hs hup
    obtain rfl := Option.some.inj (hbetween.symm.trans hfound)
    obtain ⟨found, hfound, hdepth'⟩ := h.nested between hidden parent hbetween hparent
    obtain rfl := Option.some.inj (haround.symm.trans hfound)
    refine ⟨?_, by omega⟩
    rw [h.nested.firstAlong_chain_of_none hs hup hnone,
      h.nested.firstAlong_chain_of_none hbetween hparent (hskip hb hname hitem hempty)]

/-- What corresponding scopes answer alike is found alike along them, unless only the further tables of
    the second catalog have an answer. -/
theorem firstAlong {α β : Type} {g : α → β} {K : α → Prop} {X : β → Prop}
    {ask : ScopeId → Scope → Except Fault (Option α)} {ask' : ScopeId → Scope → Except Fault (Option β)}
    (hask : ∀ id scope scope', t.Visible ρ.scopes id → t.get? id = some scope →
      t'.get? (ρ.scopes.scope id) = some scope' → scope'.role = scope.role →
        t.Around ρ id scope scope' → (ask' (ρ.scopes.scope id) scope' =
          (ask id scope).map (Option.map g) ∨ scope.parent = none ∧
            AnswersOrMore g X (ask id scope) (ask' (ρ.scopes.scope id) scope')) ∧
          ∀ a, ask id scope = .ok (some a) → K a)
    (hskip : ∀ {id scope between hidden item name} {b : Binding}, ask id scope = .ok none →
      b ∈ scope.bindings → b.names = [name] → hidden.role = .withItem item name →
        hidden.bindings = [] → ask between hidden = .ok none)
    (hid : t.Visible ρ.scopes id) :
    AnswersOrMore g X (t.firstAlong ask (t.chain id))
        (t'.firstAlong ask' (t'.chain (ρ.scopes.scope id))) ∧
      ∀ a, t.firstAlong ask (t.chain id) = .ok (some a) → K a := by
  obtain ⟨scope, hs⟩ := hid.exists_scope
  -- The induction is on the number of scopes around it.
  induction hdepth : scope.depth using Nat.strong_induction_on generalizing id scope with
  | _ depth ih =>
    subst hdepth
    obtain ⟨scope', hs', hrole, haround⟩ := h.scope id scope hid hs
    obtain ⟨hanswer, hK⟩ := hask id scope scope' hid hs hs' hrole haround
    cases haround with
    | root hold hcatalog hparent hparent' hbindings =>
      rw [firstAlong_chain_of_root ask hs hparent, firstAlong_chain_of_root ask' hs' hparent']
      exact ⟨hanswer.elim .inl And.right, hK⟩
    | @inner parent hparent hvisible hparent' hbindings =>
      have heq : ask' (ρ.scopes.scope id) scope' = (ask id scope).map (Option.map g) := by
        refine hanswer.resolve_right fun ⟨hroot, _⟩ => ?_
        rcases hparent with hparent | ⟨_, _, _, _, _, hparent, -⟩ <;>
          · rw [hroot] at hparent
            cases hparent
      by_cases hnone : ask id scope = .ok none
      · obtain ⟨around, haround⟩ := hvisible.exists_scope
        obtain ⟨hrest, hlt⟩ := h.firstAlong_around hs hnone (hskip hnone) hparent haround
        have hnone' : ask' (ρ.scopes.scope id) scope' = .ok none := by rw [heq, hnone]; rfl
        rw [hrest, h.nested'.firstAlong_chain_of_none hs' hparent' hnone']
        exact ih _ hlt hvisible around haround rfl
      · have hsome : ask' (ρ.scopes.scope id) scope' ≠ .ok none := heq ▸ map_ne_ok_none hnone
        rw [firstAlong_chain_of_answer hs hnone, firstAlong_chain_of_answer hs' hsome]
        exact ⟨.inl heq, hK⟩

/-! ### Scopes that are added -/

/-- A scope is added below corresponding parents. -/
theorem newScope {parent : ScopeId} (hparent : t.Visible ρ.scopes parent) {role : ScopeRole}
    (hrole : role.ShowsOnly ρ.items) (node : Option NodeId) :
    ∃ id u u', t.newScope parent role node = .ok (id, u) ∧
      t'.newScope (ρ.scopes.scope parent) role node = .ok (ρ.scopes.scope id, u') ∧
        Mirrors ρ sources u u' ∧ ρ.scopes.left ≤ id.index := by
  obtain ⟨around, haround⟩ := hparent.exists_scope
  obtain ⟨around', haround', -⟩ := h.scope parent around hparent haround
  obtain ⟨u, hnew⟩ := exists_newScope hparent.lt_size role node
  obtain ⟨u', hnew'⟩ := exists_newScope (lt_size_of_get? haround') role node
  obtain ⟨-, old, hold, hget⟩ := get?_newScope hnew
  obtain ⟨-, old', hold', hget'⟩ := get?_newScope hnew'
  obtain rfl := Option.some.inj (haround.symm.trans hold)
  obtain rfl := Option.some.inj (haround'.symm.trans hold')
  have hnext : ρ.scopes.Knows t.nextId.index := .inr h.left_le
  have hbefore : ∀ x, u.Visible ρ.scopes x → x ≠ t.nextId → t.Visible ρ.scopes x := by
    rintro ⟨i⟩ hx hne
    refine ⟨hx.known, ?_⟩
    have hlt : i < t.size + 1 := size_newScope hnew ▸ hx.lt_size
    have hne : i ≠ t.size := fun heq => hne (congrArg ScopeId.mk heq)
    show i < t.size
    omega
  refine ⟨t.nextId, u, u', hnew, by rw [h.nextId]; exact hnew', ?_, h.left_le⟩
  refine ⟨?_, ?_, h.nested.newScope hnew, h.nested'.newScope hnew', fun x scope hx hs => ?_,
    fun x scope hx hs => ?_, fun x scope b hx hs hb => ?_⟩
  · have := h.left_le
    rw [size_newScope hnew]
    omega
  · have := h.size
    rw [size_newScope hnew, size_newScope hnew']
    omega
  · rw [hget] at hs
    by_cases heq : x = t.nextId
    · subst heq
      rw [if_pos rfl] at hs
      cases hs
      refine ⟨⟨some (ρ.scopes.scope parent), role, node, [], around'.depth + 1⟩, ?_, rfl,
        .inner (.inl rfl) (hparent.mono (by rw [size_newScope hnew]; omega)) rfl rfl⟩
      rw [hget', ← h.nextId, if_pos rfl]
    · rw [if_neg heq] at hs
      have hx := hbefore x hx heq
      obtain ⟨scope', hs', hrole', haround⟩ := h.scope x scope hx hs
      refine ⟨scope', ?_, hrole', haround.newScope hnew⟩
      rw [hget', ← h.nextId, if_neg fun hsame => heq ((Pairing.scope_inj hx.known hnext).mp hsame)]
      exact hs'
  · rw [hget] at hs
    split at hs
    · cases hs
      exact hrole
    · rename_i hne
      exact h.role x scope (hbefore x hx hne) hs
  · rw [hget] at hs
    split at hs
    · cases hs
      cases hb
    · rename_i hne
      exact h.bound x scope b (hbefore x hx hne) hs hb

/-- A name is bound to corresponding sources in corresponding scopes below the catalog. -/
theorem addBinding (hid : t.Visible ρ.scopes id) (hinner : ρ.more = [] ∨ ρ.scopes.left ≤ id.index)
    {b : Binding} (hb : sources.Holds ρ.sources b.source) :
    ∃ u u', t.addBinding id b = .ok u ∧
      t'.addBinding (ρ.scopes.scope id) (b.renumber ρ) = .ok u' ∧ Mirrors ρ sources u u' ∧
        u.size = t.size := by
  obtain ⟨scope, hs⟩ := hid.exists_scope
  obtain ⟨scope', hs', -⟩ := h.scope id scope hid hs
  obtain ⟨u, hadd⟩ : ∃ u, t.addBinding id b = .ok u := ⟨_, if_pos hid.lt_size⟩
  obtain ⟨u', hadd'⟩ : ∃ u', t'.addBinding (ρ.scopes.scope id) (b.renumber ρ) = .ok u' :=
    ⟨_, if_pos (Array.getElem?_eq_some_iff.mp hs').1⟩
  have hbefore : ∀ x, u.Visible ρ.scopes x → t.Visible ρ.scopes x := fun x hx =>
    hx.mono (Nat.le_of_eq (size_addBinding hadd))
  refine ⟨u, u', hadd, hadd', ?_, size_addBinding hadd⟩
  refine ⟨?_, ?_, h.nested.addBinding hadd, h.nested'.addBinding hadd', fun x scope hx hs => ?_,
    fun x scope hx hs => ?_, fun x scope c hx hs hc => ?_⟩
  · rw [size_addBinding hadd]
    exact h.left_le
  · rw [size_addBinding hadd, size_addBinding hadd']
    exact h.size
  · have hx := hbefore x hx
    rw [get?_addBinding hadd] at hs
    simp only [get?_addBinding hadd', Pairing.scope_inj hx.known hid.known]
    by_cases heq : x = id
    · subst heq
      rw [if_pos rfl] at hs ⊢
      obtain ⟨old, hold, rfl⟩ := Option.map_eq_some_iff.mp hs
      obtain ⟨old', hold', hrole, haround⟩ := h.scope x old hx hold
      exact ⟨{ old' with bindings := old'.bindings ++ [b.renumber ρ] }, by rw [hold']; rfl, hrole,
        haround.addBinding_self hid hadd hinner⟩
    · rw [if_neg heq] at hs ⊢
      obtain ⟨scope', hs', hrole, haround⟩ := h.scope x scope hx hs
      exact ⟨scope', hs', hrole, haround.addBinding hid hadd⟩
  · obtain ⟨old, hold, -, hrole, -⟩ := exists_of_get?_addBinding hadd hs
    exact hrole ▸ h.role x old (hbefore x hx) hold
  · obtain ⟨old, hold, -, -, -, hnew⟩ := exists_of_get?_addBinding hadd hs
    rcases hnew c hc with hc | rfl
    · exact h.bound x old c (hbefore x hx) hold hc
    · exact hb

end Mirrors

end ScopeTree

/-! ### Names -/

/-- The same table under other numbers. -/
def TableMatch.renumber (ρ : Renumbering) (found : TableMatch) : TableMatch :=
  { found with source := ρ.sources.source found.source, scope := ρ.scopes.scope found.scope }

/-- The same column under other numbers. -/
def ColumnMatch.renumber (ρ : Renumbering) (found : ColumnMatch) : ColumnMatch :=
  { found with source := ρ.sources.source found.source, scope := ρ.scopes.scope found.scope }

/-- A part of a name matches itself. -/
theorem NameMatching.same_self (caseSensitive : Bool) (part : String) :
    (NameMatching.ofCaseSensitive caseSensitive).same part part = true := by
  cases caseSensitive with
  | true => exact beq_self_eq_true part
  | false => exact Text.sameIgnoringCase_iff.mpr rfl

namespace ScopeTree

/-- The first binding for a name is the corresponding one. -/
theorem leadingBinding?_renumber (m : NameMatching) (names : List String) (start : Nat)
    (bindings : List Binding) :
    leadingBinding? m names start (bindings.map (Binding.renumber ρ)) =
      (leadingBinding? m names start bindings).map fun (i, b) => (i, b.renumber ρ) := by
  induction bindings generalizing start with
  | nil => rfl
  | cons b rest ih =>
    rw [List.map_cons]
    unfold leadingBinding?
    show (if m.leads b.names names then _ else _) = _
    split
    · rfl
    · exact ih (start + 1)

/-- More bindings matter only when none before them leads to the name. -/
theorem leadingBinding?_append (m : NameMatching) (names : List String) (start : Nat)
    (bindings more : List Binding) :
    leadingBinding? m names start (bindings ++ more) =
      (leadingBinding? m names start bindings).or
        (leadingBinding? m names (start + bindings.length) more) := by
  induction bindings generalizing start with
  | nil => simp [leadingBinding?]
  | cons b rest ih =>
    rw [List.cons_append, leadingBinding?, leadingBinding?]
    split
    · rfl
    · rw [ih, List.length_cons, Nat.add_right_comm, Nat.add_assoc]

/-- A scope that binds a one-part name has an answer for it. -/
theorem ne_of_tableIn_eq_none {names : List String} {m : NameMatching} {path : Path}
    {sources : RowSources} {id : ScopeId} {scope : Scope} {b : Binding} {name : String}
    (hsame : m.same name name = true) (hb : b ∈ scope.bindings) (hname : b.names = [name])
    (h : tableIn names m path sources id scope = .ok none) : names ≠ [name] := by
  rintro rfl
  have hleads : m.leads b.names [name] = true := by
    rw [hname]
    simp [NameMatching.leads, hsame]
  exact tableIn_ne_none_of_binding hb hleads path sources h

/-- The scope of a WITH item has nothing under another name. -/
theorem tableIn_of_item {names : List String} {m : NameMatching} {path : Path}
    {sources : RowSources} {id : ScopeId} {scope : Scope} {item : NodeId} {name : String}
    (hrole : scope.role = .withItem item name) (hnone : scope.bindings = []) (hne : names ≠ [name]) :
    tableIn names m path sources id scope = .ok none := by
  rw [tableIn_of_not_shown ((itemMatch_of_withItem hrole).trans (itemNamed_of_ne hne)), hnone]
  rfl

end ScopeTree

namespace ScopeTree.Mirrors

variable {sources sources' : RowSources} {t t' : ScopeTree} {id : ScopeId}
  (h : Mirrors ρ sources t t') (hsources : RowSources.Mirrors ρ.sources ρ.items sources sources')

include h hsources

omit h hsources in
/-- An item is shown under its name alike. -/
theorem itemNamed_renumber (names : List String) (item : NodeId) (name : String)
    {source : Option SourceId} (hholds : ∀ known, source = some known → sources.Holds ρ.sources known) :
    itemNamed names item name (source.map ρ.sources.source) =
        (itemNamed names item name source).map (Option.map ρ.sources.source) ∧
      ∀ found, itemNamed names item name source = .ok (some found) →
        sources.Holds ρ.sources found := by
  refine ⟨?_, fun found hfound => hholds found (itemNamed_eq_some hfound).2⟩
  unfold itemNamed
  split
  · cases source with
    | none => rfl
    | some known => rfl
  · rfl

omit h in
/-- A scope shows corresponding items. -/
theorem itemMatch {scope scope' : Scope} (hsame : scope'.role = scope.role)
    (hrole : scope.role.ShowsOnly ρ.items) (names : List String) :
    ScopeTree.itemMatch scope' names sources' =
        (ScopeTree.itemMatch scope names sources).map (Option.map ρ.sources.source) ∧
      ∀ source, ScopeTree.itemMatch scope names sources = .ok (some source) →
        sources.Holds ρ.sources source := by
  cases hr : scope.role with
  | catalog =>
    rw [itemMatch_of_catalog hr, itemMatch_of_catalog (hsame.trans hr)]
    exact ⟨rfl, nofun⟩
  | block =>
    rw [itemMatch_of_block hr, itemMatch_of_block (hsame.trans hr)]
    exact ⟨rfl, nofun⟩
  | withItem item name =>
    rw [hr] at hrole
    rw [itemMatch_of_withItem hr, itemMatch_of_withItem (hsame.trans hr), (hsources.item item hrole).1]
    exact itemNamed_renumber names item name (hsources.item item hrole).2
  | recursiveItem item name =>
    rw [hr] at hrole
    rw [itemMatch_of_recursiveItem hr, itemMatch_of_recursiveItem (hsame.trans hr),
      (hsources.selfView item hrole).1]
    exact itemNamed_renumber names item name (hsources.selfView item hrole).2

omit h in
/-- The table of the item that a scope shows is the corresponding one. -/
theorem shownTable_renumber (names : List String) (path : Path) (id : ScopeId) {source : SourceId}
    (hsource : sources.Holds ρ.sources source) :
    shownTable names path sources' (ρ.scopes.scope id) (ρ.sources.source source) =
      (shownTable names path sources id source).renumber ρ := by
  simp only [shownTable, TableMatch.renumber, hsources.rowOrEmpty hsource]

omit h in
/-- So are those of the bindings. -/
theorem map_boundTable_renumber (names : List String) (path : Path) (id : ScopeId)
    {leading : Option (Nat × Binding)}
    (hleading : ∀ x, leading = some x → sources.Holds ρ.sources x.2.source) :
    (leading.map fun (i, b) => (i, b.renumber ρ)).map
        (boundTable names path sources' (ρ.scopes.scope id)) =
      (leading.map (boundTable names path sources id)).map (TableMatch.renumber ρ) := by
  cases leading with
  | none => rfl
  | some x =>
    simp only [Option.map_some, boundTable, TableMatch.renumber, Binding.renumber, Binding.name,
      hsources.rowOrEmpty (hleading x rfl)]

/-- Among its bindings a scope finds a table alike, unless only the further tables of the catalog have
    it. -/
theorem leadingBinding?_mirrors {scope scope' : Scope} (hid : t.Visible ρ.scopes id)
    (hs : t.get? id = some scope) (haround : t.Around ρ id scope scope') (names : List String)
    (m : NameMatching) (path : Path) :
    (leadingBinding? m names 0 scope'.bindings).map
          (boundTable names path sources' (ρ.scopes.scope id)) =
        ((leadingBinding? m names 0 scope.bindings).map (boundTable names path sources id)).map
          (TableMatch.renumber ρ) ∨
      scope.parent = none ∧ scope.role = .catalog ∧ ρ.more ≠ [] ∧
        leadingBinding? m names 0 scope.bindings = none ∧
          ∃ leading, leadingBinding? m names 0 scope'.bindings = some leading := by
  have hbound : ∀ leading, leadingBinding? m names 0 scope.bindings = some leading →
      sources.Holds ρ.sources leading.2.source := fun leading hlead =>
    h.bound id scope leading.2 hid hs (Naming.mem_of_leadingBinding? hlead)
  have hsame := map_boundTable_renumber hsources names path id hbound
  cases haround with
  | inner _ _ _ hbindings =>
    rw [hbindings, leadingBinding?_renumber]
    exact .inl hsame
  | root hold hcatalog hparent hparent' hbindings =>
    rw [hbindings, leadingBinding?_append, leadingBinding?_renumber]
    cases hlead : leadingBinding? m names 0 scope.bindings with
    | some leading =>
      rw [hlead] at hsame
      exact .inl hsame
    | none =>
      simp only [Option.map_none, Option.none_or]
      generalize 0 + (scope.bindings.map (Binding.renumber ρ)).length = start
      cases hmore : leadingBinding? m names start ρ.more with
      | none => exact .inl rfl
      | some leading =>
        refine .inr ⟨hparent, hcatalog, fun hnone => ?_, trivial, leading, rfl⟩
        rw [hnone] at hmore
        cases hmore

/-- A table is found alike in corresponding scopes, or only by the further tables. -/
theorem tableIn {scope scope' : Scope} (hid : t.Visible ρ.scopes id) (hs : t.get? id = some scope)
    (hs' : t'.get? (ρ.scopes.scope id) = some scope') (hrole : scope'.role = scope.role)
    (haround : t.Around ρ id scope scope') (names : List String) (m : NameMatching) (path : Path) :
    (ScopeTree.tableIn names m path sources' (ρ.scopes.scope id) scope' =
        (ScopeTree.tableIn names m path sources id scope).map (Option.map (TableMatch.renumber ρ)) ∨
      scope.parent = none ∧ AnswersOrMore (TableMatch.renumber ρ)
        (fun found => ρ.more ≠ [] ∧ ∃ around, t'.get? found.scope = some around ∧
          around.role = .catalog)
        (ScopeTree.tableIn names m path sources id scope)
        (ScopeTree.tableIn names m path sources' (ρ.scopes.scope id) scope')) ∧
      ∀ found, ScopeTree.tableIn names m path sources id scope = .ok (some found) →
        sources.Holds ρ.sources found.source ∧ t.Visible ρ.scopes found.scope := by
  obtain ⟨hitem, hholds⟩ := itemMatch hsources hrole (h.role id scope hid hs) names
  refine ⟨?_, fun found hfound => ?_⟩
  · cases hanswer : ScopeTree.itemMatch scope names sources with
    | error e =>
      rw [hanswer] at hitem
      rw [tableIn_of_error hanswer, tableIn_of_error hitem]
      exact .inl rfl
    | ok answer =>
      rw [hanswer] at hitem
      cases answer with
      | some source =>
        rw [tableIn_of_shown hanswer, tableIn_of_shown hitem,
          shownTable_renumber hsources names path id (hholds source hanswer)]
        exact .inl rfl
      | none =>
        rw [tableIn_of_not_shown hanswer, tableIn_of_not_shown hitem]
        rcases h.leadingBinding?_mirrors hsources hid hs haround names m path with
          heq | ⟨hparent, hcatalog, hmore, hnone, leading, hlead⟩
        · exact .inl (congrArg Except.ok heq)
        · rw [hnone, hlead]
          exact .inr ⟨hparent, .inr ⟨rfl, _, rfl, hmore, scope', hs', hrole.trans hcatalog⟩⟩
  · rcases tableIn_eq_some hfound with ⟨source, hanswer, rfl⟩ | ⟨-, leading, hlead, rfl⟩
    · exact ⟨hholds source hanswer, hid⟩
    · exact ⟨h.bound id scope leading.2 hid hs (Naming.mem_of_leadingBinding? hlead), hid⟩

variable {m : NameMatching} (hm : ∀ part, m.same part part = true)

include hm

/-- A name is looked up alike from corresponding scopes, or only the further tables have it. -/
theorem lookupTable (hid : t.Visible ρ.scopes id) (names : List String) (path : Path) :
    AnswersOrMore (TableMatch.renumber ρ) (fun found => ρ.more ≠ [] ∧
        ∃ around, t'.get? found.scope = some around ∧ around.role = .catalog)
        (t.lookupTable id names m path sources)
        (t'.lookupTable (ρ.scopes.scope id) names m path sources') ∧
      ∀ found, t.lookupTable id names m path sources = .ok (some found) →
        sources.Holds ρ.sources found.source ∧ t.Visible ρ.scopes found.scope :=
  h.firstAlong (fun _ _ _ hx hs hs' hrole haround =>
    h.tableIn hsources hx hs hs' hrole haround names m path)
    (fun hnone hb hname hrole hempty =>
      tableIn_of_item hrole hempty (ne_of_tableIn_eq_none (hm _) hb hname hnone)) hid

/-- What a name stands for corresponds when it stands for something without the further tables. -/
theorem requireTable (hid : t.Visible ρ.scopes id) (names : List String)
    (hfound : ρ.more = [] ∨ t.lookupTable id names m .empty sources ≠ .ok none) :
    t'.requireTable (ρ.scopes.scope id) names m sources' =
        (t.requireTable id names m sources).map (TableMatch.renumber ρ) ∧
      ∀ found, t.requireTable id names m sources = .ok found →
        sources.Holds ρ.sources found.source := by
  obtain ⟨hlookup, hholds⟩ := h.lookupTable hsources hm hid names .empty
  have hlookup : t'.lookupTable (ρ.scopes.scope id) names m .empty sources' =
      (t.lookupTable id names m .empty sources).map (Option.map (TableMatch.renumber ρ)) := by
    rcases hlookup with heq | ⟨hnone, _, _, hmore, -⟩
    · exact heq
    · exact (hfound.elim hmore (· hnone)).elim
  refine ⟨?_, fun found hok => (hholds found (requireTable_eq_ok_iff.mp hok)).1⟩
  unfold ScopeTree.requireTable
  rw [hlookup]
  match t.lookupTable id names m .empty sources with
  | .error e => rfl
  | .ok none => rfl
  | .ok (some found) => rfl

omit h hm in
/-- The columns that bindings have under a name. -/
theorem filterMap_columnOf (id : ScopeId) (name : String) {bindings : List Binding}
    (hbound : ∀ b ∈ bindings, sources.Holds ρ.sources b.source) :
    (bindings.map (Binding.renumber ρ)).filterMap
        (columnOf name m sources' (ρ.scopes.scope id)) =
      (bindings.filterMap (columnOf name m sources id)).map (ColumnMatch.renumber ρ) := by
  rw [List.filterMap_map, List.map_filterMap]
  refine List.filterMap_congr fun b hb => ?_
  show columnOf name m sources' (ρ.scopes.scope id) (b.renumber ρ) = _
  unfold columnOf
  have hrow : sources'.row? (b.renumber ρ).source = sources.row? b.source :=
    hsources.row? (hbound b hb)
  rw [hrow, Option.map_map]
  rfl

omit hm in
/-- A column is looked up alike from corresponding scopes. -/
theorem lookupColumn (hid : t.Visible ρ.scopes id) (name : String) (m : NameMatching) :
    t'.lookupColumn (ρ.scopes.scope id) name m sources' =
      (t.lookupColumn id name m sources).map (Option.map (ColumnMatch.renumber ρ)) := by
  have hcolumns : ∀ x scope scope', t.Visible ρ.scopes x → t.get? x = some scope →
      t'.get? (ρ.scopes.scope x) = some scope' → scope'.role = scope.role →
        t.Around ρ x scope scope' → columnIn name m sources' (ρ.scopes.scope x) scope' =
          (columnIn name m sources x scope).map (Option.map (ColumnMatch.renumber ρ)) := by
    intro x scope scope' hx hs hs' hrole haround
    unfold columnIn
    rw [hrole]
    by_cases hcatalog : scope.role = .catalog
    · rw [if_pos hcatalog, if_pos hcatalog]
      rfl
    · rw [if_neg hcatalog, if_neg hcatalog]
      cases haround with
      | root _ hrole => exact absurd hrole hcatalog
      | inner _ _ _ hbindings =>
        rw [hbindings, filterMap_columnOf hsources x name fun b hb => h.bound x scope b hx hs hb]
        match scope.bindings.filterMap (columnOf name m sources x) with
        | [] => rfl
        | [_] => rfl
        | _ :: _ :: _ => rfl
  obtain ⟨heq | ⟨_, _, _, hfalse⟩, -⟩ := h.firstAlong (K := fun _ => True) (X := fun _ => False)
    (fun x scope scope' hx hs hs' hrole haround =>
      ⟨.inl (hcolumns x scope scope' hx hs hs' hrole haround), fun _ _ => trivial⟩)
    (fun {id scope between hidden item name' b} _ _ _ hrole hempty => by
      unfold columnIn
      rw [hrole, if_neg nofun, hempty]
      rfl) hid
  · exact heq
  · exact hfalse.elim

end ScopeTree.Mirrors

end SqlTyping
