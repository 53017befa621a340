import SqlTyping.Proofs.Session.Rewriting
import SqlTyping.Proofs.Signature.Fitting
import SqlTyping.Proofs.Signature.Positions
import SqlTyping.Proofs.Tree.Forest

namespace SqlTyping

/-!
# What a part of a validation may change

Validating a part of a statement gives types to nodes of that part, and inserts casts below it. Which
calls still have legal operands afterwards is decided by which nodes were touched:

* `Session.Fits` — the operands of a call are legal for one list of families of its operator;
* `Session.FitsBelow` — this holds of all calls below a node that have a type;
* `Session.Continues` — a later moment of a validation that began with a given session;
* `Session.Within` — between two moments only given nodes have got types or other operands;
* `Session.FitsBelow.within` — calls below a node still fit when those touched do;
* `Visit.Sound` — parts are validated so that, with a result, their calls fit.
-/

namespace Session

/-- Whether a node is the NULL literal. -/
def isNull (s : Session) (id : NodeId) : Bool := (s.tree.node? id).any Node.isNullLiteral

/-- Whether a node is a placeholder for an omitted operand. -/
def isDefault (s : Session) (id : NodeId) : Bool := (s.tree.node? id).any Node.isDefault

/-- The operands of a call are legal for a leaf of its operator's signature, one that has a position
    for each operand the call shows, placeholders included. -/
def Fits (s : Session) (name : String) (operands : List NodeId) : Prop :=
  ∃ op positions omittable, s.operators.lookup? name = some op ∧
    .families positions omittable ∈ op.signature.leaves ∧
    positions.length = op.signature.shownCount operands.length ∧
    ∀ index operand, operands[index]? = some operand → ∃ family, positions[index]? = some family ∧
      Legal s.settings.coercion (omittable index) (s.isDefault operand) (s.isNull operand)
        (fun type => s.types.get? operand = some type) family

/-- A validation that began with the session `b` has come to the session `s`. -/
structure Continues (b s : Session) : Prop where
  rewrites : s.Rewrites b.tree
  operators : s.operators = b.operators
  engine : s.engine = b.engine
  settings : s.settings = b.settings
  recorded : ∀ id, (s.types.get? id).isSome = true → id.index < s.tree.size

/-- The nodes that validation gets to from `p`, in the statement as it was in `b`. -/
abbrev Below (b : Session) (p x : NodeId) : Prop := b.tree.Below b.operators p x

/-- The same without `p` itself. -/
abbrev StrictlyBelow (b : Session) (p x : NodeId) : Prop := b.tree.StrictlyBelow b.operators p x

/-- From `s` to `s'` types are found only for nodes `retyped` of the statement as it was in `b`, and
    for casts around them; and only the nodes `rewritten` get other operands. -/
structure Within (b : Session) (retyped rewritten : NodeId → Prop) (s s' : Session) : Prop where
  continues : b.Continues s'
  added : Tree.KeepsAdded b.tree s.tree s'.tree
  node? : ∀ id, id.index < b.tree.size → ¬ rewritten id → s'.tree.node? id = s.tree.node? id
  types : ∀ a id, a.index < b.tree.size → ¬ retyped a → Tree.Wraps b.tree s.tree a id →
    s'.types.get? id = s.types.get? id

/-- All calls with a type below a node have legal operands. -/
def FitsBelow (b s : Session) (id : NodeId) : Prop :=
  ∀ call name operands, b.Below id call → s.tree.node? call = some (.call name operands) →
    (s.types.get? call).isSome = true → s.Fits name operands

variable {b s s' s'' : Session} {retyped rewritten retyped' rewritten' : NodeId → Prop}

theorem Continues.refl (hclosed : b.tree.NoDangling)
    (h : ∀ id, (b.types.get? id).isSome = true → id.index < b.tree.size) : b.Continues b :=
  ⟨⟨.refl _, hclosed⟩, rfl, rfl, rfl, h⟩

/-- An original node is a call as long as it was one. -/
theorem Continues.any_node? {id : NodeId} {node : Node} (h : b.Continues s)
    (hn : b.tree.node? id = some node) {g : Node → Bool}
    (hg : ∀ name operands, g (.call name operands) = false) :
    (s.tree.node? id).any g = g node := by
  cases node with
  | call name operands =>
    obtain ⟨current, hc, -⟩ := h.rewrites.rewritten.call id name operands hn
    simp [hc, hg]
  | _ => simp [h.rewrites.rewritten.other id _ hn rfl]

namespace Within

theorem refl (h : b.Continues s) : b.Within retyped rewritten s s :=
  ⟨h, .refl _ _, fun _ _ _ => rfl, fun _ _ _ _ _ => rfl⟩

theorem trans (h : b.Within retyped rewritten s s') (h' : b.Within retyped rewritten s' s'') :
    b.Within retyped rewritten s s'' where
  continues := h'.continues
  added := h.added.trans h'.added
  node? id hid hr := (h'.node? id hid hr).trans (h.node? id hid hr)
  types a id ha hr hw :=
    (h'.types a id ha hr (hw.mono h.added)).trans (h.types a id ha hr hw)

theorem mono (h : b.Within retyped rewritten s s') (ht : ∀ id, retyped id → retyped' id)
    (hr : ∀ id, rewritten id → rewritten' id) : b.Within retyped' rewritten' s s' where
  continues := h.continues
  added := h.added
  node? id hid hnot := h.node? id hid fun hid' => hnot (hr id hid')
  types a id ha hnot := h.types a id ha fun ha' => hnot (ht a ha')

/-- Whether a node is the NULL literal or a placeholder never changes. -/
theorem any_node? {id : NodeId} {g : Node → Bool} (h : b.Within retyped rewritten s s')
    (hs : b.Continues s) (hid : id.index < s.tree.size)
    (hg : ∀ name operands, g (.call name operands) = false) :
    (s'.tree.node? id).any g = (s.tree.node? id).any g := by
  by_cases hold : id.index < b.tree.size
  · obtain ⟨node, hn⟩ := Option.isSome_iff_exists.mp (Tree.isSome_node?_iff.mpr hold)
    rw [hs.any_node? hn hg, h.continues.any_node? hn hg]
  · rw [h.added.node? id (by omega) hid]

theorem isNull_eq {id : NodeId} (h : b.Within retyped rewritten s s') (hs : b.Continues s)
    (hid : id.index < s.tree.size) : s'.isNull id = s.isNull id :=
  h.any_node? hs hid fun _ _ => rfl

theorem isDefault_eq {id : NodeId} (h : b.Within retyped rewritten s s') (hs : b.Continues s)
    (hid : id.index < s.tree.size) : s'.isDefault id = s.isDefault id :=
  h.any_node? hs hid fun _ _ => rfl

end Within

/-! ### Calls that still fit -/

section

variable (hforest : b.tree.IsForest)

include hforest

/-- A call fits as before when the types of the operands it looks at are as before. -/
theorem Fits.within {call : NodeId} {name : String} {operands : List NodeId}
    (h : s.Fits name operands) (hs : b.Continues s) (hw : b.Within retyped rewritten s s')
    (hcall : s.tree.node? call = some (.call name operands))
    (hoperand : ∀ a, b.tree.Visits b.operators call a → ¬ retyped a) :
    s'.Fits name operands := by
  obtain ⟨op, positions, omittable, hop, hleaf, hlength, hlegal⟩ := h
  rw [hs.operators] at hop
  refine ⟨op, positions, omittable, by rw [hw.continues.operators, hop], hleaf, hlength, ?_⟩
  intro index operand hget
  obtain ⟨family, hfamily, hfits⟩ := hlegal index operand hget
  refine ⟨family, hfamily, ?_⟩
  by_cases hkey : op.signature.isKeyword index = true
  -- A keyword is legal without a look.
  · obtain ⟨hi, -⟩ := List.getElem?_eq_some_iff.mp hfamily
    rw [Signature.ignore_of_isKeyword hkey hleaf hi] at hfamily
    cases hfamily
    exact .unchecked
  · obtain ⟨written, hwritten, hwraps⟩ := hs.rewrites.rewritten.call_of_call hcall
    obtain ⟨hi, rfl⟩ := List.getElem?_eq_some_iff.mp hget
    have hi' : index < written.length := by
      rw [hwraps.length_eq]
      exact hi
    have hvisits : b.tree.Visits b.operators call written[index] :=
      ⟨_, hwritten, OperatorTable.mem_visitedOperands hop (by simpa using hkey)
        (List.getElem?_eq_getElem hi')⟩
    have hsize : operands[index].index < s.tree.size :=
      Tree.isSome_node?_iff.mp (hs.rewrites.closed call _ hcall _ (List.getElem_mem hi))
    have htypes := hw.types _ _ (hforest.lt_size_of_child hvisits.child) (hoperand _ hvisits)
      (hwraps.get hi' hi)
    simp only [List.get_eq_getElem] at htypes
    rw [hw.isNull_eq hs hsize, hw.isDefault_eq hs hsize, htypes, hw.continues.settings,
      ← hs.settings]
    exact hfits

/-- Calls below a node still fit when those that were touched fit, and no other call has an operand
    that was touched. -/
theorem FitsBelow.within {id : NodeId} (h : b.FitsBelow s id) (hs : b.Continues s)
    (hw : b.Within retyped rewritten s s')
    (htouched : ∀ call name operands, b.Below id call → retyped call ∨ rewritten call →
      s'.tree.node? call = some (.call name operands) → (s'.types.get? call).isSome = true →
        s'.Fits name operands)
    (hoperand : ∀ call name operands a, b.Below id call → ¬ retyped call → ¬ rewritten call →
      b.tree.node? call = some (.call name operands) → b.tree.Visits b.operators call a →
        ¬ retyped a) : b.FitsBelow s' id := by
  intro call name operands hbelow hcall htype
  by_cases ht : retyped call ∨ rewritten call
  · exact htouched call name operands hbelow ht hcall htype
  obtain ⟨ht, hr⟩ := not_or.mp ht
  obtain ⟨written, hwritten, -⟩ := hw.continues.rewrites.rewritten.call_of_call hcall
  have hold := Tree.lt_size_of_node? hwritten
  rw [hw.node? call hold hr] at hcall
  rw [hw.types call call hold ht .self] at htype
  exact (h call name operands hbelow hcall htype).within hforest hs hw hcall
    fun a => hoperand call name written a hbelow ht hr hwritten

/-- Calls below a node fit after a part has been validated so that its own calls fit, unless the part
    is an operand of one of them. -/
theorem FitsBelow.visited {id part : NodeId} (h : b.FitsBelow s id) (hs : b.Continues s)
    (hw : b.Within (b.Below part) (b.Below part) s s') (hpart : b.FitsBelow s' part)
    (hparent : ∀ call name operands, b.Below id call →
      b.tree.node? call = some (.call name operands) → ¬ b.tree.Child call part) :
    b.FitsBelow s' id := by
  refine h.within hforest hs hw ?_ ?_
  · intro call name operands _ ht hcall htype
    exact hpart call name operands (ht.elim (fun h => h) fun h => h) hcall htype
  · intro call name operands a hbelow hnot _ hcall hvisits ha
    refine hnot ?_
    by_cases hne : part = a
    · exact absurd (hne ▸ hvisits.child) (hparent call name operands hbelow hcall)
    · rcases Relation.ReflTransGen.cases_tail ha with rfl | ⟨p, hp, hpa⟩
      · exact absurd rfl hne
      · rwa [hforest.parent_unique hvisits.child hpa.child]

/-- Calls below an operand fit after another operand has been validated, whatever comes of it. -/
theorem FitsBelow.apart {p id part : NodeId} (h : b.FitsBelow s id) (hs : b.Continues s)
    (hw : b.Within (b.Below part) (b.Below part) s s') (hid : b.tree.Child p id)
    (hpart : b.tree.Child p part) (hne : id ≠ part) : b.FitsBelow s' id := by
  refine h.within hforest hs hw ?_ ?_
  · intro call _ _ hbelow ht
    exact absurd (ht.elim (fun h => h) fun h => h).child
      (hforest.siblings_apart hid hpart hne hbelow.child)
  · intro call _ _ a hbelow _ _ _ hvisits ha
    exact hforest.siblings_apart hid hpart hne (Tree.Below.child (hbelow.tail hvisits)) ha.child

end

end Session

/-- What the validation of a part comes to. Whatever its outcome, it stays within the part. With a
    result all calls of the part that have a type fit, and an expression has its type; a refused
    expression has not got one. A placeholder changes nothing of the statement. -/
structure Visit.Sound (b : Session) (v : Visit) : Prop where
  query : ∀ (scope : ScopeId) {id s}, b.Continues s → id.index < b.tree.size →
    (v.query scope id).Ends (· = s)
      (fun _ s' => b.Within (b.Below id) (b.Below id) s s' ∧ b.FitsBelow s' id)
      (fun s' => b.Within (b.Below id) (b.Below id) s s')
  expression : ∀ (scope : ScopeId) {id a s}, b.Continues s → a.index < b.tree.size →
    Tree.Wraps b.tree s.tree a id → (v.expression scope id).Ends (· = s)
      (fun type s' => b.Within (b.Below a) (b.Below a) s s' ∧ b.FitsBelow s' a ∧
        s'.types.get? id = some type)
      (fun s' => b.Within (b.Below a) (b.Below a) s s' ∧ s'.types.get? id = s.types.get? id)
  placeholder : ∀ (scope : ScopeId) {id s}, b.Continues s → b.tree.size ≤ id.index →
    s.tree.node? id = some .default →
      b.Within (fun _ => False) (fun _ => False) s (v.expression scope id s).2

end SqlTyping
