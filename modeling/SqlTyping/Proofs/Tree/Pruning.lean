import SqlTyping.Proofs.Tree.Ranks

namespace SqlTyping

/-!
# Trees among other nodes

The nodes below one node may form a tree although others of the same statement do not:

* `Tree.IsTreeAt` — the nodes below a node form a tree;
* `Tree.prune` — a statement from which everything but a part is cut;
* `Tree.IsTreeAt.isForest_prune` — when the rest is cut, a tree is a forest;
* `Tree.IsTreeAt.siblings_apart` — so no node of a tree lies below two children of one.
-/

namespace Tree

/-- The nodes below `root` form a tree: no node lies below itself, and none has two parents or is listed
    twice by one. Nothing is said about other nodes. -/
structure IsTreeAt (t : Tree) (root : NodeId) : Prop where
  acyclic : ∀ id, Relation.ReflTransGen t.Child root id → ¬ Relation.TransGen t.Child id id
  nodup : ∀ p node, Relation.ReflTransGen t.Child root p → t.node? p = some node → node.children.Nodup
  unique : ∀ p q x, Relation.ReflTransGen t.Child root p → Relation.ReflTransGen t.Child root q →
    t.Child p x → t.Child q x → p = q

/-- Every part of a forest is a tree. -/
theorem IsForest.isTreeAt {t : Tree} (h : t.IsForest) (root : NodeId) : t.IsTreeAt root where
  acyclic id _ := h.acyclic id
  nodup _ _ _ hn := h.nodup_children hn
  unique _ _ _ _ _ hp hq := h.parent_unique hp hq

open Classical in
/-- The tree with placeholders instead of nodes that do not belong to `own`. -/
noncomputable def prune (t : Tree) (own : NodeId → Prop) : Tree :=
  ⟨t.entries.mapIdx fun i e => if own ⟨i⟩ then e else { e with node := .default }⟩

section

variable {t : Tree} {own : NodeId → Prop} {id p x root : NodeId} {node : Node}

@[simp] theorem size_prune (t : Tree) (own : NodeId → Prop) : (t.prune own).size = t.size := by
  simp [prune, size]

theorem node?_prune (h : own id) : (t.prune own).node? id = t.node? id := by
  have h : own ⟨id.index⟩ := h
  simp [prune, node?, h]

/-- A node with children is one that has not been cut. -/
theorem own_of_node?_prune (hn : (t.prune own).node? id = some node) (hc : x ∈ node.children) :
    own id ∧ t.node? id = some node := by
  by_cases hid : own id
  · exact ⟨hid, (node?_prune hid).symm.trans hn⟩
  · have hid' : ¬ own ⟨id.index⟩ := hid
    simp only [prune, node?, Array.getElem?_mapIdx, hid', if_false, Option.map_map,
      Option.map_eq_some_iff] at hn
    obtain ⟨e, -, rfl⟩ := hn
    cases hc

theorem child_prune : (t.prune own).Child p x ↔ own p ∧ t.Child p x := by
  constructor
  · rintro ⟨node, hn, hc⟩
    obtain ⟨hp, hn⟩ := own_of_node?_prune hn hc
    exact ⟨hp, node, hn, hc⟩
  · rintro ⟨hp, node, hn, hc⟩
    exact ⟨node, (node?_prune hp).trans hn, hc⟩

/-- What lies below a node of the part is what lay below it. -/
theorem reach_prune (hown : t.IsClosed own) (hp : own p) :
    Relation.ReflTransGen (t.prune own).Child p x ↔ Relation.ReflTransGen t.Child p x := by
  constructor
  · exact Relation.ReflTransGen.mono (fun _ _ h => (child_prune.mp h).2) _ _
  · intro h
    suffices own x ∧ Relation.ReflTransGen (t.prune own).Child p x from this.2
    induction h with
    | refl => exact ⟨hp, .refl⟩
    | tail _ hc ih => exact ⟨hown.child _ _ ih.1 hc, ih.2.tail (child_prune.mpr ⟨ih.1, hc⟩)⟩

/-- When everything but a tree is cut, the statement is a forest. -/
theorem IsTreeAt.isForest_prune (h : t.IsTreeAt root)
    (hown : t.IsClosed (Relation.ReflTransGen t.Child root)) :
    (t.prune (Relation.ReflTransGen t.Child root)).IsForest where
  closed id node hn c hc := by
    obtain ⟨hid, hn⟩ := own_of_node?_prune hn hc
    rw [isSome_node?_iff, size_prune]
    exact hown.lt_size c (hown.child id c hid ⟨node, hn, hc⟩)
  once := by
    have hentry : ∀ i (hi : i < (t.prune (Relation.ReflTransGen t.Child root)).entries.toList.length),
        (t.prune (Relation.ReflTransGen t.Child root)).node? ⟨i⟩ =
          some (t.prune (Relation.ReflTransGen t.Child root)).entries.toList[i].node := by
      intro i hi
      unfold node?
      rw [Array.getElem?_eq_getElem (by simpa using hi)]
      simp
    refine List.nodup_flatMap.mpr ⟨fun e he => ?_, ?_⟩
    · obtain ⟨i, hi, rfl⟩ := List.getElem_of_mem he
      cases hchildren : (t.prune (Relation.ReflTransGen t.Child root)).entries.toList[i].node.children with
      | nil => exact List.nodup_nil
      | cons c rest =>
        obtain ⟨hid, hn⟩ := own_of_node?_prune (x := c) (hentry i hi)
          (hchildren ▸ List.mem_cons_self ..)
        rw [← hchildren]
        exact h.nodup _ _ hid hn
    · rw [List.pairwise_iff_getElem]
      intro i j hi hj hlt
      refine List.disjoint_left.mpr fun x hx hy => ?_
      obtain ⟨hp, hn⟩ := own_of_node?_prune (hentry i hi) hx
      obtain ⟨hq, hn'⟩ := own_of_node?_prune (hentry j hj) hy
      have hsame := h.unique _ _ x hp hq ⟨_, hn, hx⟩ ⟨_, hn', hy⟩
      have := congrArg NodeId.index hsame
      simp only at this
      omega
  acyclic id hloop := by
    obtain ⟨c, hc, -⟩ := Relation.TransGen.head'_iff.mp hloop
    exact h.acyclic id (child_prune.mp hc).1
      (Relation.TransGen.mono (fun _ _ h => (child_prune.mp h).2) _ _ hloop)

/-- No node of the tree lies below two different children of a node of the tree. -/
theorem IsTreeAt.siblings_apart {y z : NodeId} (h : t.IsTreeAt root)
    (hown : t.IsClosed (Relation.ReflTransGen t.Child root)) (hp : Relation.ReflTransGen t.Child root p)
    (hx : t.Child p x) (hy : t.Child p y) (hne : x ≠ y) (hxz : Relation.ReflTransGen t.Child x z) :
    ¬ Relation.ReflTransGen t.Child y z := by
  rw [← reach_prune hown (hp.tail hy)]
  rw [← reach_prune hown (hp.tail hx)] at hxz
  exact (h.isForest_prune hown).siblings_apart (child_prune.mpr ⟨hp, hx⟩) (child_prune.mpr ⟨hp, hy⟩) hne hxz

end

end Tree

end SqlTyping
