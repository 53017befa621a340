import SqlTyping.Proofs.Session.Anchors

namespace SqlTyping

/-!
# References to recursive WITH items

A session lists the FROM entries that stand for a recursive WITH item inside its own body. How often
an entry is listed is a matter of scopes:

* `Session.Named.count_selfReferences` — an entry is listed once for every scope that binds it to the
  item;
* `Session.Named.selfBound_iff` — a scope does so exactly when the entry stands for the item there;
* `Session.selfReferences_tally` — so it is in every run on every catalog, whatever becomes of it;
* `Session.selfReferences_repeated` — an entry inside a first input is listed twice: its SELECT has
  two scopes, as the first input is validated twice.
-/

/-- Lists without repetitions are put together: an element comes as often as there are lists that
    have it. -/
theorem count_flatMap_of_nodup {α β : Type} [BEq β] [LawfulBEq β] {f : α → List β} {l : List α}
    (h : ∀ a ∈ l, (f a).Nodup) (b : β) :
    (l.flatMap f).count b = l.countP fun a => (f a).contains b := by
  induction l with
  | nil => rfl
  | cons a rest ih =>
    have hrest := ih fun c hc => h c (List.mem_cons_of_mem _ hc)
    have hfirst := h a (List.mem_cons_self ..)
    rw [List.flatMap_cons, List.count_append, List.countP_cons, hrest]
    by_cases hb : b ∈ f a
    · rw [List.count_eq_one_of_mem hfirst hb]
      simp [hb, Nat.add_comm]
    · rw [List.count_eq_zero_of_not_mem hb]
      simp [hb]

theorem map_fst_zip_sublist {α β : Type} (l : List α) (m : List β) :
    ((l.zip m).map (·.1)).Sublist l := by
  induction l generalizing m with
  | nil => exact List.Sublist.refl _
  | cons a rest ih =>
    cases m with
    | nil => exact List.nil_sublist _
    | cons b more => exact (ih more).cons_cons a

namespace Naming

variable {n : Naming}

/-- The entries of a FROM list are different nodes. -/
theorem nodup_sourcesOf (hforest : n.tree.IsForest) (select : NodeId) :
    (n.sourcesOf select).Nodup := by
  unfold sourcesOf
  split
  · rename_i block hselect
    have hchildren := hforest.nodup_children hselect
    exact (List.nodup_append.mp (List.nodup_append.mp hchildren).1).2.1
  · exact List.nodup_nil

/-- A scope binds an entry once. -/
theorem nodup_boundIn (hforest : n.tree.IsForest) (scope : Scope) :
    ((n.boundIn scope).map (·.1)).Nodup := by
  unfold boundIn
  split
  · rename_i select hframe
    exact (nodup_sourcesOf hforest select).sublist (map_fst_zip_sublist _ _)
  · exact List.nodup_nil

end Naming

namespace Session.Named

variable {n : Naming} {s : Session}

/-- An entry is listed for a source once for every scope that binds it to the source, when that is a
    recursive item itself. -/
theorem count_selfReferences (h : s.Named n) (hforest : n.tree.IsForest) (x : NodeId × SourceId) :
    s.selfReferences.count x =
      s.scopes.scopes.toList.countP fun scope => (n.selfBoundIn s.sources scope).contains x := by
  rw [h.tally.count_eq]
  refine count_flatMap_of_nodup (fun scope _ => ?_) x
  exact ((n.nodup_boundIn hforest scope).of_map _).filter _

/-- An entry is listed once for every scope that binds it to some recursive item itself. -/
theorem count_listed (h : s.Named n) (hforest : n.tree.IsForest) (entry : NodeId) :
    (s.selfReferences.map (·.1)).count entry =
      s.scopes.scopes.toList.countP fun scope =>
        ((n.selfBoundIn s.sources scope).map (·.1)).contains entry := by
  rw [(h.tally.map _).count_eq, Naming.selfBound, List.map_flatMap]
  refine count_flatMap_of_nodup (fun scope _ => ?_) entry
  exact (n.nodup_boundIn hforest scope).sublist (List.filter_sublist.map _)

/-- What a scope binds an entry to is a recursive item itself exactly when the entry stands for the
    item where its SELECT is; it is the view of that item then. -/
theorem selfBound_iff {id : ScopeId} {scope : Scope} {x : NodeId × SourceId} (h : s.Named n)
    (hs : s.scopes.get? id = some scope) (hx : x ∈ n.boundIn scope) :
    x ∈ n.selfBoundIn s.sources scope ↔ ∃ select env item,
      s.scopes.Frames id (.block select :: env) ∧
        n.entryReferent? env x.1 = some (.self item) ∧ s.sources.selfViewOf? item = some x.2 := by
  obtain ⟨select, index, b, hframe, hentry, hb, hsource⟩ := Naming.mem_boundIn.mp hx
  obtain ⟨env, bound, hopen⟩ := h.opens id scope select hs hframe
  obtain ⟨parent, hparent, hshows⟩ := hopen.parent
  have hframes : s.scopes.Frames id (.block select :: env) :=
    .cons hs hframe hparent hshows.frames
  obtain ⟨entry, hentry', hbinds⟩ := (h.binds hs hframes).2 index b hb
  obtain rfl : x.1 = entry := Option.some.inj (hentry.symm.trans hentry')
  obtain ⟨r, hr, hisSource⟩ := hbinds.referent
  rw [hsource] at hisSource
  constructor
  · intro hself
    obtain ⟨item, rfl⟩ := hisSource.isSelfReference.mp (List.mem_filter.mp hself).2
    exact ⟨select, env, item, hframes, hr, hisSource.selfView item rfl⟩
  · rintro ⟨select', env', item, -, -, hview⟩
    refine List.mem_filter.mpr ⟨hx, hisSource.isSelfReference.mpr ⟨item, ?_⟩⟩
    exact hisSource.unique (h.sources.selfView item x.2 hview)

end Session.Named

/-! ### Whole runs -/

namespace Session

/-- In every run on every catalog, whatever becomes of it: a FROM entry is listed for a recursive
    WITH item once for every scope that binds it to the view of that item, and listed at all once for
    every scope that binds it to any such view; and a scope does so exactly when the name of the entry
    stands there for the recursive item itself. -/
theorem selfReferences_tally {s : Session} (hfresh : s.IsFresh) (hforest : s.tree.IsForest)
    (query : NodeId) :
    let s' := (Session.validateQuery query s).2
    (∀ x, s'.selfReferences.count x = s'.scopes.scopes.toList.countP fun scope =>
      (s.naming.selfBoundIn s'.sources scope).contains x) ∧
    (∀ entry, (s'.selfReferences.map (·.1)).count entry =
      s'.scopes.scopes.toList.countP fun scope =>
        ((s.naming.selfBoundIn s'.sources scope).map (·.1)).contains entry) ∧
    ∀ id scope x, s'.scopes.get? id = some scope → x ∈ s.naming.boundIn scope →
      (x ∈ s.naming.selfBoundIn s'.sources scope ↔ ∃ select env item,
        s'.scopes.Frames id (.block select :: env) ∧
          s.naming.entryReferent? env x.1 = some (.self item) ∧
            s'.sources.selfViewOf? item = some x.2) := by
  intro s'
  have hrewrites : s.Rewrites s.naming.tree := ⟨.refl _, hforest.closed⟩
  have hnamed : s'.Named s.naming :=
    ((visitAt_names hforest.closed s.maxDepth).query hrewrites hfresh.hasCatalogOnly.named
      hfresh.hasCatalogOnly.named.catalog (fun _ hframe => absurd hframe List.not_mem_nil)).1
  exact ⟨hnamed.count_selfReferences hforest, hnamed.count_listed hforest,
    fun id scope x hs hx => hnamed.selfBound_iff hs hx⟩

/-- `WITH RECURSIVE r AS ((WITH RECURSIVE s AS (SELECT 1 AS n UNION ALL SELECT n FROM s) SELECT n FROM s)
    UNION ALL SELECT n FROM r) SELECT * FROM r`. -/
def recursionInAnchor : Session where
  tree := ⟨#[⟨.literal (.integer 1), .synthetic⟩,
    ⟨.select { items := [.expression ⟨0⟩ (some "n")], sources := [], condition := none }, .synthetic⟩,
    ⟨.identifier ["n"], .synthetic⟩, ⟨.tableRef ["s"] none, .synthetic⟩,
    ⟨.select { items := [.expression ⟨2⟩ none], sources := [⟨3⟩], condition := none }, .synthetic⟩,
    ⟨.setOperation { operator := .union, all := true, left := ⟨1⟩, right := ⟨4⟩ }, .synthetic⟩,
    ⟨.withItem { name := ["s"], columns := none, query := ⟨5⟩, recursive := true }, .synthetic⟩,
    ⟨.identifier ["n"], .synthetic⟩, ⟨.tableRef ["s"] none, .synthetic⟩,
    ⟨.select { items := [.expression ⟨7⟩ none], sources := [⟨8⟩], condition := none }, .synthetic⟩,
    ⟨.withQuery [⟨6⟩] ⟨9⟩, .synthetic⟩, ⟨.identifier ["n"], .synthetic⟩,
    ⟨.tableRef ["r"] none, .synthetic⟩,
    ⟨.select { items := [.expression ⟨11⟩ none], sources := [⟨12⟩], condition := none }, .synthetic⟩,
    ⟨.setOperation { operator := .union, all := true, left := ⟨10⟩, right := ⟨13⟩ }, .synthetic⟩,
    ⟨.withItem { name := ["r"], columns := none, query := ⟨14⟩, recursive := true }, .synthetic⟩,
    ⟨.tableRef ["r"] none, .synthetic⟩,
    ⟨.select { items := [.star], sources := [⟨16⟩], condition := none }, .synthetic⟩,
    ⟨.withQuery [⟨15⟩] ⟨17⟩, .synthetic⟩]⟩

theorem isFresh_recursionInAnchor : recursionInAnchor.IsFresh :=
  .start {} recursionInAnchor.tree .standard .implicitCasts

theorem isForest_recursionInAnchor : recursionInAnchor.tree.IsForest :=
  .of_ordered (by decide) (by decide) (by decide)

/-- The inner item is validated twice, and two scopes of its second input bind the entry. -/
theorem selfReferences_tally_inner :
    recursionInAnchor.IsFresh ∧ recursionInAnchor.tree.IsForest ∧
      (Session.validateQuery ⟨18⟩ recursionInAnchor).2.selfReferences.count (⟨3⟩, ⟨3⟩) = 2 ∧
        (Session.validateQuery ⟨18⟩ recursionInAnchor).2.scopes.scopes.toList.countP (fun scope =>
          (recursionInAnchor.naming.selfBoundIn (Session.validateQuery ⟨18⟩
            recursionInAnchor).2.sources scope).contains (⟨3⟩, ⟨3⟩)) = 2 := by
  have htally := (selfReferences_tally isFresh_recursionInAnchor isForest_recursionInAnchor
    ⟨18⟩).1 (⟨3⟩, ⟨3⟩)
  have hcount : (Session.validateQuery ⟨18⟩ recursionInAnchor).2.selfReferences.count
      (⟨3⟩, ⟨3⟩) = 2 := by decide +kernel
  exact ⟨isFresh_recursionInAnchor, isForest_recursionInAnchor, hcount, htally.symm.trans hcount⟩

/-- It is not so that no accepted query has a FROM entry listed twice, with those listed that are
    bound to a recursive item itself. -/
theorem selfReferences_repeated :
    ¬ ∀ (s s' : Session) (query : NodeId) (row : DataType), s.IsFresh → s.tree.IsForest →
      Session.validateQuery query s = (.ok row, s') → (s'.selfReferences.map (·.1)).Nodup ∧
        ∀ x, x ∈ s'.selfReferences ↔
          ∃ scope ∈ s'.scopes.scopes.toList, x ∈ s.naming.selfBoundIn s'.sources scope := by
  intro h
  have hrow : (Session.validateQuery ⟨18⟩ recursionInAnchor).1 =
      .ok (.row [("n", .notNull .integer)]) := by decide +kernel
  have htwice : ¬ ((Session.validateQuery ⟨18⟩ recursionInAnchor).2.selfReferences.map
      (·.1)).Nodup := by decide +kernel
  cases hok : Session.validateQuery ⟨18⟩ recursionInAnchor with
  | mk r s' =>
    rw [hok] at hrow htwice
    cases hrow
    exact htwice (h recursionInAnchor s' ⟨18⟩ _ isFresh_recursionInAnchor
      isForest_recursionInAnchor hok).1

end Session

end SqlTyping
