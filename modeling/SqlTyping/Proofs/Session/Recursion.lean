import SqlTyping.Proofs.Session.Consistency

namespace SqlTyping

/-!
# Nullability of recursive items

Inside its own body a recursive WITH item is shown with the columns of its first input, which are fixed
before the second one is looked at; from outside it has the columns of the whole body. So a column that is
never null as seen from inside may be null in the end, but only on account of the second input:

* `Session.recursive_nullable`: in every accepted query, when no table of the first input is spelled like
  the item;
* `Session.not_nullable_inside`: a query in which it happens.
-/

/-- The column with the given number may be null. -/
def DataType.NullableAt (row : DataType) (i : Nat) : Prop :=
  ∃ f, row.fields[i]? = some f ∧ f.type.nullable = true

section

variable {left right row : DataType} {columns : Option (List String)} {i : Nat}

theorem DataType.nullableAt_iff : row.NullableAt i ↔ ∃ name, row.outline[i]? = some (name, true) := by
  unfold NullableAt DataType.outline
  simp only [List.getElem?_map, Option.map_eq_some_iff, Prod.mk.injEq]
  constructor
  · rintro ⟨f, hf, hnull⟩
    exact ⟨f.name, f, hf, rfl, hnull⟩
  · rintro ⟨_, f, hf, -, hnull⟩
    exact ⟨f, hf, hnull⟩

/-- A column list leaves the nullability of a column that it names. -/
theorem Outline.nullable_of_renamed {o : Outline} {name : String} {nullable : Bool}
    (h : (o.renamed columns)[i]? = some (name, nullable)) : ∃ old, o[i]? = some (old, nullable) := by
  cases columns with
  | none => exact ⟨name, h⟩
  | some names =>
    unfold Outline.renamed at h
    rw [List.getElem?_zipWith_eq_some] at h
    obtain ⟨_, ⟨old, found⟩, -, ho, hcolumn⟩ := h
    cases hcolumn
    exact ⟨old, ho⟩

/-- As many columns are named when there are as many. -/
theorem Outline.length_renamed_union {o o' : Outline} (h : o.length = o'.length) :
    ((o.union o').renamed columns).length = (o.renamed columns).length := by
  have hunion : (o.union o').length = o.length := by
    unfold Outline.union
    rw [List.length_zipWith, h, Nat.min_self]
  cases columns with
  | none => exact hunion
  | some names =>
    unfold Outline.renamed
    rw [List.length_zipWith, List.length_zipWith, hunion]

/-- A column of a set operation may be null when it may be on either side, under whatever names. -/
theorem Outline.nullable_union {o o' : Outline} (hlength : o.length = o'.length) {name : String}
    (h : ((o.union o').renamed columns)[i]? = some (name, true)) :
    (∃ name, (o.renamed columns)[i]? = some (name, true)) ∨ ∃ name, o'[i]? = some (name, true) := by
  obtain ⟨old, hold⟩ := Outline.nullable_of_renamed h
  unfold Outline.union at hold
  rw [List.getElem?_zipWith_eq_some] at hold
  obtain ⟨⟨leftName, leftNull⟩, ⟨rightName, rightNull⟩, hleft, hright, heq⟩ := hold
  simp only [Prod.mk.injEq, Bool.or_eq_true] at heq
  obtain ⟨-, rfl | rfl⟩ := heq
  · left
    obtain ⟨hi, -⟩ := List.getElem?_eq_some_iff.mp h
    rw [Outline.length_renamed_union hlength] at hi
    obtain ⟨shown, nullable, hshown⟩ : ∃ shown nullable,
        (o.renamed columns)[i]? = some (shown, nullable) := ⟨_, _, List.getElem?_eq_getElem hi⟩
    obtain ⟨_, hsame⟩ := Outline.nullable_of_renamed hshown
    rw [hleft] at hsame
    cases hsame
    exact ⟨shown, hshown⟩
  · exact .inr ⟨rightName, hright⟩

end

namespace Session

variable {s s' : Session} {query item : NodeId} {row : DataType} {w : WithItem}

/-- In an accepted query a recursive WITH item has a row source and a view from inside with equally many
    columns, and a column that may be null in the end may be null as seen from inside or in the second input
    of the body; provided that no FROM entry of the first input is spelled like the item. -/
theorem recursive_nullable (hfresh : s.IsFresh) (hforest : s.tree.IsForest)
    (hok : validateQuery query s = (.ok row, s')) (hitem : s.tree.Below s.operators query item)
    (hw : s.tree.node? item = some (.withItem w)) (hrecursive : w.recursive = true)
    (hspells : ∀ operation, s.tree.node? w.query = some (.setOperation operation) →
      ¬ s.tree.Spells operation.left (qualifiedName w.name)) :
    ∃ operation own inside final view right, s.tree.node? w.query = some (.setOperation operation) ∧
      s'.sources.ofNode? item = some own ∧ s'.sources.row? own = some final ∧
        s'.sources.selfViewOf? item = some inside ∧ s'.sources.row? inside = some view ∧
          s'.typeOf? operation.right = some right ∧ final.fieldCount = view.fieldCount ∧
            ∀ i, final.NullableAt i → view.NullableAt i ∨ right.NullableAt i := by
  obtain ⟨hs, hcoherent, -⟩ := hfresh.coherentFrom hforest hok
  have hrewritten := hs.rewrites.rewritten
  have hbelow := hrewritten.below hitem
  have hw' := hrewritten.other item _ hw rfl
  obtain ⟨node, final, hfinal⟩ := hcoherent item hbelow
  obtain rfl := Option.some.inj (hw'.symm.trans hfinal.found)
  obtain ⟨operation, hop, ⟨own, e, hown, he, hrow⟩, inside, e', left, hinside, he', hleft, hview⟩ :=
    hfinal.recurs w rfl hrecursive
  have hwritten := hs.rewrites.node?_of_isClause hop rfl
  -- The body, and what its row type is made from.
  obtain ⟨body, hbody, hrenamed⟩ := hfinal.coheres
  obtain ⟨node, type, hquery⟩ :=
    hcoherent w.query (hbelow.tail ⟨_, hw', by simp [Node.visited, Node.children]⟩)
  obtain rfl := Option.some.inj (hop.symm.trans hquery.found)
  obtain rfl := Option.some.inj (hbody.symm.trans hquery.recorded)
  obtain ⟨left', right, hleft', hright, hunion⟩ := hquery.coheres
  obtain rfl := Option.some.inj (hleft.symm.trans hleft')
  obtain ⟨houtline, hcount⟩ := outline_of_unionRow hunion
  have hfinalOutline := outline_of_renamed hrenamed
  rw [houtline] at hfinalOutline
  have hviewOutline := hview (hspells operation hwritten)
  have hlength : left.outline.length = right.outline.length := by
    rw [DataType.length_outline, DataType.length_outline, hcount]
  refine ⟨operation, own, inside, final, e'.row, right, hwritten, hown, ?_, hinside, ?_, hright, ?_,
    fun i hi => ?_⟩
  · rw [RowSources.row?_of_get? he, ← hrow]
  · exact RowSources.row?_of_get? he'
  · rw [← DataType.length_outline, ← DataType.length_outline, hfinalOutline, hviewOutline,
      Outline.length_renamed_union hlength]
  · obtain ⟨name, hname⟩ := DataType.nullableAt_iff.mp hi
    rw [hfinalOutline] at hname
    rw [DataType.nullableAt_iff, DataType.nullableAt_iff, hviewOutline]
    exact Outline.nullable_union hlength hname

/-- `WITH RECURSIVE r (n) AS (SELECT 1 UNION ALL SELECT CAST(NULL AS INTEGER) FROM r) SELECT * FROM r`. -/
def recursionWithNull : Session where
  tree := ⟨#[⟨.literal (.integer 1), .synthetic⟩,
    ⟨.select { items := [.expression ⟨0⟩ none], sources := [], condition := none }, .synthetic⟩,
    ⟨.literal .null, .synthetic⟩, ⟨.cast ⟨2⟩ ⟨.integer, none, none⟩ false, .synthetic⟩,
    ⟨.tableRef ["r"] none, .synthetic⟩,
    ⟨.select { items := [.expression ⟨3⟩ none], sources := [⟨4⟩], condition := none }, .synthetic⟩,
    ⟨.setOperation { operator := .union, all := true, left := ⟨1⟩, right := ⟨5⟩ }, .synthetic⟩,
    ⟨.withItem { name := ["r"], columns := some ["n"], query := ⟨6⟩, recursive := true }, .synthetic⟩,
    ⟨.tableRef ["r"] none, .synthetic⟩,
    ⟨.select { items := [.star], sources := [⟨8⟩], condition := none }, .synthetic⟩,
    ⟨.withQuery [⟨7⟩] ⟨9⟩, .synthetic⟩]⟩

theorem isFresh_recursionWithNull : recursionWithNull.IsFresh := .start _ _ _ _

theorem isForest_recursionWithNull : recursionWithNull.tree.IsForest :=
  .of_ordered (by decide) (by decide) (by decide)

/-- The query is accepted. The item is shown inside with a column that is never null, and outside with one
    that may be. -/
theorem run_recursionWithNull :
    (validateQuery ⟨10⟩ recursionWithNull).1 = .ok (.row [("n", .orNull .integer)]) ∧
      (validateQuery ⟨10⟩ recursionWithNull).2.sources.ofNode? ⟨7⟩ = some ⟨0⟩ ∧
        (validateQuery ⟨10⟩ recursionWithNull).2.sources.row? ⟨0⟩ =
          some (.row [("n", .orNull .integer)]) ∧
        (validateQuery ⟨10⟩ recursionWithNull).2.sources.selfViewOf? ⟨7⟩ = some ⟨1⟩ ∧
          (validateQuery ⟨10⟩ recursionWithNull).2.sources.row? ⟨1⟩ =
            some (.row [("n", .notNull .integer)]) := by
  decide +kernel

theorem below_recursionWithNull :
    recursionWithNull.tree.Below recursionWithNull.operators ⟨10⟩ ⟨7⟩ :=
  .single ⟨.withQuery [⟨7⟩] ⟨9⟩, rfl, by decide⟩

/-- There is no FROM entry below the first input. -/
theorem not_spells_recursionWithNull : ¬ recursionWithNull.tree.Spells ⟨1⟩ "r" := by
  have hreach : ∀ x, Relation.ReflTransGen recursionWithNull.tree.Child ⟨1⟩ x → x = ⟨1⟩ ∨ x = ⟨0⟩ := by
    intro x hx
    induction hx with
    | refl => exact .inl rfl
    | tail _ hc ih =>
      obtain ⟨node, hn, hmem⟩ := hc
      rcases ih with rfl | rfl
      · cases hn
        exact .inr (List.mem_singleton.mp hmem)
      · cases hn
        cases hmem
  rintro ⟨entry, label, hentry, hn⟩
  rcases hreach entry hentry with rfl | rfl
  · cases hn
  · cases hn

/-- The column that may be null in the end may be null in the second input, and not as seen from inside. -/
theorem recursive_nullable_with_null : ∃ row s' final view right, recursionWithNull.IsFresh ∧
    recursionWithNull.tree.IsForest ∧ validateQuery ⟨10⟩ recursionWithNull = (.ok row, s') ∧
      s'.sources.row? ⟨0⟩ = some final ∧ s'.sources.row? ⟨1⟩ = some view ∧
        s'.typeOf? ⟨5⟩ = some right ∧ final.NullableAt 0 ∧ right.NullableAt 0 ∧ ¬ view.NullableAt 0 := by
  obtain ⟨hrow, hown, hfinal, hinside, hview⟩ := run_recursionWithNull
  have hitem : recursionWithNull.tree.node? ⟨7⟩ =
      some (.withItem { name := ["r"], columns := some ["n"], query := ⟨6⟩, recursive := true }) := rfl
  have hspells : ∀ operation, recursionWithNull.tree.node? ⟨6⟩ = some (.setOperation operation) →
      ¬ recursionWithNull.tree.Spells operation.left "r" := by
    rintro operation ⟨⟩
    exact not_spells_recursionWithNull
  cases hok : validateQuery ⟨10⟩ recursionWithNull with
  | mk r s' =>
    rw [hok] at hrow hown hfinal hinside hview
    cases hrow
    obtain ⟨operation, own, inside, final, view, right, hop, hown', hfinal', hinside', hview', hright, -,
      hall⟩ := recursive_nullable isFresh_recursionWithNull isForest_recursionWithNull hok
        below_recursionWithNull hitem rfl hspells
    cases hop
    cases hown.symm.trans hown'
    cases hinside.symm.trans hinside'
    cases hfinal.symm.trans hfinal'
    cases hview.symm.trans hview'
    have hnull : (DataType.row [("n", .orNull .integer)]).NullableAt 0 := ⟨_, rfl, rfl⟩
    have hnever : ¬ (DataType.row [("n", .notNull .integer)]).NullableAt 0 := by
      rintro ⟨f, hf, hnull⟩
      cases hf
      cases hnull
    exact ⟨_, s', _, _, right, isFresh_recursionWithNull, isForest_recursionWithNull, rfl, hfinal, hview,
      hright, hnull, (hall 0 hnull).resolve_left hnever, hnever⟩

/-- It is not so that a column is seen as nullable from inside whenever it is nullable in the end: the
    second input may add that. -/
theorem not_nullable_inside :
    ¬ ∀ (s s' : Session) (query item : NodeId) (row final view : DataType) (w : WithItem)
      (own inside : SourceId), s.IsFresh → s.tree.IsForest →
        validateQuery query s = (.ok row, s') → s.tree.Below s.operators query item →
          s.tree.node? item = some (.withItem w) → w.recursive = true →
            s'.sources.ofNode? item = some own → s'.sources.row? own = some final →
              s'.sources.selfViewOf? item = some inside → s'.sources.row? inside = some view →
                final.fieldCount = view.fieldCount ∧ ∀ i, final.NullableAt i → view.NullableAt i := by
  intro h
  obtain ⟨hrow, hown, hfinal, hinside, hview⟩ := run_recursionWithNull
  cases hok : validateQuery ⟨10⟩ recursionWithNull with
  | mk r s' =>
    rw [hok] at hrow hown hfinal hinside hview
    cases hrow
    obtain ⟨-, hall⟩ := h recursionWithNull s' ⟨10⟩ ⟨7⟩ _ _ _ _ _ _ isFresh_recursionWithNull
      isForest_recursionWithNull hok below_recursionWithNull rfl rfl hown hfinal hinside hview
    obtain ⟨f, hf, hnull⟩ := hall 0 ⟨_, rfl, rfl⟩
    cases hf
    cases hnull

end Session

end SqlTyping
