import Mathlib.Order.Filter.AtTopBot.Basic
import SqlTyping.Proofs.Session.Anchors
import SqlTyping.Proofs.Session.Outlooks

namespace SqlTyping

/-!
# Nullability by the text alone

Names and nullability of the columns of a query, and whether an expression may be null, can be read off
the statement as it was written:

* `Session.outlineAt` — what is read off down to a given depth, in an outlook;
* `Session.Outlines`, `Session.MayBeNull` — what is read off down to any depth that suffices;
* `Session.outlineAt_skip` — a WITH item that no table is spelled like makes no difference.

Types are not read off. They depend on the casts that validation inserts; nullability does not, because a
cast is nullable when its operand is, and a return rule looks at the nullability of operands only.
-/

/-- Whether a call may be null, by whether its operands may. -/
def ReturnRule.mayBeNull (operands : List Bool) : ReturnRule → Bool
  | fixed type => type.nullable
  | fixedNullable type => type.nullable || operands.any id
  | operand _ => operands.any id
  | nullable _ => true

/-- The nullability of an inferred type is that of the operands' types. -/
theorem ReturnRule.nullable_of_infer {types : List DataType} {rule : ReturnRule} {type : DataType}
    (h : rule.infer types = .ok type) : type.nullable = rule.mayBeNull (types.map (·.nullable)) := by
  have hany : types.any (·.nullable) = (types.map (·.nullable)).any id := by
    rw [List.any_map]
    rfl
  cases rule with
  | fixed fixed =>
    cases h
    rfl
  | fixedNullable fixed =>
    cases h
    show (fixed.nullable || types.any (·.nullable)) = _
    rw [hany]
    rfl
  | operand index =>
    unfold infer at h
    split at h
    · cases h
      exact hany
    · cases h
  | nullable rule =>
    unfold infer at h
    cases hinner : rule.infer types with
    | error e =>
      rw [hinner] at h
      cases h
    | ok inner =>
      rw [hinner] at h
      cases h
      rfl

/-- How the parts below a node are read: queries to their columns, expressions to whether they may be
    null. -/
structure Outliner where
  query : Outlook → NodeId → Outline
  nullable : Outlook → NodeId → Bool

/-- What is not spelled below a node is not spelled below its children. -/
theorem Tree.not_spells_child {t : Tree} {p c : NodeId} {node : Node} {name : String}
    (h : ¬ t.Spells p name) (hn : t.node? p = some node) (hc : c ∈ node.children) :
    ¬ t.Spells c name := by
  rintro ⟨entry, label, hbelow, hentry⟩
  exact h ⟨entry, label, .head ⟨node, hn, hc⟩ hbelow, hentry⟩

namespace Session

variable (b : Session)

/-! ### One step -/

/-- What an entry of a FROM list shows. -/
def sourceEntry (o : Outliner) (view : Outlook) (entry : NodeId) : Outlook.Entry :=
  match b.tree.node? entry with
  | some (.tableRef name label) =>
    { names := (exposedName? name label).toList, nullable := false
      columns := ((view.table? b.settings.matching name).map (·.columns)).getD [] }
  | some (.subqueryRef query label) =>
    { names := [label], nullable := false, columns := o.query view query }
  | _ => { names := [], nullable := false, columns := [] }

/-- The columns with those of one entry of a SELECT list. -/
def itemOutline (o : Outliner) (view : Outlook) (entries : List Outlook.Entry) (columns : Outline)
    (place : Nat) : SelectItem → Outline
  | .star => entries.foldl (fun columns e => columns.addAll e.columns e.nullable) columns
  | .expression id label =>
    columns.add (baseName label ((b.tree.node? id).getD .default) place) (o.nullable view id)

/-- The columns with those of the entries of a SELECT list from `place` on. -/
def itemsOutline (o : Outliner) (view : Outlook) (entries : List Outlook.Entry) (columns : Outline)
    (place : Nat) : List SelectItem → Outline
  | [] => columns
  | item :: rest =>
    itemsOutline o view entries (b.itemOutline o view entries columns place item) (place + 1) rest

/-- The columns of a SELECT. -/
def selectOutline (o : Outliner) (view : Outlook) (block : SelectBlock) : Outline :=
  let entries := block.sources.map (b.sourceEntry o view)
  b.itemsOutline o (.block entries :: view) entries [] 0 block.items

/-- The columns of the query of a WITH item. That of a recursive one sees the item with the columns of its
    first input. -/
def bodyOutline (o : Outliner) (view : Outlook) (id : NodeId) (item : WithItem) : Outline :=
  if item.recursive then
    match b.tree.node? item.query with
    | some (.setOperation operation) =>
      let shown := (o.query view operation.left).renamed item.columns
      o.query (.item id (qualifiedName item.name) shown :: view) item.query
    | _ => []
  else o.query view item.query

/-- What a WITH item shows to the queries after it. -/
def itemLevel (o : Outliner) (view : Outlook) (id : NodeId) : Outlook.Level :=
  match b.tree.node? id with
  | some (.withItem item) =>
    .item id (qualifiedName item.name) ((b.bodyOutline o view id item).renamed item.columns)
  | _ => .block []

/-- The columns of a WITH query. -/
def withOutline (o : Outliner) (body : NodeId) (view : Outlook) : List NodeId → Outline
  | [] => o.query view body
  | item :: rest => withOutline o body (b.itemLevel o view item :: view) rest

/-- Whether the operands of a call from `index` on may be null. -/
def operandNulls (o : Outliner) (view : Outlook) (signature : Signature) : Nat → List NodeId → List Bool
  | _, [] => []
  | index, operand :: rest =>
    (if signature.isKeyword index then DataType.symbol.nullable else o.nullable view operand) ::
      operandNulls o view signature (index + 1) rest

/-- One step down from a node to its parts. -/
def outlineStep (o : Outliner) : Outliner where
  query view id :=
    match b.tree.node? id with
    | some (.select block) => b.selectOutline o view block
    | some (.setOperation operation) =>
      (o.query view operation.left).union (o.query view operation.right)
    | some (.withQuery items body) => b.withOutline o body view items
    | _ => []
  nullable view id :=
    match b.tree.node? id with
    | some (.literal value) => value.type.nullable
    | some (.identifier names) => (view.reference? b.settings.matching names).getD false
    | some (.call name operands) =>
      match b.operators.lookup? name with
      | some op => op.returns.mayBeNull (operandNulls o view op.signature 0 operands)
      | none => false
    | some (.cast operand _ _) => o.nullable view operand
    | some (.cursor _) => DataType.cursor.nullable
    | _ => DataType.any.nullable

/-- What is read off down to a given depth. -/
def outlineAt : Nat → Outliner
  | 0 => { query := fun _ _ => [], nullable := fun _ _ => false }
  | depth + 1 => b.outlineStep (outlineAt depth)

/-! ### Names that are not spelled -/

section

variable {b} {o : Outliner} {outer : Outlook} (inner : Outlook) {item a : NodeId} {name : String}
  {columns : Outline}

/-- A WITH item in sight makes no difference to nodes below which no table is spelled like it. -/
def Skips (b : Session) (o : Outliner) (outer : Outlook) (item : NodeId) (name : String)
    (columns : Outline) : Prop :=
  ∀ inner a, ¬ b.tree.Spells a name →
    o.query (inner ++ .item item name columns :: outer) a = o.query (inner ++ outer) a ∧
      o.nullable (inner ++ .item item name columns :: outer) a = o.nullable (inner ++ outer) a

section

variable (h : b.Skips o outer item name columns)

include h

theorem sourceEntry_skip {entry : NodeId} (hs : ¬ b.tree.Spells entry name) :
    b.sourceEntry o (inner ++ .item item name columns :: outer) entry =
      b.sourceEntry o (inner ++ outer) entry := by
  unfold sourceEntry
  cases hn : b.tree.node? entry with
  | none => rfl
  | some node =>
    cases node with
    | tableRef names label =>
      have hne : names ≠ [name] := by
        rintro rfl
        exact hs ⟨entry, label, .refl, hn⟩
      simp only [Outlook.table?_skip hne]
    | subqueryRef query label =>
      simp only [(h inner query (Tree.not_spells_child hs hn (by simp [Node.children]))).1]
    | _ => rfl

theorem itemsOutline_skip {entries : List Outlook.Entry} {items : List SelectItem}
    (hs : ∀ c ∈ items.flatMap Node.itemChild, ¬ b.tree.Spells c name) (known : Outline) (place : Nat) :
    b.itemsOutline o (inner ++ .item item name columns :: outer) entries known place items =
      b.itemsOutline o (inner ++ outer) entries known place items := by
  induction items generalizing known place with
  | nil => rfl
  | cons first rest ih =>
    have hfirst : b.itemOutline o (inner ++ .item item name columns :: outer) entries known place first =
        b.itemOutline o (inner ++ outer) entries known place first := by
      cases first with
      | star => rfl
      | expression id label =>
        have hid := h inner id (hs id (by simp [Node.itemChild]))
        unfold itemOutline
        simp only [hid.2]
    unfold itemsOutline
    rw [hfirst]
    exact ih (fun c hc => hs c (by simp [hc])) _ _

theorem selectOutline_skip {block : SelectBlock} (hn : b.tree.node? a = some (.select block))
    (hs : ¬ b.tree.Spells a name) :
    b.selectOutline o (inner ++ .item item name columns :: outer) block =
      b.selectOutline o (inner ++ outer) block := by
  have hentries : block.sources.map (b.sourceEntry o (inner ++ .item item name columns :: outer)) =
      block.sources.map (b.sourceEntry o (inner ++ outer)) := by
    refine List.map_congr_left fun entry he => sourceEntry_skip inner h (Tree.not_spells_child hs hn ?_)
    simp [Node.children, he]
  unfold selectOutline
  simp only [hentries]
  refine itemsOutline_skip (.block _ :: inner) h (fun c hc => Tree.not_spells_child hs hn ?_) _ _
  rw [List.mem_flatMap] at hc
  simp [Node.children, hc]

theorem bodyOutline_skip {id : NodeId} {w : WithItem} (hn : b.tree.node? id = some (.withItem w))
    (hs : ¬ b.tree.Spells id name) :
    b.bodyOutline o (inner ++ .item item name columns :: outer) id w =
      b.bodyOutline o (inner ++ outer) id w := by
  have hquery : ¬ b.tree.Spells w.query name := Tree.not_spells_child hs hn (by simp [Node.children])
  unfold bodyOutline
  split
  · split
    · rename_i operation hop
      have hleft := h inner operation.left (Tree.not_spells_child hquery hop (by simp [Node.children]))
      simp only [hleft.1]
      exact (h (.item id _ _ :: inner) w.query hquery).1
    · rfl
  · exact (h inner w.query hquery).1

theorem withOutline_skip {body : NodeId} {items : List NodeId} (hbody : ¬ b.tree.Spells body name)
    (hitems : ∀ c ∈ items, ¬ b.tree.Spells c name) :
    b.withOutline o body (inner ++ .item item name columns :: outer) items =
      b.withOutline o body (inner ++ outer) items := by
  induction items generalizing inner with
  | nil => exact (h inner body hbody).1
  | cons first rest ih =>
    have hlevel : b.itemLevel o (inner ++ .item item name columns :: outer) first =
        b.itemLevel o (inner ++ outer) first := by
      unfold itemLevel
      split
      · rename_i w hw
        rw [bodyOutline_skip inner h hw (hitems first (List.mem_cons_self ..))]
      · rfl
    unfold withOutline
    rw [hlevel]
    exact ih (_ :: inner) fun c hc => hitems c (List.mem_cons_of_mem _ hc)

theorem operandNulls_skip {signature : Signature} {operands : List NodeId}
    (hs : ∀ c ∈ operands, ¬ b.tree.Spells c name) (index : Nat) :
    operandNulls o (inner ++ .item item name columns :: outer) signature index operands =
      operandNulls o (inner ++ outer) signature index operands := by
  induction operands generalizing index with
  | nil => rfl
  | cons operand rest ih =>
    unfold operandNulls
    rw [(h inner operand (hs operand (List.mem_cons_self ..))).2,
      ih fun c hc => hs c (List.mem_cons_of_mem _ hc)]

theorem skips_step : b.Skips (b.outlineStep o) outer item name columns := by
  intro inner a hs
  cases hn : b.tree.node? a with
  | none => simp only [outlineStep, hn, and_self]
  | some node =>
    have hchild : ∀ c ∈ node.children, ¬ b.tree.Spells c name := fun c hc => Tree.not_spells_child hs hn hc
    unfold outlineStep
    simp only [hn]
    cases node with
    | select block => exact ⟨selectOutline_skip inner h hn hs, rfl⟩
    | setOperation operation =>
      have hleft := h inner operation.left (hchild _ (by simp [Node.children]))
      have hright := h inner operation.right (hchild _ (by simp [Node.children]))
      simp only [hleft.1, hright.1, and_self]
    | withQuery items body =>
      refine ⟨withOutline_skip inner h (hchild body (by simp [Node.children])) fun c hc => ?_, rfl⟩
      exact hchild c (by simp [Node.children, hc])
    | identifier names => simp only [Outlook.reference?_skip, and_self]
    | call op operands =>
      have hoperands : ∀ c ∈ operands, ¬ b.tree.Spells c name := hchild
      simp only [operandNulls_skip inner h hoperands, and_self]
    | cast operand target implicit =>
      exact ⟨rfl, (h inner operand (hchild operand (by simp [Node.children]))).2⟩
    | _ => exact ⟨rfl, rfl⟩

end

/-- A WITH item in sight makes no difference where no table is spelled like it. -/
theorem outlineAt_skip (depth : Nat) : b.Skips (b.outlineAt depth) outer item name columns := by
  induction depth with
  | zero => exact fun _ _ _ => ⟨rfl, rfl⟩
  | succ depth ih => exact skips_step ih

end

/-! ### Any depth that suffices -/

open Filter

/-- The columns of a query, read off down to any depth that suffices. -/
def Outlines (view : Outlook) (query : NodeId) (columns : Outline) : Prop :=
  ∀ᶠ depth in atTop, (b.outlineAt depth).query view query = columns

/-- Whether an expression may be null, read off down to any depth that suffices. -/
def MayBeNull (view : Outlook) (expression : NodeId) (nullable : Bool) : Prop :=
  ∀ᶠ depth in atTop, (b.outlineAt depth).nullable view expression = nullable

section

variable {b} {view inner outer : Outlook} {a item : NodeId} {name : String} {columns shown : Outline}

/-- What holds a step deeper for all depths from some on, holds for all depths from some on. -/
theorem eventually_outlineAt {P : Outliner → Prop}
    (h : ∀ᶠ depth in atTop, P (b.outlineStep (b.outlineAt depth))) :
    ∀ᶠ depth in atTop, P (b.outlineAt depth) := by
  obtain ⟨least, hleast⟩ := eventually_atTop.mp h
  refine eventually_atTop.mpr ⟨least + 1, fun depth hd => ?_⟩
  obtain ⟨depth, rfl⟩ := Nat.exists_eq_add_of_le' (Nat.le_trans (Nat.le_add_left 1 least) hd)
  exact hleast depth (Nat.le_of_succ_le_succ hd)

theorem Outlines.of_step
    (h : ∀ᶠ depth in atTop, (b.outlineStep (b.outlineAt depth)).query view a = columns) :
    b.Outlines view a columns :=
  eventually_outlineAt (P := fun o => o.query view a = columns) h

theorem MayBeNull.of_step {nullable : Bool}
    (h : ∀ᶠ depth in atTop, (b.outlineStep (b.outlineAt depth)).nullable view a = nullable) :
    b.MayBeNull view a nullable :=
  eventually_outlineAt (P := fun o => o.nullable view a = nullable) h

/-- The columns of a query are determined. -/
theorem Outlines.unique (h : b.Outlines view a columns) (h' : b.Outlines view a shown) :
    columns = shown := by
  obtain ⟨depth, hd, hd'⟩ := (h.and h').exists
  exact hd.symm.trans hd'

/-- The columns of a query do not depend on a WITH item that no table below it is spelled like. -/
theorem Outlines.skip (h : b.Outlines (inner ++ .item item name shown :: outer) a columns)
    (hs : ¬ b.tree.Spells a name) : b.Outlines (inner ++ outer) a columns := by
  filter_upwards [h] with depth hd
  rw [← hd]
  exact (outlineAt_skip depth inner a hs).1.symm

end

end Session

end SqlTyping
