import SqlTyping.Proofs.Tree.Forest

namespace SqlTyping

/-!
# What is validated from where

Which parts of a statement are validated below a node, and what surrounds them, is a matter of the
statement alone:

* `Frame`, `Env` — what shows names to a part: the FROM lists, the WITH items and the recursive
  WITH items around it, innermost first;
* `Tree.queryParts`, `Tree.expressionParts` — the parts validated for a node, in order, with what
  surrounds each of them;
* `Tree.PartBelow` — the parts of a query are children of queries and of entries of queries.
-/

/-- Something that shows names to the parts inside it. -/
inductive Frame where
  /-- The FROM list of a SELECT, shown to its condition and its SELECT list. -/
  | block (select : NodeId)
  /-- A WITH item, shown to what follows it. -/
  | item (item : NodeId) (name : String)
  /-- A recursive WITH item, shown to its own body. -/
  | recursive (item : NodeId) (name : String)
  deriving DecidableEq, Repr

/-- What surrounds a part of a statement, innermost first. -/
abbrev Env := List Frame

/-- The nodes of a query besides its parts: the entries of its FROM list, its WITH items. -/
def Node.entries : Node → List NodeId
  | .select block => block.sources
  | .withQuery items _ => items
  | _ => []

/-- The entries of a query are among its children. -/
theorem Node.mem_children_of_entries {n : Node} {x : NodeId} (h : x ∈ n.entries) :
    x ∈ n.children := by
  cases n with
  | select block =>
    have hx : x ∈ block.sources := h
    simp [children, hx]
  | withQuery items body =>
    have hx : x ∈ items := h
    simp [children, hx]
  | _ => cases h

/-- Whether the node is a query or an entry of one, rather than an expression. -/
def Node.isClause : Node → Bool
  | .select _ | .setOperation _ | .withQuery .. | .withItem _ | .tableRef .. | .subqueryRef .. => true
  | _ => false

theorem Node.isClause_of_isQuery (n : Node) (h : n.isQuery = true) : n.isClause = true := by
  cases n with
  | select | setOperation | withQuery => rfl
  | _ => cases h

theorem Node.isClause_of_mem_entries {n : Node} {x : NodeId} (h : x ∈ n.entries) :
    n.isClause = true := by
  cases n with
  | select | withQuery => rfl
  | _ => cases h

/-- Validation looks at all children of a query or of an entry of one. -/
theorem Node.visited_of_isClause {n : Node} (h : n.isClause = true) (ops : OperatorTable) :
    n.visited ops = n.children := by
  cases n with
  | call => cases h
  | _ => rfl

namespace Tree

/-- The query of an entry of a FROM list. -/
def sourceQuery (t : Tree) (entry : NodeId) : List NodeId :=
  match t.node? entry with
  | some (.subqueryRef query _) => [query]
  | _ => []

theorem mem_sourceQuery_iff {t : Tree} {entry query : NodeId} :
    query ∈ t.sourceQuery entry ↔ ∃ label, t.node? entry = some (.subqueryRef query label) := by
  unfold sourceQuery
  constructor
  · intro h
    split at h
    · rename_i found label hn
      obtain rfl := List.mem_singleton.mp h
      exact ⟨label, hn⟩
    · cases h
  · rintro ⟨label, hn⟩
    rw [hn]
    exact List.mem_singleton_self query

/-- The parts validated for a WITH item. The first input of a recursive one is validated where the
    item is not shown, and once more with the whole body. -/
def itemParts (t : Tree) (env : Env) (item : NodeId) : List (NodeId × Env) :=
  match t.node? item with
  | some (.withItem w) =>
    if w.recursive then
      match t.node? w.query with
      | some (.setOperation operation) =>
        [(operation.left, env), (w.query, .recursive item (qualifiedName w.name) :: env)]
      | _ => []
    else [(w.query, env)]
  | _ => []

theorem itemParts_of_recursive {t : Tree} {item : NodeId} {w : WithItem} {operation : SetOperation}
    (hn : t.node? item = some (.withItem w)) (hrecursive : w.recursive = true)
    (hquery : t.node? w.query = some (.setOperation operation)) (env : Env) :
    t.itemParts env item =
      [(operation.left, env), (w.query, .recursive item (qualifiedName w.name) :: env)] := by
  unfold itemParts
  simp only [hn, hquery, if_pos hrecursive]

theorem itemParts_of_not_recursive {t : Tree} {item : NodeId} {w : WithItem}
    (hn : t.node? item = some (.withItem w)) (hrecursive : ¬ w.recursive = true) (env : Env) :
    t.itemParts env item = [(w.query, env)] := by
  unfold itemParts
  simp only [hn, if_neg hrecursive]

/-- What surrounds the parts behind a WITH item. -/
def itemEnv (t : Tree) (env : Env) (item : NodeId) : Env :=
  match t.node? item with
  | some (.withItem w) => .item item (qualifiedName w.name) :: env
  | _ => env

/-- The parts validated for a WITH query. -/
def withParts (t : Tree) (body : NodeId) (env : Env) : List NodeId → List (NodeId × Env)
  | [] => [(body, env)]
  | item :: rest => t.itemParts env item ++ t.withParts body (t.itemEnv env item) rest

/-- The parts validated for a query, in order. -/
def queryParts (t : Tree) (env : Env) (id : NodeId) : Node → List (NodeId × Env)
  | .select block =>
    (block.sources.flatMap t.sourceQuery).map (·, env) ++
      (block.condition.toList ++ block.items.flatMap Node.itemChild).map (·, .block id :: env)
  | .setOperation operation => [(operation.left, env), (operation.right, env)]
  | .withQuery items body => t.withParts body env items
  | _ => []

/-- The parts validated for an expression, in order. -/
def expressionParts (ops : OperatorTable) (env : Env) : Node → List (NodeId × Env)
  | .cast operand _ _ => [(operand, env)]
  | .call name operands => (ops.visitedOperands name operands).map (·, env)
  | .cursor query => [(query, env)]
  | _ => []

/-- The node is a query whose entries are what they should be: tables and queries in a FROM list,
    WITH items in a WITH list, each recursive one with a set operation. -/
def IsProperQuery (t : Tree) : Node → Prop
  | .select block => ∀ entry ∈ block.sources,
    (∃ name label, t.node? entry = some (.tableRef name label)) ∨
      ∃ query label, t.node? entry = some (.subqueryRef query label)
  | .setOperation _ => True
  | .withQuery items _ => ∀ item ∈ items, ∃ w, t.node? item = some (.withItem w) ∧
    (w.recursive = true → ∃ operation, t.node? w.query = some (.setOperation operation))
  | _ => False

variable {t : Tree} {ops : OperatorTable}

/-- A child of a query or of an entry of one is looked at. -/
theorem visits_of_isClause {p c : NodeId} {node : Node} (hn : t.node? p = some node)
    (hclause : node.isClause = true) (hc : c ∈ node.children) : t.Visits ops p c :=
  ⟨node, hn, by rwa [Node.visited_of_isClause hclause]⟩

/-- A part of a query is a child of a clause: of the query, or of one below it. -/
def PartBelow (ops : OperatorTable) (t : Tree) (q c : NodeId) : Prop :=
  ∃ p node, t.Below ops q p ∧ t.node? p = some node ∧ node.isClause = true ∧ c ∈ node.children

theorem PartBelow.strictlyBelow {q c : NodeId} (h : t.PartBelow ops q c) :
    t.StrictlyBelow ops q c := by
  obtain ⟨p, node, hp, hn, hclause, hc⟩ := h
  exact Relation.TransGen.tail' hp (visits_of_isClause hn hclause hc)

/-- The parts of a WITH item are children of the item or of its query. -/
theorem partBelow_of_mem_itemParts {env env' : Env} {q item c : NodeId}
    (hitem : t.Below ops q item) (h : (c, env') ∈ t.itemParts env item) : t.PartBelow ops q c := by
  unfold itemParts at h
  split at h
  · rename_i w hn
    have hquery : t.PartBelow ops q w.query :=
      ⟨item, _, hitem, hn, rfl, by simp [Node.children]⟩
    split at h
    · split at h
      · rename_i operation hop
        simp only [List.mem_cons, Prod.mk.injEq, List.not_mem_nil, or_false] at h
        rcases h with ⟨rfl, -⟩ | ⟨rfl, -⟩
        · exact ⟨w.query, _, hquery.strictlyBelow.below, hop, rfl, by simp [Node.children]⟩
        · exact hquery
      · cases h
    · simp only [List.mem_singleton, Prod.mk.injEq] at h
      exact h.1 ▸ hquery
  · cases h

theorem partBelow_of_mem_withParts {env env' : Env} {q body c : NodeId} {items : List NodeId}
    (hbody : t.PartBelow ops q body) (hitems : ∀ item ∈ items, t.Below ops q item)
    (h : (c, env') ∈ t.withParts body env items) : t.PartBelow ops q c := by
  induction items generalizing env with
  | nil =>
    simp only [withParts, List.mem_singleton, Prod.mk.injEq] at h
    exact h.1 ▸ hbody
  | cons item rest ih =>
    rcases List.mem_append.mp h with h | h
    · exact partBelow_of_mem_itemParts (hitems item (by simp)) h
    · exact ih (fun i hi => hitems i (by simp [hi])) h

/-- Every part validated for a query is a child of a clause. -/
theorem partBelow_of_mem_queryParts {env env' : Env} {q c : NodeId} {n : Node}
    (hn : t.node? q = some n) (h : (c, env') ∈ t.queryParts env q n) : t.PartBelow ops q c := by
  cases n with
  | select block =>
    simp only [queryParts, List.mem_append, List.mem_map, List.mem_flatMap, Prod.mk.injEq] at h
    rcases h with ⟨x, ⟨entry, hentry, hx⟩, rfl, -⟩ | ⟨x, hx, rfl, -⟩
    -- The query of an entry of the FROM list, or the condition or an item.
    · obtain ⟨label, hsource⟩ := mem_sourceQuery_iff.mp hx
      have hvisit : t.Visits ops q entry :=
        visits_of_isClause hn rfl (by simp [Node.children, hentry])
      exact ⟨entry, _, .single hvisit, hsource, rfl, by simp [Node.children]⟩
    · refine ⟨q, _, .refl, hn, rfl, ?_⟩
      simp only [Node.children, List.mem_append, List.mem_flatMap]
      rcases hx with hx | hx
      · exact .inr hx
      · exact .inl (.inl hx)
  | setOperation operation =>
    simp only [queryParts, List.mem_cons, Prod.mk.injEq, List.not_mem_nil, or_false] at h
    refine ⟨q, _, .refl, hn, rfl, ?_⟩
    rcases h with ⟨rfl, -⟩ | ⟨rfl, -⟩
    · simp [Node.children]
    · simp [Node.children]
  | withQuery items body =>
    refine partBelow_of_mem_withParts ⟨q, _, .refl, hn, rfl, by simp [Node.children]⟩ ?_ h
    intro item hitem
    exact .single (visits_of_isClause hn rfl (by simp [Node.children, hitem]))
  | _ => cases h

/-- The query of a WITH item is one of the parts. -/
theorem mem_withParts_of_item {env : Env} {body item : NodeId} {items : List NodeId}
    (hitem : item ∈ items) {w : WithItem} (hn : t.node? item = some (.withItem w))
    (hrec : w.recursive = true → ∃ operation, t.node? w.query = some (.setOperation operation)) :
    ∃ env', (w.query, env') ∈ t.withParts body env items := by
  induction items generalizing env with
  | nil => cases hitem
  | cons first rest ih =>
    rcases List.mem_cons.mp hitem with rfl | hitem
    · by_cases hr : w.recursive = true
      · obtain ⟨operation, hop⟩ := hrec hr
        exact ⟨.recursive item (qualifiedName w.name) :: env,
          List.mem_append_left _ (by simp [itemParts_of_recursive hn hr hop])⟩
      · exact ⟨env, List.mem_append_left _ (by simp [itemParts_of_not_recursive hn hr])⟩
    · have hrest : ∃ env', (w.query, env') ∈ t.withParts body (t.itemEnv env first) rest := ih hitem
      obtain ⟨env', h⟩ := hrest
      exact ⟨env', List.mem_append_right _ h⟩

theorem mem_withParts_body (t : Tree) (env : Env) (body : NodeId) (items : List NodeId) :
    ∃ env', (body, env') ∈ t.withParts body env items := by
  induction items generalizing env with
  | nil => exact ⟨env, by simp [withParts]⟩
  | cons first rest ih =>
    obtain ⟨env', h⟩ := ih (t.itemEnv env first)
    exact ⟨env', List.mem_append_right _ h⟩

/-- What lies below a proper query is the query or an entry of it, or lies below one of its parts. -/
theorem clause_or_below_part {env : Env} {q x : NodeId} {n : Node} (hn : t.node? q = some n)
    (hproper : t.IsProperQuery n) (h : t.Below ops q x) :
    (∃ node, t.node? x = some node ∧ node.isClause = true) ∨
      ∃ c env', (c, env') ∈ t.queryParts env q n ∧ t.Below ops c x := by
  rcases Relation.ReflTransGen.cases_head h with rfl | ⟨y, ⟨m, hm, hy⟩, hyx⟩
  · refine .inl ⟨n, hn, ?_⟩
    cases n with
    | select | setOperation | withQuery => rfl
    | _ => exact hproper.elim
  rw [hn] at hm
  cases hm
  -- A child of the query is an entry, with at most a part below it, or a part.
  have hentry : ∀ node, t.node? y = some node → node.isClause = true →
      (∀ z ∈ node.children, ∃ env', (z, env') ∈ t.queryParts env q n) →
      (∃ node, t.node? x = some node ∧ node.isClause = true) ∨
        ∃ c env', (c, env') ∈ t.queryParts env q n ∧ t.Below ops c x := by
    intro node hnode hclause hparts
    rcases Relation.ReflTransGen.cases_head hyx with rfl | ⟨z, ⟨m, hm, hz⟩, hzx⟩
    · exact .inl ⟨node, hnode, hclause⟩
    · rw [hnode] at hm
      cases hm
      obtain ⟨env', hpart⟩ := hparts z (Node.mem_children_of_visited hz)
      exact .inr ⟨z, env', hpart, hzx⟩
  cases n with
  | select block =>
    have hy : y ∈ block.items.flatMap Node.itemChild ++ block.sources ++ block.condition.toList := hy
    simp only [List.mem_append] at hy
    rcases hy with (hy | hy) | hy
    · exact .inr ⟨y, _, List.mem_append_right _ (List.mem_map.mpr ⟨y, by simp [hy], rfl⟩), hyx⟩
    · rcases hproper y hy with ⟨name, label, hsource⟩ | ⟨query, label, hsource⟩
      · exact hentry _ hsource rfl fun z hz => absurd hz List.not_mem_nil
      · refine hentry _ hsource rfl fun z hz => ?_
        obtain rfl := List.mem_singleton.mp hz
        refine ⟨env, List.mem_append_left _ (List.mem_map.mpr ⟨z, ?_, rfl⟩)⟩
        exact List.mem_flatMap.mpr ⟨y, hy, mem_sourceQuery_iff.mpr ⟨label, hsource⟩⟩
    · exact .inr ⟨y, _, List.mem_append_right _ (List.mem_map.mpr ⟨y, by simp [hy], rfl⟩), hyx⟩
  | setOperation operation =>
    have hy : y ∈ [operation.left, operation.right] := hy
    refine .inr ⟨y, env, ?_, hyx⟩
    simpa [queryParts] using hy
  | withQuery items body =>
    have hy : y ∈ items ++ [body] := hy
    rcases List.mem_append.mp hy with hy | hy
    · obtain ⟨w, hw, hrec⟩ := hproper y hy
      refine hentry _ hw rfl fun z hz => ?_
      obtain rfl := List.mem_singleton.mp hz
      exact mem_withParts_of_item hy hw hrec
    · obtain rfl := List.mem_singleton.mp hy
      obtain ⟨env', h⟩ := t.mem_withParts_body env y items
      exact .inr ⟨y, env', h, hyx⟩
  | _ => exact hproper.elim

end Tree

end SqlTyping
