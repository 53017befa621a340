import SqlTyping.Proofs.Session.Traversal

namespace SqlTyping

/-!
# Validations that have come to a result

What has been validated on the way, and what the session is afterwards, for each kind of query and for each
part that binds names. Where only a result matters, a run is taken apart by these, and not by its definition:

* `bindSubquery_eq_ok` — a query of a FROM list;
* `recursiveRow_eq_ok`, `bindWithItem_eq_ok`, `withRow_eq_ok` — WITH items and their queries;
* `queryStep_eq_ok`, `selectTail_eq_ok`, `setOperationRow_eq_ok` — queries;
* `lt_size_of_validateQuery` — a statement that is accepted is in the tree.
-/

open Checking

section

variable {v : Visit} {parent scope : ScopeId} {id : NodeId} {row : DataType} {s t : Session}

/-- A query of a FROM list has come to a row type, that of a source of its own, and is bound last. -/
theorem bindSubquery_eq_ok {block entry query : NodeId} {label : String} {x : Unit}
    (h : bindSubquery v parent scope block entry query label s = (.ok x, t)) :
    ∃ row u sources, v.query parent query s = (.ok row, u) ∧
      (u.sources.register entry .query (some block)).2.setRow u.sources.nextId row = .ok sources ∧
        Validation.bindName scope label u.sources.nextId
          { u with sources, types := u.types.put entry row } = (.ok x, t) := by
  obtain ⟨row, u, hquery, h⟩ := bind_eq_ok_iff.mp h
  rw [Host.lift_self] at h
  obtain ⟨source, u₁, hregister, h⟩ := bind_eq_ok_iff.mp h
  cases hregister
  obtain ⟨_, u₂, hsetRow, h⟩ := bind_eq_ok_iff.mp h
  obtain ⟨sources, hset, rfl⟩ := Validation.setRow_eq_ok hsetRow
  obtain ⟨_, u₃, hrecord, hbind⟩ := bind_eq_ok_iff.mp h
  cases hrecord
  exact ⟨row, u, sources, hquery, hset, hbind⟩

/-- The first input of a recursive item has given the view from inside its columns, and then the whole body
    has been validated from a scope that shows this view. -/
theorem recursiveRow_eq_ok {name : String} {item : WithItem}
    (h : recursiveRow v parent id name item s = (.ok row, t)) :
    ∃ operation inside sources anchor u shown sources' scope scopes,
      s.tree.node? item.query = some (.setOperation operation) ∧
        s.sources.selfView id = .ok (inside, sources) ∧
          v.query parent operation.left { s with sources } = (.ok anchor, u) ∧
            renamed name item.columns anchor = .ok shown ∧
              u.sources.setRow inside shown = .ok sources' ∧
                u.scopes.newRecursiveItem parent id name = .ok (scope, scopes) ∧
                  v.query scope item.query { u with sources := sources', scopes } = (.ok row, t) := by
  obtain ⟨node, s₀, hread, h⟩ := bind_eq_ok_iff.mp h
  obtain ⟨rfl, hn⟩ := node_eq_ok hread
  cases node with
  | setOperation operation =>
    obtain ⟨inside, s₁, hview, h⟩ := bind_eq_ok_iff.mp h
    obtain ⟨sources, hselfView, rfl⟩ := Validation.selfView_eq_ok hview
    obtain ⟨anchor, u, hanchor, h⟩ := bind_eq_ok_iff.mp h
    obtain ⟨shown, s₂, hrenamed, h⟩ := bind_eq_ok_iff.mp h
    obtain ⟨hshown, rfl⟩ : renamed name item.columns anchor = .ok shown ∧ u = s₂ :=
      Prod.mk.inj hrenamed
    obtain ⟨_, s₃, hsetRow, h⟩ := bind_eq_ok_iff.mp h
    obtain ⟨sources', hset, rfl⟩ := Validation.setRow_eq_ok hsetRow
    obtain ⟨scope, s₄, hscope, hbody⟩ := bind_eq_ok_iff.mp h
    obtain ⟨scopes, hnew, rfl⟩ := Validation.onScopes_eq_ok hscope
    exact ⟨operation, inside, sources, anchor, u, shown, sources', scope, scopes, hn, hselfView, hanchor,
      hshown, hset, hnew, hbody⟩
  | _ => cases h

/-- A WITH item has got a source of its own, its query has been validated, as a recursive one or not, and the
    source has got the row type of the query under the names of the item; a scope shows it. -/
theorem bindWithItem_eq_ok (h : bindWithItem v parent id s = (.ok scope, t)) :
    ∃ item body u row sources scopes, s.tree.node? id = some (.withItem item) ∧
      (if item.recursive then recursiveRow v parent id (qualifiedName item.name) item
        else v.query parent item.query)
          { s with sources := (s.sources.register id .withItem none).2 } = (.ok body, u) ∧
        renamed (qualifiedName item.name) item.columns body = .ok row ∧
          u.sources.setRow s.sources.nextId row = .ok sources ∧
            u.scopes.newWithItem parent id (qualifiedName item.name) = .ok (scope, scopes) ∧
              t = { u with sources, scopes, types := u.types.put id row } := by
  obtain ⟨node, s₀, hread, h⟩ := bind_eq_ok_iff.mp h
  obtain ⟨rfl, hn⟩ := node_eq_ok hread
  cases node with
  | withItem item =>
    obtain ⟨source, s₁, hregister, h⟩ := bind_eq_ok_iff.mp h
    cases hregister
    have h : ((if item.recursive then recursiveRow v parent id (qualifiedName item.name) item
        else v.query parent item.query) >>= fun body =>
          ofExcept (renamed (qualifiedName item.name) item.columns body) >>= fun row => do
            Validation.setRow s₀.sources.nextId row
            Validation.record id row
            Validation.onScopes (·.newWithItem parent id (qualifiedName item.name)))
          { s₀ with sources := (s₀.sources.register id .withItem none).2 } = (.ok scope, t) := by
      split at h <;> rename_i hrecursive
      · rwa [if_pos hrecursive]
      · rwa [if_neg hrecursive]
    obtain ⟨body, u, hbody, h⟩ := bind_eq_ok_iff.mp h
    obtain ⟨row, u₁, hrenamed, h⟩ := bind_eq_ok_iff.mp h
    obtain ⟨hrow, rfl⟩ : renamed (qualifiedName item.name) item.columns body = .ok row ∧ u = u₁ :=
      Prod.mk.inj hrenamed
    obtain ⟨_, u₂, hsetRow, h⟩ := bind_eq_ok_iff.mp h
    obtain ⟨sources, hset, rfl⟩ := Validation.setRow_eq_ok hsetRow
    obtain ⟨_, u₃, hrecord, h⟩ := bind_eq_ok_iff.mp h
    cases hrecord
    obtain ⟨scopes, hnew, rfl⟩ := Validation.onScopes_eq_ok h
    exact ⟨item, body, u, row, sources, scopes, hn, hbody, hrow, hset, hnew, rfl⟩
  | _ => cases h

/-- A WITH query has come to what its body comes to, in the scope behind its items. -/
theorem withRow_eq_ok {body : NodeId} {items : List NodeId}
    (h : withRow v scope body items s = (.ok row, t)) :
    ∃ behind s', v.query behind body s' = (.ok row, t) := by
  induction items generalizing scope s with
  | nil => exact ⟨scope, s, h⟩
  | cons item rest ih =>
    obtain ⟨next, s', -, hrest⟩ := bind_eq_ok_iff.mp h
    exact ih hrest

/-- The rest of a SELECT is its condition, if it has one, and then its list. -/
theorem selectTail_eq_ok {select : SelectBlock}
    (h : selectTail v scope select s = (.ok row, t)) :
    ∃ columns s', (match select.condition with
      | none => s' = s
      | some condition => ∃ type, v.expression scope condition s = (.ok type, s')) ∧
      selectColumns v scope [] 0 select.items s' = (.ok columns, t) ∧ row = .row columns := by
  unfold selectTail at h
  cases hcondition : select.condition with
  | none =>
    rw [hcondition] at h
    obtain ⟨columns, u, hcolumns, hrow⟩ := bind_eq_ok_iff.mp h
    cases hrow
    exact ⟨columns, s, rfl, hcolumns, rfl⟩
  | some condition =>
    rw [hcondition] at h
    obtain ⟨type, s', hrun, h⟩ := bind_eq_ok_iff.mp h
    obtain ⟨columns, u, hcolumns, hrow⟩ := bind_eq_ok_iff.mp h
    cases hrow
    exact ⟨columns, s', ⟨type, hrun⟩, hcolumns, rfl⟩

/-- A set operation has come to the union of what its inputs have come to. -/
theorem setOperationRow_eq_ok {operation : SetOperation}
    (h : setOperationRow v scope operation s = (.ok row, t)) :
    ∃ left right s', v.query scope operation.left s = (.ok left, s') ∧
      v.query scope operation.right s' = (.ok right, t) ∧
        unionRow operation.name left right = .ok row := by
  obtain ⟨left, s', hleft, hrest⟩ := bind_eq_ok_iff.mp h
  obtain ⟨right, s'', hright, hrest⟩ := bind_eq_ok_iff.mp hrest
  obtain ⟨hunion, rfl⟩ := Prod.mk.inj hrest
  exact ⟨left, right, s', hleft, hright, hunion⟩

/-- A query that has been validated has come to the row type of its node, which is recorded. -/
theorem queryStep_eq_ok (h : queryStep v scope id s = (.ok row, t)) :
    ∃ node u, s.tree.node? id = some node ∧ queryRow v scope id node s = (.ok row, u) ∧
      t = { u with types := u.types.put id row } := by
  obtain ⟨node, s', hread, hrest⟩ := bind_eq_ok_iff.mp h
  obtain ⟨rfl, hn⟩ := node_eq_ok hread
  obtain ⟨found, u, hrow, hrest⟩ := bind_eq_ok_iff.mp hrest
  cases hrest
  exact ⟨node, u, hn, hrow, rfl⟩

/-- A statement that is accepted is in the tree. -/
theorem lt_size_of_validateQuery (h : Session.validateQuery id s = (.ok row, t)) :
    id.index < s.tree.size := by
  obtain ⟨node, u, hn, -⟩ := queryStep_eq_ok (v := visitAt s.tree.size) h
  exact Tree.lt_size_of_node? hn

end

end SqlTyping
