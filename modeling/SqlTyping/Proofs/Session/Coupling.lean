import SqlTyping.Proofs.Mirroring
import SqlTyping.Proofs.Session.Rewriting
import SqlTyping.Proofs.Tree.Renumbering

namespace SqlTyping

/-!
# Two statements of which the same is looked at

Two validations go through statements that agree in all that validation looks at. What is a keyword of a
call may differ, and so may the numbers of the nodes that are added:

* `Coupling` — how the two statements and the types found in them stand to each other, and that this
  stays so when both are changed in the same way;
* `Session.Couples` — two sessions that agree but for their statements, which a coupling relates;
* `Session.Couples.record`, `Session.Couples.register` and so on — they do so after the same change;
* `Visit.Couples` — what lies below a node is validated alike;
* `Visit.Couples.queryStep` — then so is a query.
-/

/-- One node in the two statements. In the second one it refers to nodes by the numbers that `f` gives,
    but the keywords of a call may be any that `spare` relates. -/
inductive Node.Couples (ops : OperatorTable) (f : NodeId → NodeId) (spare : NodeId → NodeId → Prop) :
    Node → Node → Prop
  | other {n : Node} (h : n.operands? = none) : Couples ops f spare n (n.renumber f)
  | call {name : String} {operands operands' : List NodeId}
    (hlength : operands'.length = operands.length)
    (hseen : ∀ op, ops.lookup? name = some op → ∀ index operand operand',
      operands[index]? = some operand → operands'[index]? = some operand' →
        op.signature.isKeyword index = false → operand' = f operand)
    (hspare : ∀ op, ops.lookup? name = some op → ∀ index operand operand',
      operands[index]? = some operand → operands'[index]? = some operand' →
        op.signature.isKeyword index = true → spare operand operand') :
    Couples ops f spare (.call name operands) (.call name operands')

/-- A node is the same as itself when its children keep their numbers. -/
theorem Node.Couples.refl {ops : OperatorTable} {f : NodeId → NodeId} {spare : NodeId → NodeId → Prop}
    {n : Node} (hf : ∀ x ∈ n.children, f x = x) (hspare : ∀ x ∈ n.children, spare x x) :
    Node.Couples ops f spare n n := by
  cases hcall : n.operands? with
  | none =>
    have hother : Node.Couples ops f spare n (n.renumber f) := .other hcall
    rwa [Node.renumber_eq_self hf] at hother
  | some operands =>
    cases n with
    | call name operands =>
      have hsame : ∀ {index : Nat} {a b : NodeId}, operands[index]? = some a → operands[index]? = some b →
          b = a ∧ a ∈ operands := fun ha hb =>
        ⟨Option.some.inj (hb.symm.trans ha), List.mem_of_getElem? ha⟩
      refine .call rfl (fun _ _ index a b ha hb _ => ?_) fun _ _ index a b ha hb _ => ?_
      · obtain ⟨rfl, hmem⟩ := hsame ha hb
        exact (hf b hmem).symm
      · obtain ⟨rfl, hmem⟩ := hsame ha hb
        exact hspare b hmem
    | _ => cases hcall

/-- How two statements under validation stand to each other, and the types that have been found in
    them. The first one started as `before`, and it is looked at nodes that it `sees`. -/
structure Coupling where
  before : Tree
  operators : OperatorTable
  sees : NodeId → Prop
  /-- A number that gets smaller downwards. -/
  rank : NodeId → Nat
  shift : Shift
  /-- Keywords of the one and of the other statement in the same place. -/
  spare : NodeId → NodeId → Prop
  trees : Tree → Tree → Prop
  types : OrderedMap NodeId DataType → OrderedMap NodeId DataType → Prop
  closed : before.NoDangling
  acyclic : ∀ a, ¬ Relation.TransGen before.Child a a
  rank_lt : ∀ p a, before.Child p a → rank a < rank p
  start : shift.start = before.size
  lt_size : ∀ a, sees a → a.index < before.size
  visits : ∀ p a, sees p → before.Visits operators p a → sees a
  nextId : ∀ {t t'}, trees t t' → shift.node t.nextId = t'.nextId
  size_le : ∀ {t t'}, trees t t' → t.size ≤ t'.size
  node : ∀ {t t' id}, trees t t' → sees id ∨ before.size ≤ id.index →
    Option.Rel (Node.Couples operators shift.node spare) (t.node? id) (t'.node? (shift.node id))
  isDefault_spare : ∀ {t t' operand operand'}, trees t t' → spare operand operand' →
    (t'.node? operand').any Node.isDefault = (t.node? operand).any Node.isDefault
  push_default : ∀ {t t'}, trees t t' → trees (t.push .default) (t'.push .default)
  /-- A cast is put around an operand that is no keyword. -/
  insertCast : ∀ {t t' call name operands op index tree} (operand : NodeId) (target : CastTarget),
    trees t t' → sees call → t.node? call = some (.call name operands) →
    operators.lookup? name = some op → op.signature.isKeyword index = false →
    (t.pushCast operand target true).replaceOperand? call index t.nextId = some tree →
    ∃ tree', (t'.pushCast (shift.node operand) target true).replaceOperand? call index t'.nextId =
      some tree' ∧ trees tree tree'
  get? : ∀ {a b id}, types a b → sees id ∨ before.size ≤ id.index →
    b.get? (shift.node id) = a.get? id
  put : ∀ {a b id} (type : DataType), types a b → sees id ∨ before.size ≤ id.index →
    types (a.put id type) (b.put (shift.node id) type)

/-- The node is one that the coupling sees, or it has been added. -/
def Coupling.Knows (c : Coupling) (id : NodeId) : Prop := c.sees id ∨ c.before.size ≤ id.index

/-- The node is seen, and `depth` goes beyond all nodes below it. -/
abbrev Coupling.HasRoom (c : Coupling) (depth : Nat) (id : NodeId) : Prop :=
  Tree.HasRoom c.sees c.rank depth id

/-- The node is around one that there is room for, or a placeholder. -/
def Coupling.IsPart (c : Coupling) (depth : Nat) (t : Tree) (id : NodeId) : Prop :=
  (∃ a, c.HasRoom depth a ∧ Tree.Wraps c.before t a id) ∨
    (1 ≤ depth ∧ c.before.size ≤ id.index ∧ t.node? id = some .default)

/-- The sessions agree but for their statements, and the statement of the first one has been rewritten
    since it was `past`. -/
structure Session.Couples (c : Coupling) (past : Tree) (s t : Session) : Prop where
  settings : t.settings = s.settings
  operators : s.operators = c.operators
  operators' : t.operators = c.operators
  engine : s.engine = .implicitCasts
  engine' : t.engine = .implicitCasts
  scopes : t.scopes = s.scopes
  sources : t.sources = s.sources
  selfReferences : t.selfReferences = s.selfReferences
  requests : t.requests = s.requests
  trees : c.trees s.tree t.tree
  types : c.types s.types t.types
  since : s.RewritesSince c.before past

open Checking

variable {c : Coupling} {past : Tree} {s t : Session} {v v' : Visit} {depth : Nat} {scope : ScopeId}
  {a id : NodeId}

/-- With `depth` left, the second visit does for what is seen below a node what the first one does. -/
structure Visit.Couples (c : Coupling) (depth : Nat) (v v' : Visit) : Prop where
  query : ∀ {past s t} scope a, Session.Couples c past s t → c.HasRoom depth a →
    EndAlike (Session.Couples c past) Eq s t (v.query scope a) (v'.query scope a)
  expression : ∀ {past s t} scope id, Session.Couples c past s t → c.IsPart depth s.tree id →
    EndAlike (Session.Couples c past) Eq s t (v.expression scope id)
      (v'.expression scope (c.shift.node id))

/-! ### Nodes -/

namespace Coupling

theorem node_eq (h : c.sees a) : c.shift.node a = a := by
  refine Shift.node_of_lt ?_
  rw [c.start]
  exact c.lt_size a h

/-- One step down takes one off the depth that is needed. -/
theorem below (h : c.HasRoom (depth + 1) a) (hv : c.before.Visits c.operators a id) :
    c.HasRoom depth id := by
  have hless := c.rank_lt a id hv.child
  have hroom := h.2
  exact ⟨c.visits a id h.1 hv, by omega⟩

theorem child (h : c.HasRoom depth a) (hv : c.before.Visits c.operators a id) :
    c.HasRoom depth id := by
  have hless := c.rank_lt a id hv.child
  have hroom := h.2
  exact ⟨c.visits a id h.1 hv, by omega⟩

theorem HasRoom.isPart {t : Tree} (h : c.HasRoom depth a) : c.IsPart depth t a := .inl ⟨a, h, .self⟩

theorem HasRoom.knows (h : c.HasRoom depth a) : c.Knows a := .inl h.1

/-- A part stays one while nodes are added. -/
theorem IsPart.mono {t t' : Tree} (h : c.IsPart depth t id) (hk : Tree.KeepsAdded c.before t t') :
    c.IsPart depth t' id := by
  rcases h with ⟨a, ha, hw⟩ | ⟨hdepth, hnew, hn⟩
  · exact .inl ⟨a, ha, hw.mono hk⟩
  · exact .inr ⟨hdepth, hnew, (hk.node? id hnew (Tree.lt_size_of_node? hn)).trans hn⟩

theorem IsPart.knows {t : Tree} (h : c.IsPart depth t id) : c.Knows id := by
  rcases h with ⟨a, ha, hw⟩ | ⟨-, hnew, -⟩
  · cases hw with
    | self => exact .inl ha.1
    | cast hnew => exact .inr hnew
  · exact .inr hnew

end Coupling

/-! ### The same change to both sessions -/

namespace Session.Couples

variable (h : s.Couples c past t)

include h

theorem rewrites : s.Rewrites c.before := h.since.1

theorem record (hid : c.Knows id) (type : DataType) :
    EndAlike (Session.Couples c past) Eq s t (Validation.record id type)
      (Validation.record (c.shift.node id) type) :=
  .update { h with types := c.put type h.types hid, since := ⟨⟨h.since.1.1, h.since.1.2⟩, h.since.2⟩ }

theorem recordSeen (ha : c.sees a) (type : DataType) :
    EndAlike (Session.Couples c past) Eq s t (Validation.record a type)
      (Validation.record a type) := by
  have hrecord := h.record (.inl ha) type
  rwa [c.node_eq ha] at hrecord

theorem withScopes (scopes : ScopeTree) :
    Session.Couples c past { s with scopes } { t with scopes } :=
  { h with scopes := rfl, since := ⟨⟨h.since.1.1, h.since.1.2⟩, h.since.2⟩ }

theorem withSources (sources : RowSources) :
    Session.Couples c past { s with sources } { t with sources } :=
  { h with sources := rfl, since := ⟨⟨h.since.1.1, h.since.1.2⟩, h.since.2⟩ }

theorem withReferences (selfReferences : List (NodeId × SourceId)) :
    Session.Couples c past { s with selfReferences } { t with selfReferences } :=
  { h with selfReferences := rfl, since := ⟨⟨h.since.1.1, h.since.1.2⟩, h.since.2⟩ }

theorem withRequests (requests : List CoercionRequest) :
    Session.Couples c past { s with requests } { t with requests } :=
  { h with requests := rfl, since := ⟨⟨h.since.1.1, h.since.1.2⟩, h.since.2⟩ }

theorem onScopes {α : Type} (change : ScopeTree → Except Fault (α × ScopeTree)) :
    EndAlike (Session.Couples c past) Eq s t (Validation.onScopes change)
      (Validation.onScopes change) := by
  cases hchange : change s.scopes with
  | error e =>
    have hx : Validation.onScopes change s = (.error e, s) := by
      simp only [Validation.onScopes, hchange]
    have hy : Validation.onScopes change t = (.error e, t) := by
      simp only [Validation.onScopes, h.scopes, hchange]
    exact .stop hx hy h
  | ok found =>
    have hx : Validation.onScopes change s = (.ok found.1, { s with scopes := found.2 }) := by
      simp only [Validation.onScopes, hchange]
    have hy : Validation.onScopes change t = (.ok found.1, { t with scopes := found.2 }) := by
      simp only [Validation.onScopes, h.scopes, hchange]
    exact .ok hx hy rfl (h.withScopes found.2)

theorem register (node : NodeId) (kind : SourceKind) (enclosing : Option NodeId) :
    EndAlike (Session.Couples c past) Eq s t (Validation.register node kind enclosing)
      (Validation.register node kind enclosing) := by
  have hy : Validation.register node kind enclosing t =
      (.ok (s.sources.register node kind enclosing).1,
        { t with sources := (s.sources.register node kind enclosing).2 }) := by
    simp only [Validation.register, h.sources]
  exact .ok rfl hy rfl (h.withSources _)

theorem selfView (item : NodeId) :
    EndAlike (Session.Couples c past) Eq s t (Validation.selfView item) (Validation.selfView item) := by
  have hx := Validation.selfView_apply item s
  have hy := Validation.selfView_apply item t
  rw [h.sources] at hy
  cases hview : s.sources.selfView item with
  | error e =>
    rw [hview] at hx hy
    exact .stop hx hy h
  | ok found =>
    rw [hview] at hx hy
    exact .ok hx hy rfl (h.withSources found.2)

theorem setRow (source : SourceId) (row : DataType) :
    EndAlike (Session.Couples c past) Eq s t (Validation.setRow source row)
      (Validation.setRow source row) := by
  have hx := Validation.setRow_apply source row s
  have hy := Validation.setRow_apply source row t
  rw [h.sources] at hy
  cases hset : s.sources.setRow source row with
  | error e =>
    rw [hset] at hx hy
    exact .stop hx hy h
  | ok sources =>
    rw [hset] at hx hy
    exact .ok hx hy rfl (h.withSources sources)

/-- A column reference has the same type. -/
theorem referenceType (scope : ScopeId) (names : List String) :
    t.referenceType scope names = s.referenceType scope names := by
  have hcatalog : t.isCatalog = s.isCatalog := by
    funext scope
    unfold Session.isCatalog
    rw [h.scopes]
  have hcolumn : t.columnType names = s.columnType names := by
    funext found
    unfold Session.columnType
    rw [h.sources, h.settings]
  unfold Session.referenceType Session.qualifiedType
  rw [h.scopes, h.sources, h.settings, hcatalog, hcolumn]

/-- A node that is seen and is no call is the same in both. -/
theorem node?_eq {n : Node} (ha : c.sees a) (hn : s.tree.node? a = some n)
    (hcall : n.operands? = none) : c.before.node? a = some n ∧ t.tree.node? a = some n := by
  have hwritten := h.rewrites.rewritten.node?_eq (c.lt_size a ha) hn hcall
  have hnode := c.node h.trees (.inl ha)
  rw [c.node_eq ha, hn] at hnode
  refine ⟨hwritten, ?_⟩
  generalize t.tree.node? a = n' at hnode
  cases hnode with
  | some hcouples =>
    cases hcouples with
    | call => cases hcall
    | other =>
      refine congrArg some (Node.renumber_eq_self fun x hx => c.node_eq (c.visits a x ha ?_))
      refine ⟨n, hwritten, ?_⟩
      cases n with
      | call => cases hcall
      | _ => exact hx

/-- A node is read. When it is no call, it is the same in both. -/
theorem readNode {α β : Type} {Q : α → β → Prop} {f : Node → Validation α} {g : Node → Validation β}
    (ha : c.sees a) (hcall : ∀ name operands, s.tree.node? a = some (.call name operands) →
      ∀ operands', t.tree.node? a = some (.call name operands') →
        EndAlike (Session.Couples c past) Q s t (f (.call name operands)) (g (.call name operands')))
    (hfg : ∀ n, n.operands? = none → c.before.node? a = some n → s.tree.node? a = some n →
      EndAlike (Session.Couples c past) Q s t (f n) (g n)) :
    EndAlike (Session.Couples c past) Q s t (Validation.node a >>= f) (Validation.node a >>= g) := by
  have hlt := Nat.lt_of_lt_of_le (c.lt_size a ha) h.rewrites.rewritten.size_le
  obtain ⟨n, hn⟩ := Option.isSome_iff_exists.mp (Tree.isSome_node?_iff.mpr hlt)
  have hread : ∀ n', t.tree.node? a = some n' → EndAlike (Session.Couples c past) Q s t (f n) (g n') →
      EndAlike (Session.Couples c past) Q s t (Validation.node a >>= f) (Validation.node a >>= g) :=
    fun n' hn' hend => hend.of_apply (bind_of_ok (node_of_some hn) f) (bind_of_ok (node_of_some hn') g)
  cases n with
  | call name operands =>
    have hnode := c.node h.trees (.inl ha)
    rw [c.node_eq ha, hn] at hnode
    generalize hn' : t.tree.node? a = n' at hnode
    cases hnode with
    | some hcouples =>
      cases hcouples with
      | other hother => cases hother
      | call => exact hread _ hn' (hcall name operands hn _ hn')
  | _ =>
    obtain ⟨hwritten, hn'⟩ := h.node?_eq ha hn rfl
    exact hread _ hn' (hfg _ rfl hwritten hn)

/-- A clause is read, which a call is not. -/
theorem readClause {α β : Type} {Q : α → β → Prop} {f : Node → Validation α}
    {g : Node → Validation β} (ha : c.sees a)
    (hcall : ∀ name operands, ∃ e : Fault, f (.call name operands) = Checking.fail e ∧
      ∀ operands', g (.call name operands') = Checking.fail e)
    (hfg : ∀ n, c.before.node? a = some n → EndAlike (Session.Couples c past) Q s t (f n) (g n)) :
    EndAlike (Session.Couples c past) Q s t (Validation.node a >>= f) (Validation.node a >>= g) := by
  refine h.readNode ha (fun name operands _ operands' _ => ?_) fun n _ hn _ => hfg n hn
  obtain ⟨e, hf, hg⟩ := hcall name operands
  rw [hf, hg]
  exact .fail h

/-- A table that has been found is shown. -/
theorem exposeTable (ha : c.sees a) (scope : ScopeId) (name : List String) (label : Option String)
    (row : Option DataType) (source : SourceId) :
    EndAlike (Session.Couples c past) Eq s t (SqlTyping.exposeTable scope a name label row source)
      (SqlTyping.exposeTable scope a name label row source) := by
  unfold SqlTyping.exposeTable
  split
  · exact .fail h
  · split
    · exact (h.recordSeen ha _).bind fun _ _ s' t' _ _ h' => h'.onScopes _
    · exact h.onScopes _

/-- A table of a FROM list is bound. -/
theorem bindTable (ha : c.sees a) (parent scope : ScopeId) (name : List String)
    (label : Option String) :
    EndAlike (Session.Couples c past) Eq s t (SqlTyping.bindTable parent scope a name label)
      (SqlTyping.bindTable parent scope a name label) := by
  rw [bindTable_eq]
  refine .state_bind ?_
  rw [h.scopes, h.settings, h.sources]
  refine .ofExcept_eq_bind h fun found => .ite (fun _ => .fail h) fun _ => .ite (fun _ => ?_) fun _ =>
    h.exposeTable ha scope name label _ _
  have hnoted := h.withReferences (s.selfReferences ++ [(a, found.source)])
  have hupdate : EndAlike (Session.Couples c past) Eq s t
      (Checking.update fun s : Session =>
        { s with selfReferences := s.selfReferences ++ [(a, found.source)] })
      (Checking.update fun s : Session =>
        { s with selfReferences := s.selfReferences ++ [(a, found.source)] }) := by
    refine .update ?_
    rw [h.selfReferences]
    exact hnoted
  exact hupdate.bind fun _ _ s' t' _ _ h' => h'.exposeTable ha scope name label _ _

end Session.Couples

/-! ### Queries -/

namespace Visit.Couples

variable (hv : Visit.Couples c depth v v') (h : s.Couples c past t)

include hv h

/-- An expression as it was written keeps its number. -/
theorem expressionSeen (ha : c.HasRoom depth a) (scope : ScopeId) :
    EndAlike (Session.Couples c past) Eq s t (v.expression scope a) (v'.expression scope a) := by
  have hexpression := hv.expression scope a h ha.isPart
  rwa [c.node_eq ha.1] at hexpression

/-- A query of a FROM list is bound. -/
theorem bindSubquery {entry query : NodeId} (hentry : c.sees entry) (hquery : c.HasRoom depth query)
    (parent scope : ScopeId) (block : NodeId) (label : String) :
    EndAlike (Session.Couples c past) Eq s t
      (SqlTyping.bindSubquery v parent scope block entry query label)
      (SqlTyping.bindSubquery v' parent scope block entry query label) := by
  refine (hv.query parent query h hquery).bind fun row _ s₁ t₁ _ heq h₁ => ?_
  subst heq
  rw [Host.lift_self]
  refine (h₁.register entry .query (some block)).bind fun source _ s₂ t₂ _ heq h₂ => ?_
  subst heq
  refine (h₂.setRow source row).bind fun _ _ s₃ t₃ _ _ h₃ => ?_
  exact (h₃.recordSeen hentry row).bind fun _ _ s₄ t₄ _ _ h₄ => h₄.onScopes _

/-- An entry of a FROM list is bound. -/
theorem bindSource {entry : NodeId} (hentry : c.HasRoom depth entry) (parent scope : ScopeId)
    (block : NodeId) :
    EndAlike (Session.Couples c past) Eq s t (SqlTyping.bindSource v parent scope block entry)
      (SqlTyping.bindSource v' parent scope block entry) := by
  refine h.readClause hentry.1 (fun name operands => ⟨_, rfl, fun _ => rfl⟩) fun n hn => ?_
  cases n with
  | tableRef name label => exact h.bindTable hentry.1 parent scope name label
  | subqueryRef query label =>
    have hquery := c.child hentry (Tree.visits_of_isClause hn rfl (c := query) (by simp [Node.children]))
    exact hv.bindSubquery h hentry.1 hquery parent scope block label
  | _ => exact .fail h

/-- All entries of a FROM list are bound. -/
theorem bindSources {sources : List NodeId} (hsources : ∀ entry ∈ sources, c.HasRoom depth entry)
    (parent scope : ScopeId) (block : NodeId) :
    EndAlike (Session.Couples c past) Eq s t
      (sources.forM (SqlTyping.bindSource v parent scope block))
      (sources.forM (SqlTyping.bindSource v' parent scope block)) := by
  induction sources generalizing s t with
  | nil => exact .pure h rfl
  | cons entry rest ih =>
    exact (hv.bindSource h (hsources entry (List.mem_cons_self ..)) parent scope block).bind
      fun _ _ s₁ t₁ _ _ h₁ => ih h₁ fun e he => hsources e (List.mem_cons_of_mem _ he)

/-- An entry of a SELECT list has the same columns. -/
theorem itemColumns {item : SelectItem} (hitem : ∀ a ∈ Node.itemChild item, c.HasRoom depth a)
    (scope : ScopeId) (columns : Columns) (place : Nat) :
    EndAlike (Session.Couples c past) Eq s t (SqlTyping.itemColumns v scope columns place item)
      (SqlTyping.itemColumns v' scope columns place item) := by
  cases item with
  | star =>
    refine .state_bind (.pure h ?_)
    rw [h.scopes, h.sources]
  | expression a label =>
    have ha := hitem a (by simp [Node.itemChild])
    refine (hv.expressionSeen h ha scope).bind fun type _ s₁ t₁ _ heq h₁ => ?_
    subst heq
    refine h₁.readNode ha.1 (fun name operands _ operands' _ => .pure h₁ ?_) fun n _ _ _ => .pure h₁ rfl
    -- A call is not named after its operands.
    cases label with
    | none => rfl
    | some _ => rfl

theorem selectColumns {items : List SelectItem}
    (hitems : ∀ a ∈ items.flatMap Node.itemChild, c.HasRoom depth a) (scope : ScopeId)
    (columns : Columns) (place : Nat) :
    EndAlike (Session.Couples c past) Eq s t (SqlTyping.selectColumns v scope columns place items)
      (SqlTyping.selectColumns v' scope columns place items) := by
  induction items generalizing s t columns place with
  | nil => exact .pure h rfl
  | cons item rest ih =>
    rw [List.flatMap_cons] at hitems
    refine (hv.itemColumns h (fun a ha => hitems a (List.mem_append_left _ ha)) scope columns
      place).bind fun columns _ s₁ t₁ _ heq h₁ => ?_
    subst heq
    exact ih h₁ (fun a ha => hitems a (List.mem_append_right _ ha)) columns (place + 1)

/-- The condition and the columns of a SELECT are the same. -/
theorem selectTail {block : SelectBlock}
    (hchild : ∀ a ∈ block.condition.toList ++ block.items.flatMap Node.itemChild, c.HasRoom depth a)
    (scope : ScopeId) :
    EndAlike (Session.Couples c past) Eq s t (SqlTyping.selectTail v scope block)
      (SqlTyping.selectTail v' scope block) := by
  have hcolumns : ∀ s' t', Session.Couples c past s' t' → EndAlike (Session.Couples c past) Eq s' t' (do
        let columns ← SqlTyping.selectColumns v scope [] 0 block.items
        Pure.pure (DataType.row columns) : Validation DataType) (do
        let columns ← SqlTyping.selectColumns v' scope [] 0 block.items
        Pure.pure (DataType.row columns)) := fun s' t' h' =>
    (hv.selectColumns h' (fun a ha => hchild a (List.mem_append_right _ ha)) scope [] 0).bind
      fun _ _ s'' t'' _ heq h'' => .pure h'' (heq ▸ rfl)
  unfold SqlTyping.selectTail
  cases hcondition : block.condition with
  | none => exact hcolumns s t h
  | some condition =>
    have ha := hchild condition (by simp [hcondition])
    exact (hv.expressionSeen h ha scope).bind fun _ _ s' t' _ _ h' => hcolumns s' t' h'

/-- A SELECT has the same row type. -/
theorem selectRow {block : SelectBlock}
    (hchild : ∀ a ∈ (Node.select block).children, c.HasRoom depth a) (parent : ScopeId)
    (select : NodeId) :
    EndAlike (Session.Couples c past) Eq s t (SqlTyping.selectRow v parent select block)
      (SqlTyping.selectRow v' parent select block) := by
  simp only [Node.children, List.mem_append] at hchild
  rw [selectRow_eq, selectRow_eq]
  refine (h.onScopes _).bind fun scope _ s₁ t₁ _ heq h₁ => ?_
  subst heq
  refine (hv.bindSources h₁ (fun entry hentry => hchild entry (.inl (.inr hentry))) parent scope
    select).bind fun _ _ s₂ t₂ _ _ h₂ => ?_
  refine hv.selectTail h₂ (fun a ha => ?_) scope
  rcases List.mem_append.mp ha with ha | ha
  · exact hchild a (.inr ha)
  · exact hchild a (.inl (.inl ha))

/-- A set operation has the same row type. -/
theorem setOperationRow {operation : SetOperation}
    (hchild : ∀ a ∈ (Node.setOperation operation).children, c.HasRoom depth a) (scope : ScopeId) :
    EndAlike (Session.Couples c past) Eq s t (SqlTyping.setOperationRow v scope operation)
      (SqlTyping.setOperationRow v' scope operation) := by
  refine (hv.query scope _ h (hchild operation.left (by simp [Node.children]))).bind
    fun left _ s₁ t₁ _ heq h₁ => ?_
  subst heq
  refine (hv.query scope _ h₁ (hchild operation.right (by simp [Node.children]))).bind
    fun right _ s₂ t₂ _ heq h₂ => ?_
  subst heq
  exact .ofExcept_eq h₂ _

/-- A recursive item has the same row type. -/
theorem recursiveRow {item : WithItem} (hquery : c.HasRoom depth item.query) (parent : ScopeId)
    (id : NodeId) (name : String) :
    EndAlike (Session.Couples c past) Eq s t (SqlTyping.recursiveRow v parent id name item)
      (SqlTyping.recursiveRow v' parent id name item) := by
  refine h.readClause hquery.1 (fun _ _ => ⟨_, rfl, fun _ => rfl⟩) fun n hn => ?_
  cases n with
  | setOperation operation =>
    have hleft := c.child hquery
      (Tree.visits_of_isClause hn rfl (c := operation.left) (by simp [Node.children]))
    refine (h.selfView id).bind fun view _ s₁ t₁ _ heq h₁ => ?_
    subst heq
    refine (hv.query parent _ h₁ hleft).bind fun anchor _ s₂ t₂ _ heq h₂ => ?_
    subst heq
    refine .ofExcept_eq_bind h₂ fun row => ?_
    refine (h₂.setRow view row).bind fun _ _ s₃ t₃ _ _ h₃ => ?_
    refine (h₃.onScopes _).bind fun scope _ s₄ t₄ _ heq h₄ => ?_
    subst heq
    exact hv.query scope _ h₄ hquery
  | _ => exact .fail h

/-- A WITH item is shown by the same scope. -/
theorem bindWithItem {id : NodeId} (hid : c.HasRoom depth id) (parent : ScopeId) :
    EndAlike (Session.Couples c past) Eq s t (SqlTyping.bindWithItem v parent id)
      (SqlTyping.bindWithItem v' parent id) := by
  refine h.readClause hid.1 (fun _ _ => ⟨_, rfl, fun _ => rfl⟩) fun n hn => ?_
  cases n with
  | withItem item =>
    have hquery := c.child hid
      (Tree.visits_of_isClause hn rfl (c := item.query) (by simp [Node.children]))
    refine (h.register id .withItem none).bind fun source _ s₁ t₁ _ heq h₁ => ?_
    subst heq
    have hrest : ∀ body s' t', Session.Couples c past s' t' →
        EndAlike (Session.Couples c past) Eq s' t' (do
          let row ← Checking.ofExcept (renamed (qualifiedName item.name) item.columns body)
          Validation.setRow source row
          Validation.record id row
          Validation.onScopes (·.newWithItem parent id (qualifiedName item.name)) :
            Validation ScopeId) (do
          let row ← Checking.ofExcept (renamed (qualifiedName item.name) item.columns body)
          Validation.setRow source row
          Validation.record id row
          Validation.onScopes (·.newWithItem parent id (qualifiedName item.name))) := by
      intro body s' t' h'
      refine .ofExcept_eq_bind h' fun row => ?_
      refine (h'.setRow source row).bind fun _ _ s₂ t₂ _ _ h₂ => ?_
      exact (h₂.recordSeen hid.1 row).bind fun _ _ s₃ t₃ _ _ h₃ => h₃.onScopes _
    refine .ite (fun _ => ?_) fun _ => ?_
    · exact (hv.recursiveRow h₁ hquery parent id _).bind fun body _ s' t' _ heq h' =>
        heq ▸ hrest body s' t' h'
    · exact (hv.query parent _ h₁ hquery).bind fun body _ s' t' _ heq h' =>
        heq ▸ hrest body s' t' h'
  | _ => exact .fail h

/-- A WITH query has the same row type. -/
theorem withRow {body : NodeId} (hbody : c.HasRoom depth body) {items : List NodeId}
    (hitems : ∀ item ∈ items, c.HasRoom depth item) (scope : ScopeId) :
    EndAlike (Session.Couples c past) Eq s t (SqlTyping.withRow v scope body items)
      (SqlTyping.withRow v' scope body items) := by
  induction items generalizing s t scope with
  | nil => exact hv.query scope body h hbody
  | cons item rest ih =>
    refine (hv.bindWithItem h (hitems item (List.mem_cons_self ..)) scope).bind
      fun inner _ s₁ t₁ _ heq h₁ => ?_
    subst heq
    exact ih h₁ (fun i hi => hitems i (List.mem_cons_of_mem _ hi)) inner

/-- A query is validated alike when what lies below it is. -/
theorem queryStep (ha : c.HasRoom (depth + 1) a) (scope : ScopeId) :
    EndAlike (Session.Couples c past) Eq s t (SqlTyping.queryStep v scope a)
      (SqlTyping.queryStep v' scope a) := by
  refine h.readClause ha.1 (fun name operands => ⟨_, rfl, fun _ => rfl⟩) fun n hn => ?_
  have hchild : n.isClause = true → ∀ x ∈ n.children, c.HasRoom depth x := fun hclause x hx =>
    c.below ha (Tree.visits_of_isClause hn hclause hx)
  have hrow : EndAlike (Session.Couples c past) Eq s t (queryRow v scope a n)
      (queryRow v' scope a n) := by
    cases n with
    | select block => exact hv.selectRow h (hchild rfl) scope a
    | setOperation operation => exact hv.setOperationRow h (hchild rfl) scope
    | withQuery items body =>
      exact hv.withRow h (hchild rfl body (by simp [Node.children]))
        (fun item hitem => hchild rfl item (by simp [Node.children, hitem])) scope
    | _ => exact .fail h
  refine hrow.bind fun row _ s₁ t₁ _ heq h₁ => ?_
  subst heq
  exact (h₁.recordSeen ha.1 row).bind fun _ _ s₂ t₂ _ _ h₂ => .pure h₂ rfl

end Visit.Couples

end SqlTyping
