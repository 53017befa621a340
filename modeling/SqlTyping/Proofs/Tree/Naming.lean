import SqlTyping.Proofs.Tree.Skeleton
import SqlTyping.Scope.Lookup

namespace SqlTyping

/-!
# What the tables of a statement stand for

A table name in a FROM list stands for what the innermost frame around it shows under that name:

* `Referent` — a table of the catalog, a query of a FROM list, a WITH item, or a recursive WITH item
  as its own body sees it;
* `Naming.referent?` — the referent of a name in an environment, found without any validation;
* `Naming.referent?_recursive` — making a recursive item visible changes no other referents than
  those that become the item itself;
* `Naming.exists_namer` — a name that stands for the item itself does so because some FROM entry
  around it is spelled like the item and nothing hides it there;
* `Tree.Encloses` — the frames of an environment are around a node.
-/

/-- What a table name can stand for. -/
inductive Referent where
  /-- A table of the catalog. -/
  | table (source : SourceId)
  /-- The query of an entry of a FROM list. -/
  | query (entry : NodeId)
  | item (item : NodeId)
  /-- A recursive WITH item as its own body sees it. -/
  | self (item : NodeId)
  deriving DecidableEq, Repr

/-- What gives names their meaning: the statement, the tables of the catalog, and how names are
    compared. -/
structure Naming where
  tree : Tree
  tables : List Binding
  matching : NameMatching

namespace Naming

variable (n : Naming)

/-- The name under which an entry of a FROM list is visible. -/
def exposed? (entry : NodeId) : Option String :=
  match n.tree.node? entry with
  | some (.tableRef name label) => exposedName? name label
  | some (.subqueryRef _ label) => some label
  | _ => none

/-- Whether an entry of a FROM list is what the leading part of a name asks for. -/
def answers (names : List String) (entry : NodeId) : Bool :=
  (n.exposed? entry).any fun exposed => n.matching.leads [exposed] names

/-- The entries of the FROM list of a SELECT. -/
def sourcesOf (select : NodeId) : List NodeId :=
  match n.tree.node? select with
  | some (.select block) => block.sources
  | _ => []

/-- The entry of the FROM list of a SELECT that a name asks for. -/
def entryFor? (names : List String) (select : NodeId) : Option NodeId :=
  (n.sourcesOf select).find? (n.answers names)

/-- What an entry of a FROM list stands for, given what names stand for around it. -/
def ofEntry? (around : List String → Option Referent) (entry : NodeId) : Option Referent :=
  match n.tree.node? entry with
  | some (.tableRef name _) => around name
  | some (.subqueryRef ..) => some (.query entry)
  | _ => none

/-- What the tables of the catalog have for a name. -/
def tableFor? (names : List String) : Option Referent :=
  (ScopeTree.leadingBinding? n.matching names 0 n.tables).map fun found => .table found.2.source

/-- What a name stands for in an environment: what its innermost frame has for it. -/
def referent? : Env → List String → Option Referent
  | [], names => n.tableFor? names
  | .block select :: env, names =>
    match n.entryFor? names select with
    | some entry => n.ofEntry? (fun name => referent? env name) entry
    | none => referent? env names
  | .item item name :: env, names =>
    if names = [name] then some (.item item) else referent? env names
  | .recursive item name :: env, names =>
    if names = [name] then some (.self item) else referent? env names

/-- What an entry of a FROM list stands for in the environment of its SELECT. -/
abbrev entryReferent? (env : Env) (entry : NodeId) : Option Referent :=
  n.ofEntry? (n.referent? env) entry

/-- Whether a frame has something for a one-part name. -/
def hides (name : String) : Frame → Bool
  | .block select => (n.entryFor? [name] select).isSome
  | .item _ shown | .recursive _ shown => shown == name

variable {n}

/-- What an entry stands for when its node is known. -/
theorem ofEntry?_tableRef {around : List String → Option Referent} {entry : NodeId}
    {name : List String} {label : Option String}
    (h : n.tree.node? entry = some (.tableRef name label)) : n.ofEntry? around entry = around name := by
  unfold ofEntry?
  rw [h]

theorem ofEntry?_subqueryRef {around : List String → Option Referent} {entry query : NodeId}
    {label : String} (h : n.tree.node? entry = some (.subqueryRef query label)) :
    n.ofEntry? around entry = some (.query entry) := by
  unfold ofEntry?
  rw [h]

/-- Only a table reference can stand for an item itself. -/
theorem tableRef_of_ofEntry?_self {around : List String → Option Referent} {entry item : NodeId}
    (h : n.ofEntry? around entry = some (.self item)) :
    ∃ name label, n.tree.node? entry = some (.tableRef name label) ∧
      around name = some (.self item) := by
  unfold ofEntry? at h
  split at h
  · rename_i name label hn
    exact ⟨name, label, hn, h⟩
  · cases h
  · cases h

theorem sourcesOf_of_select {select : NodeId} {block : SelectBlock}
    (h : n.tree.node? select = some (.select block)) : n.sourcesOf select = block.sources := by
  unfold sourcesOf
  rw [h]

/-- The FROM list with an entry is that of a SELECT. -/
theorem exists_of_mem_sourcesOf {entry select : NodeId} (h : entry ∈ n.sourcesOf select) :
    ∃ block, n.tree.node? select = some (.select block) ∧ entry ∈ block.sources := by
  unfold sourcesOf at h
  split at h
  · rename_i block hselect
    exact ⟨block, hselect, h⟩
  · cases h

theorem mem_sourcesOf_of_entryFor? {names : List String} {select entry : NodeId}
    (h : n.entryFor? names select = some entry) : entry ∈ n.sourcesOf select :=
  List.mem_of_find?_eq_some h

/-! ### One frame at a time -/

theorem referent?_block (env : Env) (select : NodeId) (names : List String) :
    n.referent? (.block select :: env) names =
      (n.entryFor? names select).elim (n.referent? env names) (n.entryReferent? env) := by
  show (match n.entryFor? names select with
    | some entry => n.entryReferent? env entry
    | none => n.referent? env names) = _
  cases n.entryFor? names select with
  | none => rfl
  | some entry => rfl

theorem referent?_item (env : Env) (item : NodeId) (shown : String) (names : List String) :
    n.referent? (.item item shown :: env) names =
      if names = [shown] then some (.item item) else n.referent? env names := rfl

theorem referent?_self (env : Env) (item : NodeId) (shown : String) (names : List String) :
    n.referent? (.recursive item shown :: env) names =
      if names = [shown] then some (.self item) else n.referent? env names := rfl

/-! ### An item made visible to its own body -/

/-- An entry stands for something else only when its name does. -/
theorem ofEntry?_or {around around' : List String → Option Referent} {r : Option Referent}
    (h : ∀ name, around name = r ∨ around name = around' name) (entry : NodeId) :
    n.ofEntry? around entry = r ∨ n.ofEntry? around entry = n.ofEntry? around' entry := by
  unfold ofEntry?
  split
  · exact h _
  · exact .inr rfl
  · exact .inr rfl

/-- Showing an item to its own body only makes names stand for the item itself; every other name
    stands for what it stood for. -/
theorem referent?_recursive (inner outer : Env) (item : NodeId) (shown : String)
    (names : List String) :
    n.referent? (inner ++ .recursive item shown :: outer) names = some (.self item) ∨
      n.referent? (inner ++ .recursive item shown :: outer) names =
        n.referent? (inner ++ outer) names := by
  induction inner generalizing names with
  | nil =>
    rw [List.nil_append, referent?_self]
    by_cases h : names = [shown]
    · exact .inl (if_pos h)
    · exact .inr (if_neg h)
  | cons frame rest ih =>
    cases frame with
    | block select =>
      rw [List.cons_append, List.cons_append, referent?_block, referent?_block]
      cases n.entryFor? names select with
      | none => exact ih names
      -- The entry stands for what its own name stands for around the block.
      | some entry => exact ofEntry?_or ih entry
    | item other name =>
      rw [List.cons_append, List.cons_append, referent?_item, referent?_item]
      by_cases h : names = [name]
      · simp only [if_pos h]
        exact .inr trivial
      · simp only [if_neg h]
        exact ih names
    | recursive other name =>
      rw [List.cons_append, List.cons_append, referent?_self, referent?_self]
      by_cases h : names = [name]
      · simp only [if_pos h]
        exact .inr trivial
      · simp only [if_neg h]
        exact ih names

/-- Where nothing hides it, the name of the item stands for the item itself. -/
theorem referent?_of_not_hidden {inner outer : Env} {item : NodeId} {shown : String}
    (h : ∀ frame ∈ inner, n.hides shown frame = false) :
    n.referent? (inner ++ .recursive item shown :: outer) [shown] = some (.self item) := by
  induction inner with
  | nil => exact if_pos rfl
  | cons frame rest ih =>
    have hrest := ih fun f hf => h f (List.mem_cons_of_mem _ hf)
    have hframe := h frame (List.mem_cons_self ..)
    have hne : ∀ name, (name == shown) = false → ¬ [shown] = [name] := by
      intro name hname he
      rw [(List.cons.inj he).1, beq_self_eq_true] at hname
      cases hname
    cases frame with
    | block select =>
      have hnone : n.entryFor? [shown] select = none := Option.not_isSome_iff_eq_none.mp
        (Bool.eq_false_iff.mp hframe)
      rw [List.cons_append, referent?_block, hnone]
      exact hrest
    | item other name =>
      rw [List.cons_append, referent?_item, if_neg (hne name hframe)]
      exact hrest
    | recursive other name =>
      rw [List.cons_append, referent?_self, if_neg (hne name hframe)]
      exact hrest

/-- A name is the one-part name of a recursive item that the environment shows and does not hide. -/
def NamesSelf (n : Naming) (env : Env) (names : List String) (item : NodeId) : Prop :=
  ∃ inner shown outer, env = inner ++ .recursive item shown :: outer ∧ names = [shown] ∧
    ∀ frame ∈ inner, n.hides shown frame = false

/-- A frame that does not hide the name leaves it the name of the item. -/
theorem NamesSelf.cons {env : Env} {names : List String} {item : NodeId} {frame : Frame}
    (h : n.NamesSelf env names item) (hframe : ∀ name, names = [name] → n.hides name frame = false) :
    n.NamesSelf (frame :: env) names item := by
  obtain ⟨inner, shown, outer, rfl, rfl, hinner⟩ := h
  refine ⟨frame :: inner, shown, outer, rfl, rfl, fun f hf => ?_⟩
  rcases List.mem_cons.mp hf with rfl | hf
  · exact hframe shown rfl
  · exact hinner f hf

/-- Some entry of a FROM list in the environment is a table called like a recursive item where nothing
    hides it. -/
def HasNamer (n : Naming) (env : Env) (item : NodeId) : Prop :=
  ∃ inner select outer entry name label, env = inner ++ .block select :: outer ∧
    entry ∈ n.sourcesOf select ∧ n.tree.node? entry = some (.tableRef name label) ∧
      n.NamesSelf outer name item

theorem HasNamer.cons {env : Env} {item : NodeId} (h : n.HasNamer env item) (frame : Frame) :
    n.HasNamer (frame :: env) item := by
  obtain ⟨inner, select, outer, entry, name, label, rfl, hrest⟩ := h
  exact ⟨frame :: inner, select, outer, entry, name, label, rfl, hrest⟩

/-- A frame that shows one name hides no other. -/
theorem hides_of_ne {frame : Frame} {shown : String} {names : List String}
    (hhides : ∀ name, n.hides name frame = (shown == name)) (hne : names ≠ [shown]) (name : String)
    (hname : names = [name]) : n.hides name frame = false := by
  rw [hhides, beq_eq_false_iff_ne]
  rintro rfl
  exact hne hname

/-- A name that stands for an item itself is the item's name where nothing hides it; or it is the
    name of an entry of a FROM list around it, and some entry around it is spelled so. -/
theorem exists_namer {env : Env} {names : List String} {item : NodeId}
    (h : n.referent? env names = some (.self item)) :
    n.NamesSelf env names item ∨ n.HasNamer env item := by
  induction env generalizing names with
  | nil =>
    have h : (ScopeTree.leadingBinding? n.matching names 0 n.tables).map
      (fun found => Referent.table found.2.source) = some (.self item) := h
    obtain ⟨found, -, hfound⟩ := Option.map_eq_some_iff.mp h
    cases hfound
  | cons frame env ih =>
    -- A frame that does not hide the name leaves it what it stands for around the frame.
    have hthrough : (∀ name, names = [name] → n.hides name frame = false) →
        n.referent? env names = some (.self item) →
          n.NamesSelf (frame :: env) names item ∨ n.HasNamer (frame :: env) item :=
      fun hframe h => (ih h).imp (fun hself => hself.cons hframe) fun hnamer => hnamer.cons frame
    cases frame with
    | block select =>
      rw [referent?_block] at h
      cases hentry : n.entryFor? names select with
      | none =>
        rw [hentry] at h
        refine hthrough (fun name hname => ?_) h
        show (n.entryFor? [name] select).isSome = false
        rw [← hname, hentry]
        rfl
      | some entry =>
        rw [hentry] at h
        obtain ⟨name, label, hn, hname⟩ := tableRef_of_ofEntry?_self h
        rcases ih hname with hself | hnamer
        · exact .inr ⟨[], select, env, entry, name, label, rfl,
            mem_sourcesOf_of_entryFor? hentry, hn, hself⟩
        · exact .inr (hnamer.cons _)
    | item other shown =>
      rw [referent?_item] at h
      by_cases hname : names = [shown]
      · rw [if_pos hname] at h
        cases h
      · rw [if_neg hname] at h
        exact hthrough (hides_of_ne (fun _ => rfl) hname) h
    | recursive other shown =>
      rw [referent?_self] at h
      by_cases hname : names = [shown]
      · rw [if_pos hname] at h
        cases h
        exact .inl ⟨[], shown, env, rfl, hname, fun _ hf => absurd hf List.not_mem_nil⟩
      · rw [if_neg hname] at h
        exact hthrough (hides_of_ne (fun _ => rfl) hname) h

/-- A name without parts stands for no item. -/
theorem referent?_nil_ne_self (env : Env) (item : NodeId) :
    n.referent? env [] ≠ some (.self item) := by
  induction env with
  | nil =>
    intro h
    obtain ⟨found, -, hfound⟩ := Option.map_eq_some_iff.mp h
    cases hfound
  | cons frame env ih =>
    cases frame with
    | block select =>
      have hnone : n.entryFor? [] select = none := by
        refine List.find?_eq_none.mpr fun entry _ => ?_
        unfold answers
        cases n.exposed? entry with
        | none => exact Bool.false_ne_true
        | some exposed => exact Bool.false_ne_true
      rw [referent?_block, hnone]
      exact ih
    | item other shown =>
      rw [referent?_item, if_neg (List.cons_ne_nil _ _).symm]
      exact ih
    | recursive other shown =>
      rw [referent?_self, if_neg (List.cons_ne_nil _ _).symm]
      exact ih

/-- Conversely such a name stands for the item itself. -/
theorem NamesSelf.referent? {env : Env} {names : List String} {item : NodeId}
    (h : n.NamesSelf env names item) : n.referent? env names = some (.self item) := by
  obtain ⟨inner, shown, outer, rfl, rfl, hinner⟩ := h
  exact referent?_of_not_hidden hinner

end Naming

/-! ### What is around a node -/

namespace Tree

variable {t : Tree}

/-- A frame shows what its node has: a WITH item under its name, and a recursive one to nodes of its
    own body; a SELECT shows its FROM list to nodes below it. -/
def FrameAround (t : Tree) (id : NodeId) : Frame → Prop
  | .block select => Relation.ReflTransGen t.Child select id
  | .item item shown => ∃ w, t.node? item = some (.withItem w) ∧ shown = qualifiedName w.name
  | .recursive item shown => ∃ w, t.node? item = some (.withItem w) ∧
    shown = qualifiedName w.name ∧ w.recursive = true ∧ Relation.ReflTransGen t.Child w.query id

/-- Every frame of the environment is around the node. -/
def Encloses (t : Tree) (env : Env) (id : NodeId) : Prop := ∀ frame ∈ env, t.FrameAround id frame

theorem Encloses.below {env : Env} {id c : NodeId} (h : t.Encloses env id)
    (hc : Relation.ReflTransGen t.Child id c) : t.Encloses env c := by
  intro frame hf
  have hframe := h frame hf
  cases frame with
  | block select => exact Relation.ReflTransGen.trans hframe hc
  | item item shown => exact hframe
  | recursive item shown =>
    obtain ⟨w, hw, hshown, hrec, hbelow⟩ := hframe
    exact ⟨w, hw, hshown, hrec, hbelow.trans hc⟩

theorem Encloses.cons {env : Env} {id : NodeId} {frame : Frame} (h : t.Encloses env id)
    (hframe : t.FrameAround id frame) : t.Encloses (frame :: env) id := by
  intro f hf
  rcases List.mem_cons.mp hf with rfl | hf
  · exact hframe
  · exact h f hf

/-- What shows the WITH items before a part of a WITH query shows it what is around the query. -/
theorem encloses_of_mem_withParts {env env' : Env} {q body c : NodeId} {items all : List NodeId}
    (hq : t.node? q = some (.withQuery all body)) (hitems : ∀ item ∈ items, item ∈ all)
    (henv : t.Encloses env q) (h : (c, env') ∈ t.withParts body env items) : t.Encloses env' c := by
  have hchild : ∀ x, x ∈ all ∨ x = body → t.Child q x := by
    intro x hx
    refine ⟨_, hq, ?_⟩
    simpa [Node.children] using hx
  induction items generalizing env with
  | nil =>
    simp only [withParts, List.mem_singleton, Prod.mk.injEq] at h
    obtain ⟨rfl, rfl⟩ := h
    exact henv.below (.single (hchild _ (.inr rfl)))
  | cons item rest ih =>
    have hitem := hchild item (.inl (hitems item (by simp)))
    rcases List.mem_append.mp h with h | h
    · unfold itemParts at h
      split at h
      · rename_i w hw
        have hquery : Relation.ReflTransGen t.Child item w.query :=
          .single ⟨_, hw, by simp [Node.children]⟩
        have hbelow : Relation.ReflTransGen t.Child q w.query := .head hitem hquery
        split at h
        · rename_i hrec
          split at h
          · rename_i operation hop
            simp only [List.mem_cons, Prod.mk.injEq, List.not_mem_nil, or_false] at h
            rcases h with ⟨rfl, rfl⟩ | ⟨rfl, rfl⟩
            · exact henv.below (hbelow.tail ⟨_, hop, by simp [Node.children]⟩)
            · exact (henv.below hbelow).cons ⟨w, hw, rfl, hrec, .refl⟩
          · cases h
        · simp only [List.mem_singleton, Prod.mk.injEq] at h
          obtain ⟨rfl, rfl⟩ := h
          exact henv.below hbelow
      · cases h
    · refine ih (fun i hi => hitems i (by simp [hi])) ?_ h
      unfold itemEnv
      split
      · rename_i w hw
        exact henv.cons ⟨w, hw, rfl⟩
      · exact henv

/-- What surrounds a part of a query is around that part. -/
theorem encloses_of_mem_queryParts {env env' : Env} {q c : NodeId} {n : Node}
    (hn : t.node? q = some n) (henv : t.Encloses env q) (h : (c, env') ∈ t.queryParts env q n) :
    t.Encloses env' c := by
  cases n with
  | select block =>
    have hchild : ∀ x ∈ (Node.select block).children, t.Child q x := fun x hx => ⟨_, hn, hx⟩
    simp only [queryParts, List.mem_append, List.mem_map, List.mem_flatMap, Prod.mk.injEq] at h
    rcases h with ⟨x, ⟨entry, hentry, hx⟩, rfl, rfl⟩ | ⟨x, hx, rfl, rfl⟩
    · obtain ⟨label, hsource⟩ := mem_sourceQuery_iff.mp hx
      have hsourceChild := hchild entry (by simp [Node.children, hentry])
      exact henv.below (.head hsourceChild (.single ⟨_, hsource, by simp [Node.children]⟩))
    -- The condition and the items see the FROM list.
    · have hx' : t.Child q x := by
        refine hchild x ?_
        simp only [Node.children, List.mem_append, List.mem_flatMap]
        exact hx.elim .inr fun hx => .inl (.inl hx)
      refine (henv.below (.single hx')).cons ?_
      exact Relation.ReflTransGen.single hx'
  | setOperation operation =>
    simp only [queryParts, List.mem_cons, Prod.mk.injEq, List.not_mem_nil, or_false] at h
    rcases h with ⟨rfl, rfl⟩ | ⟨rfl, rfl⟩
    · exact henv.below (.single ⟨_, hn, by simp [Node.children]⟩)
    · exact henv.below (.single ⟨_, hn, by simp [Node.children]⟩)
  | withQuery items body => exact encloses_of_mem_withParts hn (fun _ h => h) henv h
  | _ => cases h

end Tree

end SqlTyping
