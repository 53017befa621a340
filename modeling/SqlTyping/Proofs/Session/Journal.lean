import SqlTyping.Proofs.Session.Hosts

namespace SqlTyping

/-!
# Validation with a journal

Sessions do not remember in which order things have happened to them. A journal is a host that does: the
steps of validation are taken on its session, and what they mean is noted:

* `Session.Event` — a query has come to a row type, a table of a FROM list has been bound, a name has been
  looked up among what is bound;
* `Journal` — a session with what has happened so far, `Journal.validateQuery` the validation of a query on
  it;
* `latest?` — the row type that a query came to most recently;
* `Journal.validateQuery_erases` — without the journal this is the validation of sessions.
-/

/-- What a journal notes. -/
inductive Session.Event where
  /-- A query has come to a row type, inside the bodies of the recursive WITH items `inside`. -/
  | validated (query : NodeId) (row : DataType) (inside : List NodeId)
  /-- A table of a FROM list has been bound to what it stands for, and has got a type. -/
  | bound (entry : NodeId) (source : RowSource) (type : Option DataType)
  /-- A column has been looked up where the columns of this can be found. -/
  | searched (source : RowSource)
  deriving DecidableEq

/-- The row type that a query has come to in an event, if it has in a place that counts. -/
def Session.Event.row? (query : NodeId) (counts : List NodeId → Bool) : Session.Event → Option DataType
  | .validated id row inside => if id = query ∧ counts inside = true then some row else none
  | _ => none

/-- The row type that a query came to most recently, among the validations in places that count. -/
def latest? (events : List Session.Event) (query : NodeId) (counts : List NodeId → Bool) :
    Option DataType :=
  events.reverse.findSome? (·.row? query counts)

/-- The recursive WITH item inside whose body a scope of the given role is. -/
def ScopeRole.ownBody? : ScopeRole → Option NodeId
  | .recursiveItem item _ => some item
  | _ => none

/-- The recursive WITH items inside whose bodies a scope is. -/
def ScopeTree.ownBodies (t : ScopeTree) (scope : ScopeId) : List NodeId :=
  (t.chain scope).filterMap fun id => (t.get? id).bind (·.role.ownBody?)

/-- What a table of a FROM list stands for. -/
def Session.tableSource? (s : Session) (scope : ScopeId) (name : List String) : Option RowSource :=
  match s.scopes.requireTable scope name s.settings.matching s.sources with
  | .ok found => s.sources.get? found.source
  | .error _ => none

/-- What is bound in a scope and in the scopes around it. -/
def Session.boundSources (s : Session) (scope : ScopeId) : List RowSource :=
  (s.scopes.chain scope).flatMap fun id =>
    (((s.scopes.get? id).map (·.bindings)).getD []).filterMap fun b => s.sources.get? b.source

/-- What is noted before a step is taken, whatever comes of it. -/
def Moment.begun : Moment → Session → List Session.Event
  | .search scope, s => (s.boundSources scope).map .searched
  | .binding .., _ | .result .., _ => []

/-- What is noted after a step that has been taken on the session `start`. -/
def Moment.done (start : Session) : Moment → Session → List Session.Event
  | .binding parent entry name, s =>
    (start.tableSource? parent name).toList.map fun source => .bound entry source (s.types.get? entry)
  | .result scope query row, s => [.validated query row (s.scopes.ownBodies scope)]
  | .search _, _ => []

/-- A session under validation, with what has happened to it. -/
structure Journal where
  session : Session
  /-- The events so far, oldest first. -/
  events : List Session.Event := []

namespace Journal

open Checking

/-- A step that is not noted. -/
def plain {α : Type} (x : Validation α) : Checking Journal α :=
  focus (·.session) (fun j session => { j with session }) x

/-- Notes what has happened. -/
def note (events : Session → List Session.Event) : Checking Journal Unit :=
  update fun j => { j with events := j.events ++ events j.session }

/-- Steps are taken on the session of a journal, and noted if they mean something. -/
instance : Host Journal where
  session j := j.session
  lift := plain
  noting moment x := do
    let start := (← state).session
    note moment.begun
    let a ← plain x
    note (moment.done start)
    return a

/-- Validates a query at the top of a statement, and keeps a journal of it. -/
def validateQuery (query : NodeId) : Checking Journal DataType := fun j =>
  (visitOn Journal j.session.maxDepth).query ScopeTree.rootId query j

/-! ### One step -/

variable {α : Type}

theorem session_eq (j : Journal) : Host.session j = j.session := rfl

theorem lift_eq (x : Validation α) : Host.lift (σ := Journal) x = plain x := rfl

/-! ### Without the journal -/

variable {x : Validation α} {j : Journal} {s : Session} {a : α} {e : Fault}

theorem plain_of_ok (hx : x j.session = (.ok a, s)) : plain x j = (.ok a, ⟨s, j.events⟩) := by
  unfold plain focus
  rw [hx]

theorem plain_of_error (hx : x j.session = (.error e, s)) : plain x j = (.error e, ⟨s, j.events⟩) := by
  unfold plain focus
  rw [hx]

/-- A step that succeeds is noted before and after. -/
theorem noting_of_ok (moment : Moment) (hx : x j.session = (.ok a, s)) :
    Host.noting moment x j =
      (.ok a, ⟨s, j.events ++ moment.begun j.session ++ moment.done j.session s⟩) := by
  show (plain x >>= fun a => note (moment.done j.session) >>= fun _ => pure a)
    ⟨j.session, j.events ++ moment.begun j.session⟩ = _
  exact bind_of_ok (plain_of_ok (j := ⟨j.session, j.events ++ moment.begun j.session⟩) hx) _

theorem noting_of_error (moment : Moment) (hx : x j.session = (.error e, s)) :
    Host.noting moment x j = (.error e, ⟨s, j.events ++ moment.begun j.session⟩) := by
  show (plain x >>= fun a => note (moment.done j.session) >>= fun _ => pure a)
    ⟨j.session, j.events ++ moment.begun j.session⟩ = _
  exact bind_of_error (plain_of_error (j := ⟨j.session, j.events ++ moment.begun j.session⟩) hx) _

/-- A journal takes each step on its session. -/
instance : LawfulHost Journal where
  lift_eq _ _ := rfl
  noting_eq moment x j := by
    simp only [session_eq]
    cases hx : x j.session with
    | mk r s =>
      cases r with
      | ok a => rw [noting_of_ok moment hx]
      | error e => rw [noting_of_error moment hx]

/-- Without the journal this is the validation of the session. -/
theorem validateQuery_erases (query : NodeId) (s : Session) (events : List Session.Event) :
    Session.validateQuery query s = ((validateQuery query ⟨s, events⟩).1,
      (validateQuery query ⟨s, events⟩).2.session) := by
  have hend := (Host.visitOn_hosts (σ := Journal) s.maxDepth).query ScopeTree.rootId query s ⟨s, events⟩ rfl
  exact Prod.ext hend.answer_eq.symm hend.rel.symm

end Journal

end SqlTyping
