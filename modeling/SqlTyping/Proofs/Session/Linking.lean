import SqlTyping.Proofs.Session.Independence

namespace SqlTyping

/-!
# Scopes of earlier requests

Scopes that earlier requests have left can be asked for names as well. Whatever has been asked for, they
lie in the catalog, and the items they show and the names they bind have sources that are there:

* `Session.Linked` — this holds of a session;
* `Session.Linked.upholds` — it survives validation of any nodes, with any engine and operators;
* `Session.Reached.linked` — so it holds between requests.
-/

/-- Around every scope but the catalog there is another one. What scopes show and names are bound to is
    registered. -/
structure Session.Linked (s : Session) : Prop where
  owned : s.sources.Owned
  rooted : ∀ id scope, s.scopes.get? id = some scope → scope.parent = none → scope.role = .catalog
  shown : ∀ id scope, s.scopes.get? id = some scope → s.Presents scope.role
  bound : ∀ id scope b, s.scopes.get? id = some scope → b ∈ scope.bindings →
    ∃ e, s.sources.get? b.source = some e

namespace Session.Linked

variable {s s' : Session}

theorem start (settings : Settings) (tree : Tree) (operators : OperatorTable)
    (engine : CoercionEngine) : Session.Linked { settings, tree, operators, engine } := by
  have hroot : ∀ id scope, ScopeTree.get? {} id = some scope → scope = .root := by
    intro id scope hs
    obtain ⟨_, rfl⟩ := Array.getElem?_eq_some_iff.mp hs
    simp
  refine ⟨⟨(fun _ _ hid => by cases hid), (fun _ _ hid => by cases hid)⟩, fun id scope hs _ => ?_,
    fun id scope hs => ?_, fun id scope b hs hb => ?_⟩
  · rw [hroot id scope hs]
    rfl
  · rw [hroot id scope hs]
    trivial
  · rw [hroot id scope hs] at hb
    cases hb

/-- Row sources are added, or get row types. -/
theorem withSources (h : s.Linked) {sources : RowSources} (hg : s.sources.Grows sources)
    (hitems : ∀ node, (s.sources.ofNode? node).isSome = true → (sources.ofNode? node).isSome = true)
    (howned : sources.Owned) : Session.Linked { s with sources } where
  owned := howned
  rooted := h.rooted
  shown id scope hs := (h.shown id scope hs).grows hg hitems
  bound id scope b hs hb := by
    obtain ⟨e, he⟩ := h.bound id scope b hs hb
    obtain ⟨e', he', -⟩ := hg.source _ e he
    exact ⟨e', he'⟩

theorem addBinding (h : s.Linked) {id : ScopeId} {binding : Binding} {scopes : ScopeTree}
    (hsource : ∃ e, s.sources.get? binding.source = some e)
    (hadd : s.scopes.addBinding id binding = .ok scopes) : Session.Linked { s with scopes } where
  owned := h.owned
  rooted other scope hs hparent := by
    obtain ⟨old, hold, hsame, hrole, -⟩ := ScopeTree.exists_of_get?_addBinding hadd hs
    exact hrole ▸ h.rooted other old hold (hsame.trans hparent)
  shown other scope hs := by
    obtain ⟨old, hold, -, hrole, -⟩ := ScopeTree.exists_of_get?_addBinding hadd hs
    exact hrole ▸ h.shown other old hold
  bound other scope b hs hb := by
    obtain ⟨old, hold, -, -, -, hnew⟩ := ScopeTree.exists_of_get?_addBinding hadd hs
    rcases hnew b hb with hb | rfl
    · exact h.bound other old b hold hb
    · exact hsource

theorem addTable {names : List String} {row : DataType} {id : SourceId} (h : s.Linked)
    (hadd : s.addTable names row = .ok (id, s')) : s'.Linked := by
  obtain ⟨scopes, hbound, rfl⟩ := Session.addTable_eq_ok hadd
  have hg : s.sources.Grows (s.sources.registerTable names row).2 := .registerTable _ _ _
  refine (h.withSources hg (fun _ ho => ho) (h.owned.of_grows hg rfl rfl)).addBinding ?_ hbound
  exact ⟨_, (RowSources.get?_push _ _ _).trans (if_pos rfl)⟩

/-- Validation adds scopes below others only, and binds names to what is registered. -/
theorem upholds {t₀ : Tree} (hclosed : t₀.NoDangling) :
    Session.Upholds t₀ (fun _ => t₀.Has) 0 Session.Linked where
  closed := hclosed
  lt_size hp := hp
  child hp hc := hclosed.isClosed.child _ _ hp hc
  below hp hc := hclosed.isClosed.child _ _ hp hc
  base_le _ := Nat.zero_le _
  view h hid := h.owned.selfView _ _ hid
  record _ h _ _ := ⟨h.owned, h.rooted, h.shown, h.bound⟩
  newScope := by
    intro s parent role node new scopes h hrole hnew
    obtain ⟨rfl, around, -, hget⟩ := ScopeTree.get?_newScope hnew
    refine ⟨h.owned, fun id scope hs hparent => ?_, fun id scope hs => ?_, fun id scope b hs hb => ?_⟩
    · rw [hget] at hs
      split at hs
      · cases hs
        cases hparent
      · exact h.rooted id scope hs hparent
    · rw [hget] at hs
      split at hs
      · cases hs
        exact hrole
      · exact h.shown id scope hs
    · rw [hget] at hs
      split at hs
      · cases hs
        cases hb
      · exact h.bound id scope b hs hb
  addBinding h _ hsource hadd := h.addBinding (hsource.registered h.owned h.bound) hadd
  register kind enclosing h _ := h.withSources (.register _ _ _ _)
    (fun _ => RowSources.isSome_ofNode?_register _ _ _) (h.owned.register _ kind enclosing)
  selfView h _ _ hview := h.withSources (.of_selfView hview)
    (fun _ ho => by rwa [RowSources.ofNode?_of_selfView hview]) (h.owned.of_selfView hview)
  setRow h _ _ _ hset := h.withSources (.of_setRow hset)
    (fun _ ho => by rwa [RowSources.ofNode?, (RowSources.byNode_of_setRow hset).1])
    (h.owned.of_setRow hset)
  selfReference _ h := ⟨h.owned, h.rooted, h.shown, h.bound⟩
  tree h _ _ _ := ⟨h.owned, h.rooted, h.shown, h.bound⟩
  requests _ h := ⟨h.owned, h.rooted, h.shown, h.bound⟩

end Session.Linked

/-- However requests end, the scopes they leave lie in the catalog, and names are bound to sources. -/
theorem Session.Reached.linked {settings : Settings} {tree : Tree} {operators : OperatorTable}
    {engine : CoercionEngine} {s : Session}
    (h : Session.Reached { settings, tree, operators, engine } s) (hclosed : tree.NoDangling) :
    s.Linked := by
  induction h with
  | start => exact .start settings tree operators engine
  | request hreached hr ih =>
    have hs := hreached.grounded hclosed
    rcases hs.perform_upholds (Session.Linked.upholds hs.closed) ih hr with ⟨names, row, id, hadd⟩ | hlinked
    · exact ih.addTable hadd
    · exact hlinked

end SqlTyping
