import SqlTyping.Proofs.Scope.Offering
import SqlTyping.Proofs.Session.Guarding
import SqlTyping.Proofs.Session.Resolution
import SqlTyping.Proofs.Session.Results

namespace SqlTyping

/-!
# Scopes that provide what is offered

While a statement is validated its scopes come to provide the names that environments offer:

* `Session.Provides` — from a scope every name leads to something that an environment offers;
* `Session.Exposes` — a scope binds the name of an entry of a FROM list, as it does once the entry has
  been bound (`exposes_of_bindSource`);
* `Session.Provides.block`, `Session.Provides.item`, `Session.Provides.recursive` — scopes that are added
  provide what their environments offer.
-/

/-- From the scope there is something for every name that the environment offers. -/
structure Session.Provides (N : Naming) (s : Session) (scope : ScopeId) (env : Env) : Prop where
  matching : s.settings.matching = N.matching
  offers : ∀ names, N.Offers env names → s.scopes.Offers N.matching names scope

/-- The scope binds the name under which the entry of a FROM list is visible. -/
def Session.Exposes (N : Naming) (s : Session) (scope : ScopeId) (entry : NodeId) : Prop :=
  ∃ exposed found b, N.exposed? entry = some exposed ∧ s.scopes.get? scope = some found ∧
    b ∈ found.bindings ∧ b.names = [exposed]

open Checking

variable {N : Naming} {s s' : Session} {scope parent : ScopeId} {entry : NodeId} {env : Env}

/-! ### Entries of a FROM list -/

theorem Session.Exposes.mono (h : s.Exposes N scope entry) (hw : s.scopes.Widens s'.scopes) :
    s'.Exposes N scope entry := by
  obtain ⟨exposed, found, b, hexposed, hs, hb, hnames⟩ := h
  obtain ⟨found', hs', -, -, hsub⟩ := hw scope found hs
  exact ⟨exposed, found', b, hexposed, hs', hsub hb, hnames⟩

/-- A name that is bound comes behind the other names of its scope. -/
theorem get?_of_bindName {exposed : String} {source : SourceId} {x : Unit}
    (h : Validation.bindName scope exposed source s = (.ok x, s')) :
    ∃ found, s.scopes.get? scope = some found ∧ s'.scopes.get? scope =
      some { found with bindings := found.bindings ++ [⟨[exposed], source, false⟩] } := by
  obtain ⟨scopes, hadd, rfl⟩ := Validation.bindName_eq_ok h
  obtain ⟨found, hs⟩ : ∃ found, s.scopes.get? scope = some found := by
    unfold ScopeTree.addBinding at hadd
    split at hadd
    · rename_i hlt
      exact ⟨_, Array.getElem?_eq_getElem hlt⟩
    · cases hadd
  refine ⟨found, hs, ?_⟩
  show scopes.get? scope = _
  rw [ScopeTree.get?_addBinding hadd, if_pos rfl, hs]
  rfl

/-- What an entry of a FROM list that has been bound is: a table that has been found, or a query that
    has been validated. Until its name is bound nothing else happens to scopes. -/
theorem bindSource_eq_ok {v : Visit} {block : NodeId} {x : Unit}
    (hnode : ∀ n, s.tree.node? entry = some n → n.isClause = true → N.tree.node? entry = some n)
    (h : bindSource v parent scope block entry s = (.ok x, s')) :
    ∃ exposed source s₁, N.exposed? entry = some exposed ∧
      Validation.bindName scope exposed source s₁ = (.ok x, s') ∧
        ((∃ name label found, N.tree.node? entry = some (.tableRef name label) ∧
            s.scopes.requireTable parent name s.settings.matching s.sources = .ok found ∧
              s₁.scopes = s.scopes) ∨
          ∃ query label row s₂, N.tree.node? entry = some (.subqueryRef query label) ∧
            v.query parent query s = (.ok row, s₂) ∧ s₁.scopes = s₂.scopes) := by
  obtain ⟨n, s₁, hread, hrest⟩ := bind_eq_ok_iff.mp h
  obtain ⟨rfl, hn⟩ := node_eq_ok hread
  cases n with
  | tableRef name label =>
    have hwritten := hnode _ hn rfl
    have hrest : bindTable parent scope entry name label s₁ = (.ok x, s') := hrest
    rcases bindTable_cases parent scope entry name label s₁ with
      ⟨e, he⟩ | ⟨found, hfound, -, ⟨-, -, e, he⟩ | ⟨exposed, types, hexposed, hbind⟩⟩
    · rw [he] at hrest
      cases hrest
    · rw [hrest] at he
      cases he
    · rw [hbind] at hrest
      refine ⟨exposed, _, _, ?_, hrest, .inl ⟨name, label, found, hwritten, hfound, rfl⟩⟩
      unfold Naming.exposed?
      rw [hwritten]
      exact hexposed
  | subqueryRef query label =>
    have hwritten := hnode _ hn rfl
    obtain ⟨row, s₂, sources, hquery, -, hrest⟩ := bindSubquery_eq_ok hrest
    refine ⟨label, _, _, ?_, hrest, .inr ⟨query, label, row, s₂, hwritten, hquery, rfl⟩⟩
    unfold Naming.exposed?
    rw [hwritten]
  | _ => cases hrest

/-- An entry of a FROM list that has been bound is visible under its name. -/
theorem exposes_of_bindSource {v : Visit} {block : NodeId} {x : Unit}
    (hnode : ∀ n, s.tree.node? entry = some n → n.isClause = true → N.tree.node? entry = some n)
    (h : bindSource v parent scope block entry s = (.ok x, s')) : s'.Exposes N scope entry := by
  obtain ⟨exposed, source, s₁, hexposed, hbind, -⟩ := bindSource_eq_ok hnode h
  obtain ⟨found, -, hs⟩ := get?_of_bindName hbind
  exact ⟨exposed, _, _, hexposed, hs, List.mem_append_right _ (List.mem_singleton.mpr rfl), rfl⟩

/-! ### Scopes -/

/-- A scope that has been added lies in its parent, has its role, and binds nothing yet. -/
theorem get?_of_newScope {role : ScopeRole} {node : Option NodeId}
    (h : Validation.onScopes (·.newScope parent role node) s = (.ok scope, s')) :
    ∃ found, s'.scopes.get? scope = some found ∧ found.parent = some parent ∧ found.role = role ∧
      found.bindings = [] := by
  obtain ⟨scopes, hnew, rfl⟩ := Validation.onScopes_eq_ok h
  obtain ⟨-, around, -, hget⟩ := ScopeTree.get?_newScope hnew
  exact ⟨_, (hget scope).trans (if_pos rfl), rfl, rfl, rfl⟩

/-- The scope behind a WITH item shows the item. -/
theorem get?_of_bindWithItem {v : Visit} {item : NodeId}
    (h : bindWithItem v parent item s = (.ok scope, s')) :
    ∃ w found, s.tree.node? item = some (.withItem w) ∧ s'.scopes.get? scope = some found ∧
      found.parent = some parent ∧ found.role = .withItem item (qualifiedName w.name) ∧
        found.bindings = [] := by
  obtain ⟨w, body, u, row, sources, scopes, hn, -, -, -, hnew, rfl⟩ := bindWithItem_eq_ok h
  obtain ⟨-, around, -, hget⟩ := ScopeTree.get?_newScope hnew
  exact ⟨w, _, hn, (hget scope).trans (if_pos rfl), rfl, rfl, rfl⟩

namespace Session.Provides

/-- More names are bound later. -/
theorem mono (h : s.Provides N scope env) (hsettings : s'.settings = s.settings)
    (hw : s.scopes.Widens s'.scopes) : s'.Provides N scope env where
  matching := by
    rw [hsettings]
    exact h.matching
  offers names hnames := (h.offers names hnames).mono hw

variable {found : Scope} (h : s.Provides N parent env) (hs : s.scopes.get? scope = some found)
  (hparent : found.parent = some parent)

include h hs hparent

/-- The scope of a SELECT provides its FROM list once all entries have been bound. -/
theorem block {select : NodeId} (hbound : ∀ entry ∈ N.sourcesOf select, s.Exposes N scope entry) :
    s.Provides N scope (.block select :: env) where
  matching := h.matching
  offers names hnames := by
    rcases hnames with ⟨entry, hentry, hanswers⟩ | hnames
    · obtain ⟨exposed, found', b, hexposed, hs', hb, hname⟩ := hbound entry hentry
      refine .binding hs' hb ?_
      rw [hname]
      simpa [Naming.answers, hexposed] using hanswers
    · exact .around hs hparent (h.offers names hnames)

/-- The scope of a WITH item provides the item. -/
theorem item {item : NodeId} {shown : String} (hrole : found.role = .withItem item shown) :
    s.Provides N scope (.item item shown :: env) where
  matching := h.matching
  offers names hnames := by
    rcases hnames with hname | hnames
    · exact .item hs (.inl hrole) hname
    · exact .around hs hparent (h.offers names hnames)

/-- So does the scope of a recursive item, for its own body. -/
theorem recursive {item : NodeId} {shown : String} (hrole : found.role = .recursiveItem item shown) :
    s.Provides N scope (.recursive item shown :: env) where
  matching := h.matching
  offers names hnames := by
    rcases hnames with hname | hnames
    · exact .item hs (.inr hrole) hname
    · exact .around hs hparent (h.offers names hnames)

end Session.Provides

end SqlTyping
