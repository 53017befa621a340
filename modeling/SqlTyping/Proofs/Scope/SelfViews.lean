import SqlTyping.Proofs.Histories
import SqlTyping.Proofs.Scope.Referents

namespace SqlTyping

/-!
# Views of items from inside

The registry keeps the view of a recursive item from inside its body for good, and the view keeps the
source of the item that it was made for:

* `RowSources.Request` — what the registry is asked for, and `RowSources.Met`, what comes of it;
* `RowSources.Continues` — what stays as sources are registered and get row types;
* `RowSources.Plain` — what is registered for a node is no view from inside;
* `RowSources.Made` — the request that made a view, and the state of the registry then;
* `RowSources.LinkedTo` — a view and the source that it was made for;
* `RowSources.handedOut` — the numbers that are handed out, which are counted up;
* `RowSources.selfViews_linked` — every view is the one that was made first. It is linked to the source
  that its item had then, which is the source of the item now if and only if the item has not been
  registered since;
* `RowSources.selfView_outdated` — an item that has.
-/

namespace RowSources

/-- What the registry is asked for. -/
inductive Request where
  | registerTable (names : List String) (row : DataType)
  | registerQuery (node : NodeId) (enclosing : Option NodeId)
  | registerItem (node : NodeId) (enclosing : Option NodeId)
  | selfView (item : NodeId)
  | setRow (id : SourceId) (row : DataType)

namespace Request

/-- What is done about a request, and the number that it hands out. -/
def change (s : RowSources) : Request → Except Fault (Option SourceId × RowSources)
  | registerTable names row =>
    let (id, s') := s.registerTable names row
    .ok (some id, s')
  | registerQuery node enclosing =>
    let (id, s') := s.register node .query enclosing
    .ok (some id, s')
  | registerItem node enclosing =>
    let (id, s') := s.register node .withItem enclosing
    .ok (some id, s')
  | selfView item => (s.selfView item).map fun (id, s') => (some id, s')
  | setRow id row => (s.setRow id row).map fun s' => (none, s')

/-- The registry after a request, also one that fails. -/
def perform (r : Request) : Checking RowSources (Option SourceId) := .attempt fun s => r.change s

/-- The node that a request registers a source for, which takes the place of an earlier one. -/
def registers? : Request → Option NodeId
  | registerQuery node _ | registerItem node _ => some node
  | registerTable .. | selfView _ | setRow .. => none

end Request

/-- The registry after requests, one after the other. -/
abbrev after (s : RowSources) (requests : List Request) : RowSources :=
  Checking.after Request.perform s requests

/-- What comes of a request. It is refused; it adds a table, the source of a node, or a view from
    inside; it asks for a view that is there; or it sets a row type. -/
inductive Met (s : RowSources) : Request → Except Fault (Option SourceId) × RowSources → Prop
  | refused {r fault} (hnone : r.registers? = none) : Met s r (.error fault, s)
  | table {names row} :
    Met s (.registerTable names row) (.ok (some s.nextId), (s.registerTable names row).2)
  | node {r node kind enclosing} (hnode : r.registers? = some node)
    (hkind : kind = .query ∨ kind = .withItem) :
    Met s r (.ok (some s.nextId), (s.register node kind enclosing).2)
  | view {item own} (hnone : s.selfViewOf? item = none) (hown : s.ofNode? item = some own) :
    Met s (.selfView item) (.ok (some s.nextId), s.addView item own)
  | known {item view} (h : s.selfViewOf? item = some view) :
    Met s (.selfView item) (.ok (some view), s)
  | row {id row s'} (h : s.setRow id row = .ok s') : Met s (.setRow id row) (.ok none, s')

/-- Every source is still there, with its node, its kind and the node it is referred to from, and the
    views from inside are those of the same items. -/
structure Continues (s s' : RowSources) : Prop where
  source : ∀ id e, s.get? id = some e → ∃ e', s'.get? id = some e' ∧ e'.node = e.node ∧
    e'.kind = e.kind ∧ e'.enclosing = e.enclosing
  view : ∀ item id, s.selfViewOf? item = some id → s'.selfViewOf? item = some id

/-- What is registered for a node is a query or an item, and no view from inside. -/
def Plain (s : RowSources) : Prop :=
  ∀ node id, s.ofNode? node = some id →
    ∃ e, s.get? id = some e ∧ (e.kind = .query ∨ e.kind = .withItem)

/-- The view of an item comes from the first request for it, when `own` was the source of the item.
    Requests came before, and others after. -/
structure Made (s : RowSources) (item : NodeId) (view own : SourceId)
    (earlier later requests : List Request) : Prop where
  split : requests = earlier ++ .selfView item :: later
  first : (s.after earlier).selfViewOf? item = none
  source : (s.after earlier).ofNode? item = some own
  number : view = (s.after earlier).nextId

/-- The view of an item from inside and a source of the item: the view says that it is the view of that
    source, and they are referred to from the same node. -/
def LinkedTo (s : RowSources) (item : NodeId) (view own : SourceId) : Prop :=
  ∃ inside outside, s.get? view = some inside ∧ s.get? own = some outside ∧
    inside.node = some item ∧ outside.node = some item ∧ inside.kind = .selfReference own ∧
      (outside.kind = .query ∨ outside.kind = .withItem) ∧ inside.enclosing = outside.enclosing

/-- The number that a request hands out, unless there is a source with that number already. -/
def newNumber? (s : RowSources) (r : Request) : Option SourceId :=
  match (r.perform s).1 with
  | .ok (some id) => if (s.get? id).isNone then some id else none
  | _ => none

/-- The new numbers that requests hand out, in the order of the requests. -/
def handedOut (s : RowSources) : List Request → List SourceId
  | [] => []
  | r :: requests => (s.newNumber? r).toList ++ (r.perform s).2.handedOut requests

variable {s s' : RowSources} {node item : NodeId} {id view own : SourceId}

/-! ### What a request does -/

theorem Request.perform_selfView_of_new (hnone : s.selfViewOf? item = none)
    (hown : s.ofNode? item = some own) :
    (Request.selfView item).perform s = (.ok (some s.nextId), s.addView item own) := by
  refine Checking.attempt_of_ok ?_
  show (s.selfView item).map _ = _
  rw [selfView_of_new hnone hown]
  rfl

/-- Every request is met in one of these ways. -/
theorem met (r : Request) (s : RowSources) : s.Met r (r.perform s) := by
  cases r with
  | registerTable names row => exact .table
  | registerQuery node enclosing => exact .node rfl (.inl rfl)
  | registerItem node enclosing => exact .node rfl (.inr rfl)
  | selfView item =>
    have hchange : (Request.selfView item).change s =
        (s.selfView item).map fun (id, s') => (some id, s') := rfl
    cases hview : s.selfViewOf? item with
    | some view =>
      rw [selfView_of_known hview] at hchange
      rw [Request.perform, Checking.attempt_of_ok hchange]
      exact .known hview
    | none =>
      cases hown : s.ofNode? item with
      | some own =>
        rw [Request.perform_selfView_of_new hview hown]
        exact .view hview hown
      | none =>
        obtain ⟨fault, hfault⟩ := exists_selfView_eq_error hview hown
        rw [hfault] at hchange
        rw [Request.perform, Checking.attempt_of_error hchange]
        exact .refused rfl
  | setRow id row =>
    have hchange : (Request.setRow id row).change s = (s.setRow id row).map fun s' => (none, s') := rfl
    cases hset : s.setRow id row with
    | error fault =>
      rw [hset] at hchange
      rw [Request.perform, Checking.attempt_of_error hchange]
      exact .refused rfl
    | ok s' =>
      rw [hset] at hchange
      rw [Request.perform, Checking.attempt_of_ok hchange]
      exact .row hset

/-! ### What stays -/

namespace Continues

theorem refl (s : RowSources) : s.Continues s where
  source _ e h := ⟨e, h, rfl, rfl, rfl⟩
  view _ _ h := h

theorem trans {s'' : RowSources} (h : s.Continues s') (h' : s'.Continues s'') : s.Continues s'' where
  source id e he := by
    obtain ⟨e', he', hnode, hkind, henclosing⟩ := h.source id e he
    obtain ⟨e'', he'', hnode', hkind', henclosing'⟩ := h'.source id e' he'
    exact ⟨e'', he'', hnode'.trans hnode, hkind'.trans hkind, henclosing'.trans henclosing⟩
  view item id hid := h'.view item id (h.view item id hid)

theorem grows (h : s.Continues s') : s.Grows s' where
  source id e he := by
    obtain ⟨e', he', hnode, hkind, -⟩ := h.source id e he
    exact ⟨e', he', hnode, hkind⟩
  selfView := h.view

/-- A source that is added changes no other. -/
theorem push (s : RowSources) (e : RowSource) (id : SourceId) (old : RowSource)
    (h : s.get? id = some old) : ∃ new, (s.push e).get? id = some new ∧ new.node = old.node ∧
      new.kind = old.kind ∧ new.enclosing = old.enclosing :=
  ⟨old, Grows.get?_push_of_some h e, rfl, rfl, rfl⟩

theorem setRow {row : DataType} (h : s.setRow id row = .ok s') : s.Continues s' where
  source other e he := by
    rw [get?_setRow h other]
    by_cases hid : other = id
    · subst hid
      rw [if_pos rfl, he]
      exact ⟨_, rfl, rfl, rfl, rfl⟩
    · rw [if_neg hid]
      exact ⟨e, he, rfl, rfl, rfl⟩
  view item other hview := (Grows.of_setRow h).selfView item other hview

theorem perform (r : Request) (s : RowSources) : s.Continues (r.perform s).2 := by
  have hmet := s.met r
  generalize r.perform s = result at hmet
  cases hmet with
  | refused => exact refl s
  | known => exact refl s
  | table => exact ⟨push s _, fun _ _ h => h⟩
  | node => exact ⟨push s _, fun _ _ h => h⟩
  | row h => exact setRow h
  | view hnone hown => exact ⟨push s _, (Grows.of_selfView (selfView_of_new hnone hown)).selfView⟩

theorem after (s : RowSources) (requests : List Request) : s.Continues (s.after requests) :=
  Checking.related_after refl (fun _ _ _ h h' => h.trans h') perform requests

end Continues

/-! ### What is registered for nodes -/

/-- Requests leave what is registered for a node, unless they register something for it. -/
theorem ofNode?_perform (r : Request) (s : RowSources) (node : NodeId) :
    (r.perform s).2.ofNode? node =
      if r.registers? = some node then some s.nextId else s.ofNode? node := by
  have hmet := s.met r
  generalize r.perform s = result at hmet
  cases hmet with
  | refused hnone => simp [hnone]
  | table => rfl
  | node hnode => simp [ofNode?_register, hnode, eq_comm]
  | view => rfl
  | known => rfl
  | row h =>
    rw [ofNode?_of_setRow h]
    rfl

/-- So after all requests there is what was there, or something that has been registered since. -/
theorem ofNode?_after (s : RowSources) (requests : List Request) (node : NodeId) :
    (∀ r ∈ requests, r.registers? ≠ some node) ∧
      (s.after requests).ofNode? node = s.ofNode? node ∨
    (∃ r ∈ requests, r.registers? = some node) ∧
      ∃ id, (s.after requests).ofNode? node = some id ∧ s.size ≤ id.index := by
  induction requests generalizing s with
  | nil => exact .inl ⟨by simp, rfl⟩
  | cons r requests ih =>
    have hstep := ofNode?_perform r s node
    have hsize : s.size ≤ (r.perform s).2.size := (Continues.perform r s).grows.size_le
    rcases ih (r.perform s).2 with ⟨hnone, hsame⟩ | ⟨⟨r', hr', hregisters⟩, id, hid, hle⟩
    · by_cases hr : r.registers? = some node
      · rw [if_pos hr] at hstep
        exact .inr ⟨⟨r, List.mem_cons_self, hr⟩, s.nextId, hsame.trans hstep, Nat.le_refl _⟩
      · rw [if_neg hr] at hstep
        exact .inl ⟨List.forall_mem_cons.mpr ⟨hr, hnone⟩, hsame.trans hstep⟩
    · exact .inr ⟨⟨r', List.mem_cons_of_mem r hr', hregisters⟩, id, hid, Nat.le_trans hsize hle⟩

theorem keeps_owned (r : Request) : r.perform.Keeps Owned := by
  intro s h
  have hmet := s.met r
  generalize r.perform s = result at hmet
  cases hmet with
  | refused => exact h
  | known => exact h
  | table => exact h.of_grows (.registerTable s _ _) rfl rfl
  | node => exact h.register _ _ _
  | view hnone hown => exact h.of_selfView (selfView_of_new hnone hown)
  | row hset => exact h.of_setRow hset

theorem keeps_plain (r : Request) : r.perform.Keeps Plain := by
  intro s h
  have hold : ∀ node id, s.ofNode? node = some id →
      ∃ e, (r.perform s).2.get? id = some e ∧ (e.kind = .query ∨ e.kind = .withItem) := by
    intro node id hid
    obtain ⟨e, he, hkind⟩ := h node id hid
    obtain ⟨e', he', -, hsame, -⟩ := (Continues.perform r s).source id e he
    exact ⟨e', he', by rwa [hsame]⟩
  intro node id hid
  rw [ofNode?_perform] at hid
  split at hid
  · rename_i hregisters
    cases hid
    have hmet := s.met r
    generalize r.perform s = result at hmet
    cases hmet with
    | node hnode hkind => exact ⟨_, get?_register_self s _ _ _, hkind⟩
    | refused hnone => cases hnone.symm.trans hregisters
    | table => cases hregisters
    | view => cases hregisters
    | known => cases hregisters
    | row => cases hregisters
  · exact hold node id hid

/-! ### How views are made -/

/-- A view is made by a request for it, when there is none and the item has a source. -/
theorem selfViewOf?_perform {r : Request}
    (hnone : s.selfViewOf? item = none)
    (hview : (r.perform s).2.selfViewOf? item = some view) :
    r = .selfView item ∧ ∃ own, s.ofNode? item = some own ∧ view = s.nextId := by
  have hmet := s.met r
  generalize r.perform s = result at hmet hview
  have hsame : ∀ {P : Prop}, result.2.selfViewOf? item = s.selfViewOf? item → P := by
    intro P h
    cases hnone.symm.trans (h.symm.trans hview)
  cases hmet with
  | refused => exact hsame rfl
  | known => exact hsame rfl
  | table => exact hsame rfl
  | node => exact hsame rfl
  | row h => exact hsame (selfViewOf?_of_setRow h item)
  | @view other own _ hown =>
    rw [selfViewOf?_addView] at hview
    split at hview
    · rename_i heq
      subst heq
      cases hview
      exact ⟨rfl, own, hown, rfl⟩
    · cases hnone.symm.trans hview

/-- If there is a view after requests, one of them made it. -/
theorem exists_made {requests : List Request} (hnone : s.selfViewOf? item = none)
    (hview : (s.after requests).selfViewOf? item = some view) :
    ∃ own earlier later, s.Made item view own earlier later requests := by
  induction requests generalizing s with
  | nil => cases hnone.symm.trans hview
  | cons r requests ih =>
    cases hnext : (r.perform s).2.selfViewOf? item with
    | none =>
      obtain ⟨own, earlier, later, hsplit, hfirst, hsource, hnumber⟩ := ih hnext hview
      exact ⟨own, r :: earlier, later, congrArg (r :: ·) hsplit, hfirst, hsource, hnumber⟩
    | some made =>
      obtain ⟨rfl, own, hown, hmade⟩ := selfViewOf?_perform hnone hnext
      -- The view that is there in the end is this one, since it stays.
      have hlast := (Continues.after (Request.perform _ s).2 requests).view item made hnext
      obtain rfl : made = view := Option.some.inj (hlast.symm.trans hview)
      exact ⟨own, [], requests, rfl, hnone, hown, hmade⟩

/-! ### What views are linked to -/

theorem linkedTo_addView (howned : s.Owned) (hplain : s.Plain) (hown : s.ofNode? item = some own) :
    (s.addView item own).LinkedTo item s.nextId own := by
  obtain ⟨outside, houtside, hnode⟩ := howned.item item own hown
  obtain ⟨outside', houtside', hkind⟩ := hplain item own hown
  obtain rfl : outside = outside' := Option.some.inj (houtside.symm.trans houtside')
  refine ⟨_, outside, (get?_addView s item own s.nextId).trans (if_pos rfl), ?_, rfl, hnode, rfl, hkind,
    ?_⟩
  · rw [get?_addView, if_neg (Grows.ne_nextId houtside)]
    exact houtside
  · simp [houtside]

/-- The link stays, since a source keeps what the link is about. -/
theorem LinkedTo.mono (h : s.LinkedTo item view own) (hcontinues : s.Continues s') :
    s'.LinkedTo item view own := by
  obtain ⟨inside, outside, hinside, houtside, hnode, hnode', hkind, hkind', henclosing⟩ := h
  obtain ⟨inside', hinside', hn, hk, he⟩ := hcontinues.source view inside hinside
  obtain ⟨outside', houtside', hn', hk', he'⟩ := hcontinues.source own outside houtside
  refine ⟨inside', outside', hinside', houtside', hn.trans hnode, hn'.trans hnode', hk.trans hkind, ?_, ?_⟩
  · rwa [hk']
  · rw [he, he', henclosing]

namespace Made

variable {earlier later requests : List Request}

/-- The registry with the view in it is asked for the later requests. -/
theorem after_eq (h : s.Made item view own earlier later requests) :
    s.after requests = ((s.after earlier).addView item own).after later := by
  rw [h.split]
  show Checking.after _ _ _ = _
  rw [Checking.after_append, Checking.after_cons, Request.perform_selfView_of_new h.first h.source]

theorem linkedTo (h : s.Made item view own earlier later requests) (howned : s.Owned)
    (hplain : s.Plain) : (s.after requests).LinkedTo item view own := by
  have howned' : (s.after earlier).Owned := Checking.keeps_after keeps_owned howned earlier
  have hplain' : (s.after earlier).Plain := Checking.keeps_after keeps_plain hplain earlier
  rw [h.after_eq, h.number]
  exact (linkedTo_addView howned' hplain' h.source).mono (.after _ later)

/-- The source that the view is linked to is the source of the item, as long as the item is not
    registered again. -/
theorem ofNode?_eq_iff (h : s.Made item view own earlier later requests) (howned : s.Owned) :
    (s.after requests).ofNode? item = some own ↔ ∀ r ∈ later, r.registers? ≠ some item := by
  have howned' : (s.after earlier).Owned := Checking.keeps_after keeps_owned howned earlier
  obtain ⟨e, he, -⟩ := howned'.item item own h.source
  have hlt : own.index < (s.after earlier).size := (Array.getElem?_eq_some_iff.mp he).1
  rw [h.after_eq]
  rcases ofNode?_after ((s.after earlier).addView item own) later item with
    ⟨hnone, hsame⟩ | ⟨⟨r, hr, hregisters⟩, id, hid, hle⟩
  · exact iff_of_true (hsame.trans h.source) hnone
  · refine iff_of_false (fun heq => ?_) fun hnone => hnone r hr hregisters
    -- What has been registered since has a number above that of `own`.
    obtain rfl : id = own := Option.some.inj (hid.symm.trans heq)
    have hsize : ((s.after earlier).addView item id).size = (s.after earlier).size + 1 := size_push _ _
    omega

end Made

/-! ### The numbers that are handed out -/

/-- A request hands out the next number, or a number that is known. -/
theorem newNumber?_eq (h : s.Owned) (r : Request) :
    s.newNumber? r = some s.nextId ∧ (r.perform s).2.size = s.size + 1 ∨
      s.newNumber? r = none ∧ (r.perform s).2.size = s.size := by
  have hfresh : s.get? s.nextId = none := Array.getElem?_eq_none (Nat.le_refl _)
  unfold newNumber?
  have hmet := s.met r
  generalize r.perform s = result at hmet
  cases hmet with
  | refused => exact .inr ⟨rfl, rfl⟩
  | table => exact .inl ⟨by simp [hfresh], size_push _ _⟩
  | node => exact .inl ⟨by simp [hfresh], size_push _ _⟩
  | view => exact .inl ⟨by simp [hfresh], size_push _ _⟩
  | known hview =>
    obtain ⟨e, he, -⟩ := h.selfView _ _ hview
    exact .inr ⟨by simp [he], rfl⟩
  | row hset => exact .inr ⟨rfl, size_setRow hset⟩

/-- The numbers of the sources that were there and the new ones that are handed out are all numbers, in
    their order. -/
theorem handedOut_eq (h : s.Owned) (requests : List Request) :
    (List.range s.size).map SourceId.mk ++ s.handedOut requests =
      (List.range (s.after requests).size).map SourceId.mk := by
  induction requests generalizing s with
  | nil => exact List.append_nil _
  | cons r requests ih =>
    have hih := ih (keeps_owned r s h)
    show _ ++ ((s.newNumber? r).toList ++ (r.perform s).2.handedOut requests) = _
    rcases newNumber?_eq h r with ⟨hnumber, hsize⟩ | ⟨hnumber, hsize⟩
    · rw [hsize, List.range_succ, List.map_append, List.append_assoc] at hih
      rw [hnumber]
      exact hih
    · rw [hsize] at hih
      rw [hnumber]
      exact hih

/-- A number that is handed out is the next one, or that of a view that is known. -/
theorem answer_eq (r : Request) (h : (r.perform s).1 = .ok (some id)) : id = s.nextId ∨
    ∃ item, r = .selfView item ∧ s.selfViewOf? item = some id ∧ (r.perform s).2 = s := by
  have hmet := s.met r
  generalize r.perform s = result at hmet h
  cases hmet with
  | refused => cases h
  | row => cases h
  | known hview =>
    cases h
    exact .inr ⟨_, rfl, hview, rfl⟩
  | table | node | view =>
    cases h
    exact .inl rfl

/-- A request that is refused changes nothing. -/
theorem perform_refused (r : Request) {fault : Fault} (h : (r.perform s).1 = .error fault) :
    (r.perform s).2 = s := by
  have hmet := s.met r
  generalize r.perform s = result at hmet h
  cases hmet with
  | refused => rfl
  | known => rfl
  | table | node | view | row => cases h

/-! ### Linked views -/

theorem owned_empty : Owned {} where
  item _ _ h := by cases h
  selfView _ _ h := by cases h

theorem plain_empty : Plain {} := fun _ _ h => by cases h

/-- After any requests, also refused ones, the view of an item from inside is the one that the first
    request for it made, and it stays so. It is linked to the source of the item at that time, which is
    the source of the item now if and only if the item has not been registered since. New numbers are
    counted up, every source keeps its number, its node, its kind and the node it is referred to from,
    and a request that is refused changes nothing. -/
theorem selfViews_linked (requests : List Request) :
    (∀ item view, (after {} requests).selfViewOf? item = some view → ∃ own earlier later,
      Made {} item view own earlier later requests ∧ (after {} requests).LinkedTo item view own ∧
      ((after {} requests).ofNode? item = some own ↔ ∀ r ∈ later, r.registers? ≠ some item) ∧
      ∀ more, (after {} (requests ++ more)).selfViewOf? item = some view) ∧
    handedOut {} requests = (List.range (after {} requests).size).map SourceId.mk ∧
    (∀ more, (after {} requests).Continues (after {} (requests ++ more))) ∧
    ∀ r : Request,
      (∀ id, (r.perform (after {} requests)).1 = .ok (some id) →
        id = (after {} requests).nextId ∨
        ∃ item, r = .selfView item ∧ (after {} requests).selfViewOf? item = some id ∧
          (r.perform (after {} requests)).2 = after {} requests) ∧
      ∀ fault, (r.perform (after {} requests)).1 = .error fault →
        (r.perform (after {} requests)).2 = after {} requests := by
  have hcontinues : ∀ more, (after {} requests).Continues (after {} (requests ++ more)) := by
    intro more
    show Continues _ (Checking.after _ _ _)
    rw [Checking.after_append]
    exact .after _ more
  refine ⟨fun item view hview => ?_, ?_, hcontinues, fun r => ⟨fun id => answer_eq r, fun fault =>
    perform_refused r⟩⟩
  · obtain ⟨own, earlier, later, hmade⟩ := exists_made rfl hview
    exact ⟨own, earlier, later, hmade, hmade.linkedTo owned_empty plain_empty,
      hmade.ofNode?_eq_iff owned_empty, fun more => (hcontinues more).view item view hview⟩
  · exact handedOut_eq owned_empty requests

/-- A view is refused before its item is there, made when it is, and found when it is asked for again. -/
theorem selfViews_linked_asked_twice :
    let requests : List Request := [.selfView ⟨0⟩, .registerItem ⟨0⟩ (some ⟨5⟩), .selfView ⟨0⟩,
      .registerQuery ⟨1⟩ none, .selfView ⟨0⟩]
    (after {} requests).LinkedTo ⟨0⟩ ⟨1⟩ ⟨0⟩ ∧ (after {} requests).ofNode? ⟨0⟩ = some ⟨0⟩ ∧
      handedOut {} requests = [⟨0⟩, ⟨1⟩, ⟨2⟩] := by
  intro requests
  obtain ⟨hviews, hnumbers, -⟩ := selfViews_linked requests
  obtain ⟨own, -, -, -, hlinked, -⟩ := hviews ⟨0⟩ ⟨1⟩ rfl
  obtain ⟨inside, -, hinside, -, -, -, hkind, -⟩ := id hlinked
  cases hinside
  cases hkind
  exact ⟨hlinked, rfl, hnumbers⟩

/-- An item is registered, asked for from inside, and registered again: its view is linked to the source
    that was replaced, and not to the one that the item has now. -/
theorem selfView_outdated : ¬ ∀ requests item view, (after {} requests).selfViewOf? item = some view →
    ∃ own, (after {} requests).ofNode? item = some own ∧
      (after {} requests).LinkedTo item view own := by
  intro h
  obtain ⟨own, hown, inside, -, hinside, -, -, -, hkind, -⟩ :=
    h [.registerItem ⟨0⟩ none, .selfView ⟨0⟩, .registerItem ⟨0⟩ none] ⟨0⟩ ⟨1⟩ rfl
  have hown : some ⟨2⟩ = some own := hown
  cases hown
  cases hinside
  cases hkind

end RowSources

end SqlTyping
