import LiveTree.Proofs.Document.Order
import LiveTree.Proofs.Engine.Meaning
import LiveTree.Proofs.Engine.Naming
import LiveTree.Proofs.Engine.Visit

namespace LiveTree
set_option autoImplicit true

namespace Document

def select (d : Document) (root : ElementId) (name : String) : List ElementId :=
  (d.preorder root).filter fun i => (d.get? i).any (·.holds name)

theorem foldl_modify (d : Document) {f : Element → Element} (hf : ∀ x, (f x).id = x.id)
    {ids : List ElementId} (h : ids.Nodup) :
    ids.foldl (fun d i => d.modify i f) d = d.mapElements (fun x => if x.id ∈ ids then f x else x) := by
  induction ids generalizing d with
  | nil => simp [mapElements]
  | cons i rest ih =>
    obtain ⟨hi, hrest⟩ := List.nodup_cons.1 h
    rw [List.foldl_cons, ih _ hrest, modify_eq_mapElements, mapElements, mapElements, mapElements,
      List.map_map]
    congr 2
    funext x
    by_cases hx : x.id = i
    · simp [hx, hf, hi]
    · simp [hx]

theorem Forest.mem_dirty {d : Document} (hd : d.Forest) (hx : x ∈ d.elements) :
    x.id ∈ d.dirty ↔ x.isDirty = true := by
  rw [dirty, List.mem_map]
  constructor
  · rintro ⟨y, hy, hid⟩
    obtain ⟨hy, hdirty⟩ := List.mem_filter.1 hy
    have hgy := hd.get?_of_mem hy
    rw [hid, hd.get?_of_mem hx] at hgy
    cases hgy
    exact hdirty
  · intro h
    exact ⟨x, List.mem_filter.2 ⟨hx, h⟩, rfl⟩

theorem Forest.pairwise_dirty {d : Document} (hd : d.Forest) : d.dirty.Pairwise (· < ·) :=
  hd.ascending.sublist (List.filter_sublist.map _)

end Document

namespace Engine

theorem flushed_eq_foldl {e : Engine} (hd : e.document.Forest) :
    e.flushed = { e with document := e.document.dirty.foldl (fun d i => d.modify i fun x =>
      x.rendered (e.catalog.text x.kind x.name x.attributes)) e.document } := by
  have hn : e.document.dirty.Nodup := hd.pairwise_dirty.imp Nat.ne_of_lt
  have hfold := e.document.foldl_modify
    (f := fun x => x.rendered (e.catalog.text x.kind x.name x.attributes)) (fun _ => rfl) hn
  have hmap : e.document.elements.map (refresh e.catalog) = e.document.elements.map fun x =>
      if x.id ∈ e.document.dirty then x.rendered (e.catalog.text x.kind x.name x.attributes) else x := by
    apply List.map_congr_left
    intro x hx
    simp only [refresh, hd.mem_dirty hx]
  rw [hfold, flushed, hmap, Document.mapElements]

theorem Act.ordered (hs : Act e e') (h : e.document.Ordered) : e'.document.Ordered := by
  cases hs with
  | mount hx hn =>
    intro r
    exact (e.preorder_loadAll _ r).symm ▸ h r
  | remove hx => exact h.without _
  | assign key value hx hn =>
    exact assigned_keep (P := fun e => e.document.Ordered) h
      (fun name => h.modify _ fun _ => ⟨rfl, rfl⟩) fun h => h.modify _ fun _ => ⟨rfl, rfl⟩
  | touch hx => exact h.modify _ fun _ => ⟨rfl, rfl⟩
  | flush =>
    apply h.mapElements
    intro x
    have hplace := refresh_place e.catalog x
    simp only [Element.place, Prod.mk.injEq] at hplace
    exact ⟨hplace.1, hplace.2.2.1⟩
  | call method hx => exact h
  | log line => exact h

theorem ordered_render {e : Engine} (hc : Coherent e) (hu : tree.Distinct) (h : e.document.Ordered)
    (hr : (render tree).run e = .done root e') : e'.document.Ordered := by
  obtain ⟨hb, hk⟩ := builds_of_render hc hr
  have hf := (hb.coherent hc).forest
  obtain ⟨profile, e'', -, hr', -, hd⟩ := run_render hc hk
  cases hr'.symm.trans hr
  have he := congrArg Document.elements hd
  obtain ⟨-, -, -, hpre⟩ := walk_rendered hf hk hu he
  have hids : (elementsOf e.catalog none profile.tag e.document.nextId tree).map (·.id) = _ :=
    ids_elementsOf tree hk
  obtain ⟨x, below, hid, hx⟩ := elementsOf_eq hk profile.tag e.document.nextId
  have hroot : e'.document.get? e.document.nextId = some { x with parent := none } :=
    hf.get?_eq_some.2 ⟨by simp [he, hx], hid⟩
  -- the new tree counts up from the next id, and all that is new is in it
  have hold : ∀ j y, e.document.get? j = some y → e'.document.get? j = some y := by
    intro j y hy
    obtain ⟨hm, hj⟩ := hc.forest.get?_eq_some.1 hy
    exact hf.get?_eq_some.2 ⟨he ▸ List.mem_append_left _ hm, hj⟩
  apply hc.forest.ordered_grown hf h hold hroot
  · intro j y hy hnone
    obtain ⟨hm, rfl⟩ := hf.get?_eq_some.1 hy
    rw [he, List.mem_append] at hm
    rcases hm with hm | hm
    · rw [hc.forest.get?_of_mem hm] at hnone
      cases hnone
    · rw [hpre, ← hids]
      exact List.mem_map_of_mem hm
  · rw [hpre]
    exact List.pairwise_lt_range'

theorem invariant_ordered (given : Settings) :
    Invariant True (max 1 given.maxDispatchDepth) Action.Proper
      (fun stack e => e.document.Ordered ∧ Level Action.Proper given stack e) where
  coherent h := h.2.coherent
  bounded _ := .inl trivial
  act h hs := ⟨hs.ordered h.1, h.2.act hs⟩
  render ha h hr :=
    ⟨ordered_render h.2.coherent (Action.proper_render.1 ha) h.1 hr,
      (invariant_level lawful_proper given).render ha h.2 hr⟩
  define ha h := ⟨h.1, (invariant_level lawful_proper given).define ha h.2⟩
  enter raw h hl := ⟨h.1, h.2.enter hl raw⟩
  leave {stack raw e} h := by
    have ho : e.leave.document.Ordered :=
      leave_keep (P := fun e => e.document.Ordered) h.1 fun h => Act.ordered .flush h
    exact ⟨ho, h.2.leave⟩
  parsed h := lawful_proper.parsed h
  body h hm := h.2.methods.method? hm
  direct _ := trivial

variable {exchange : Catalog → Catalog → Prop}

theorem Visited.ordered (h : Visited Action.Proper exchange stack e) : e.document.Ordered := by
  obtain ⟨-, ho, -⟩ := h.keep invariant_ordered
    (fun settings _ operations recorder hm =>
      ⟨Document.ordered_empty, level_fresh settings operations recorder hm⟩)
    (fun operations recorder h _ hm => ⟨h.1, h.2.refit operations recorder hm⟩)
  exact ho

/-- The ids under a name, as far as they are in a tree, stand in the order of a walk of the tree. -/
theorem Agrees.filter_idsOf {e : Engine} (h : Agrees e) (hc : Coherent e) (ho : e.document.Ordered)
    (r : ElementId) (n : String) :
    (e.names.idsOf n).filter (· ∈ e.document.preorder r) = e.document.select r n := by
  apply ((hc.names.pairwise_idsOf n).filter _).eq_of_mem_iff ((ho r).filter _)
  intro j
  simp only [List.mem_filter, h n j, decide_eq_true_eq, Option.any_eq_true]
  exact and_comm

/-- The order of creation, the order of every walk and the order under a name are one. -/
theorem document_order (h : Visited Action.Proper (fun _ _ => True) stack e) :
    (e.document.elements.map (·.id)).Pairwise (· < ·) ∧
    e.document.dirty.Pairwise (· < ·) ∧
    flush.run e = .done e.document.dirty.length
      { e with document := e.document.dirty.foldl (fun d i => d.modify i fun x =>
          x.rendered (e.catalog.text x.kind x.name x.attributes)) e.document } ∧
    (∀ r, (e.document.preorder r).Pairwise (· < ·)) ∧
    (∀ r n, (e.names.idsOf n).filter (· ∈ e.document.preorder r) = e.document.select r n) ∧
    (∀ r n i, e.find? n = some i → i ∈ e.document.preorder r →
      (e.document.select r n).head? = some i) ∧
    (∀ r n, (∀ i ∈ e.names.idsOf n, i ∈ e.document.preorder r) →
      e.find? n = (e.document.select r n).head?) := by
  have ho := h.ordered
  obtain ⟨hl, ha⟩ := h.keep_edit lawful_proper (P := Agrees) agrees_fresh
    (fun hc h hs => hs.agrees hc h) (fun _ _ h _ => h)
  have hc := hl.coherent
  have hsel := ha.filter_idsOf hc ho
  refine ⟨hc.forest.ascending, hc.forest.pairwise_dirty, ?_, ho, hsel, ?_, ?_⟩
  · rw [← flushed_eq_foldl hc.forest]
    rfl
  · intro r n i hi hr
    rw [ha.find?_eq] at hi
    obtain ⟨rest, hids⟩ := List.head?_eq_some_iff.1 hi
    rw [← hsel, hids, List.filter_cons_of_pos (by simpa using hr), List.head?_cons]
  · intro r n hall
    rw [ha.find?_eq, ← hsel, List.filter_eq_self.2 (by simpa using hall)]

def namesakes : Engine :=
  let button (name : String) : Tree := (Tree.leaf "Button").withProp "name" (.str name)
  after 0 (fresh {} .standard (fun _ => none) none)
    [ .render ((((Tree.leaf "Card").withChild "body" (button "load")).withChild "body"
        (button "save")).withChild "foot" (button "save")),
      .mount 3,
      .mount 0,
      .setAttribute 1 "name" (.str "save"),
      .unmount 2 ]

theorem visited_namesakes : Visited Action.Proper (fun _ _ => True) [] namesakes := by
  apply (Visited.fresh _ _ _ Catalog.standard_proper).after 0
  rw [List.forall_mem_cons]
  constructor
  · apply Action.proper_render.2
    decide +kernel
  · simp [Operation.Allowed]

theorem document_order_namesakes :
    namesakes.document.preorder 0 = [0, 1, 3] ∧ namesakes.document.select 0 "save" = [1, 3] ∧
      namesakes.find? "save" = some 1 := by
  have hwalk : namesakes.document.preorder 0 = [0, 1, 3] := by decide +kernel
  have hids : namesakes.names.idsOf "save" = [1, 3] := by decide +kernel
  obtain ⟨-, -, -, -, hsel, -, hfind⟩ := document_order visited_namesakes
  have hs := hsel 0 "save"
  rw [hids, hwalk] at hs
  refine ⟨hwalk, hs.symm, ?_⟩
  rw [hfind 0 "save" (by rw [hids, hwalk]; decide), ← hs]
  rfl

end Engine

end LiveTree
