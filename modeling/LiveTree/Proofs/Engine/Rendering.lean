import Mathlib.Data.List.Forall2
import LiveTree.Proofs.Engine.Edit
import LiveTree.Proofs.Kind
import LiveTree.Proofs.Tree

namespace LiveTree.Engine
set_option autoImplicit true

variable {catalog : Catalog}

/-- The slots after children were put into one of them. -/
def filledSlot (slot : String) (base : ElementId) (slots : OrderedMap (List ElementId)) :
    List Tree → OrderedMap (List ElementId)
  | [] => slots
  | child :: rest => filledSlot slot (base + child.size) (slots.push slot base) rest

def filledSlots (base : ElementId) (slots : OrderedMap (List ElementId)) :
    List (String × List Tree) → OrderedMap (List ElementId)
  | [] => slots
  | (slot, children) :: rest =>
    filledSlots (base + Tree.childrenSize children) (filledSlot slot base slots children) rest

mutual

/-- The elements that a tree is rendered as, with consecutive ids from a base on. -/
def elementsOf (catalog : Catalog) (parent : Option ElementId) (placeName : String)
    (base : ElementId) : Tree → List Element
  | ⟨component, props, slots⟩ =>
    match catalog.named component with
    | .ok profile =>
      { newElement base profile props placeName with
        parent, slots := filledSlots (base + 1) [] slots } ::
        slotElements catalog base (nameOf props placeName) (base + 1) slots
    | .error _ => []

def slotElements (catalog : Catalog) (parent : ElementId) (name : String) (base : ElementId) :
    List (String × List Tree) → List Element
  | [] => []
  | (slot, children) :: rest =>
    childElements catalog parent name slot 0 base children ++
      slotElements catalog parent name (base + Tree.childrenSize children) rest

def childElements (catalog : Catalog) (parent : ElementId) (name slot : String) (index : Nat)
    (base : ElementId) : List Tree → List Element
  | [] => []
  | child :: rest =>
    elementsOf catalog (some parent) (childName name slot index) base child ++
      childElements catalog parent name slot (index + 1) (base + child.size) rest

end

theorem bind_eq_ok {x : Except Error α} {f : α → Except Error β} {b : β} (h : x >>= f = .ok b) :
    ∃ a, x = .ok a ∧ f a = .ok b := by
  cases x with
  | error error => cases h
  | ok a => exact ⟨a, rfl, h⟩

theorem get?_of_named (h : catalog.named component = .ok profile) :
    catalog.get? profile.kind = some profile := by
  rw [Catalog.named] at h
  split at h
  · rename_i found hf
    cases h
    obtain ⟨kind, -, hk⟩ := Option.bind_eq_some_iff.1 hf
    have he : profile.kind = kind := by simpa using List.find?_some hk
    rw [he]
    exact hk
  · cases h

theorem checkKinds_ok (h : checkKinds catalog ⟨component, props, slots⟩ = .ok ()) :
    ∃ profile, catalog.named component = .ok profile ∧ checkSlots catalog slots = .ok () := by
  rw [checkKinds] at h
  exact bind_eq_ok h

theorem checkSlots_ok (h : checkSlots catalog ((slot, children) :: rest) = .ok ()) :
    checkChildren catalog children = .ok () ∧ checkSlots catalog rest = .ok () := by
  rw [checkSlots] at h
  obtain ⟨_, hc, hr⟩ := bind_eq_ok h
  exact ⟨hc, hr⟩

theorem checkChildren_ok (h : checkChildren catalog (child :: rest) = .ok ()) :
    checkKinds catalog child = .ok () ∧ checkChildren catalog rest = .ok () := by
  rw [checkChildren] at h
  obtain ⟨_, hc, hr⟩ := bind_eq_ok h
  exact ⟨hc, hr⟩

def unknown? (catalog : Catalog) (nodes : List Tree) : Option Tree :=
  nodes.find? fun node => !catalog.knows node.component

def verdict : Option Tree → Except Error Unit
  | some node => .error (.unknownKind node.component)
  | none => .ok ()

theorem unknown?_cons (catalog : Catalog) (node : Tree) (rest : List Tree) :
    unknown? catalog (node :: rest) =
      if catalog.knows node.component then unknown? catalog rest else some node := by
  rw [unknown?, List.find?_cons]
  cases catalog.knows node.component <;> rfl

theorem verdict_append (catalog : Catalog) (nodes others : List Tree) :
    verdict (unknown? catalog (nodes ++ others)) =
      (verdict (unknown? catalog nodes) >>= fun _ => verdict (unknown? catalog others)) := by
  rw [unknown?, List.find?_append, ← unknown?, ← unknown?]
  cases unknown? catalog nodes <;> rfl

mutual

/-- A tree is checked component by component, parents first. -/
theorem checkKinds_eq (catalog : Catalog) (tree : Tree) :
    checkKinds catalog tree = verdict (unknown? catalog tree.nodes) := by
  match tree with
  | ⟨component, props, slots⟩ =>
    rw [checkKinds, Tree.nodes, checkSlots_eq, unknown?_cons]
    cases hk : catalog.knows component with
    | false =>
      rw [Catalog.named_of_not_knows hk]
      rfl
    | true =>
      obtain ⟨profile, hp⟩ := Catalog.named_of_knows hk
      rw [hp]
      rfl

theorem checkSlots_eq (catalog : Catalog) (slots : List (String × List Tree)) :
    checkSlots catalog slots = verdict (unknown? catalog (Tree.slotNodes slots)) := by
  match slots with
  | [] =>
    rw [checkSlots, Tree.slotNodes]
    rfl
  | (slot, children) :: rest =>
    rw [checkSlots, Tree.slotNodes, verdict_append, checkChildren_eq, checkSlots_eq]

theorem checkChildren_eq (catalog : Catalog) (children : List Tree) :
    checkChildren catalog children = verdict (unknown? catalog (Tree.childNodes children)) := by
  match children with
  | [] =>
    rw [checkChildren, Tree.childNodes]
    rfl
  | child :: rest =>
    rw [checkChildren, Tree.childNodes, verdict_append, checkKinds_eq, checkChildren_eq]

end

theorem checkKinds_of_nodes (tree : Tree)
    (h : ∀ t ∈ tree.nodes, ∃ profile, catalog.named t.component = .ok profile) :
    checkKinds catalog tree = .ok () := by
  have hnone : unknown? catalog tree.nodes = none := by
    rw [unknown?, List.find?_eq_none]
    intro t ht
    rw [Catalog.knows_iff.2 (h t ht)]
    exact Bool.false_ne_true
  rw [checkKinds_eq, hnone]
  rfl

theorem elementsOf_eq (h : checkKinds catalog tree = .ok ()) (placeName : String) (base : ElementId) :
    ∃ (root : Element) (rest : List Element), root.id = base ∧
      ∀ parent, elementsOf catalog parent placeName base tree = { root with parent } :: rest := by
  match tree with
  | ⟨component, props, slots⟩ =>
    obtain ⟨profile, hp, -⟩ := checkKinds_ok h
    refine ⟨{ newElement base profile props placeName with slots := filledSlots (base + 1) [] slots },
      slotElements catalog base (nameOf props placeName) (base + 1) slots, rfl, fun parent => ?_⟩
    rw [elementsOf, hp]

theorem run_createElement {e : Engine} (hd : e.document.Forest) (profile : Profile)
    (props : OrderedMap Json) (placeName : String) :
    (createElement profile props placeName).run e =
      .done e.document.nextId (e.created profile props placeName) := by
  rw [createElement, EngineM.run_bind_done (EngineM.run_get e)]
  dsimp only [Document.add]
  rw [EngineM.run_bind_done (EngineM.run_set _ _), EngineM.run_bind_done (run_record _ _),
    EngineM.run_bind_done (run_forM_record _ _ _), ← tell_append]
  let blank : Element := { id := e.document.nextId, kind := profile.kind, name := nameOf props placeName }
  exact congrArg
    (fun d => Outcome.done e.document.nextId ({ e with document := d }.tell
      (creation e.document.nextId profile props)))
    (hd.modify_push (x := blank) rfl _)

theorem run_adopt {e : Engine} (hp : e.document.get? p = some a) (hc : e.document.get? c = some b)
    (slot : String) : (adopt p slot c).run e = .done () (e.adopted p slot c) := by
  rw [adopt, EngineM.run_bind_done (EngineM.run_get e), Document.attach_eq hp hc,
    EngineM.ofExcept_ok, EngineM.run_bind_done (EngineM.run_pure _ e)]
  rfl

theorem Build.frame (h : Build e e') : ∃ d r, e' = { e with document := d, recorder := r } := by
  cases h <;> exact ⟨_, _, rfl⟩

/-- Rendering changes the document and tells the host, and nothing else. -/
theorem Builds.frame (h : Builds e e') : ∃ d r, e' = { e with document := d, recorder := r } := by
  induction h with
  | refl => exact ⟨_, _, rfl⟩
  | tail _ h ih =>
    obtain ⟨d, r, rfl⟩ := ih
    obtain ⟨d', r', rfl⟩ := h.frame
    exact ⟨d', r', rfl⟩

theorem Builds.catalog_eq (h : Builds e e') : e'.catalog = e.catalog := by
  obtain ⟨d, r, rfl⟩ := h.frame
  rfl

theorem run_adopt_middle {e : Engine} (hc : Coherent e)
    (h : e.document.elements = front ++ x :: (mid ++ y :: below)) (hm : x.mounted = false)
    (hr : y.parent = none) (slot : String) :
    (adopt x.id slot y.id).run e = .done () (e.adopted x.id slot y.id) ∧
      Build e (e.adopted x.id slot y.id) ∧
      (e.adopted x.id slot y.id).document =
        { e.document with
          elements := front ++ x.addChild slot y.id ::
            (mid ++ { y with parent := some x.id } :: below) } := by
  have hx : e.document.get? x.id = some x := hc.forest.get?_of_mem (by simp [h])
  have hy : e.document.get? y.id = some y := hc.forest.get?_of_mem (by simp [h])
  have hlt : x.id < y.id := by
    have ha := hc.forest.ascending
    rw [h, List.map_append, List.pairwise_append] at ha
    exact (List.pairwise_cons.1 ha.2.1).1 y.id (by simp)
  exact ⟨run_adopt hx hy slot, .adopt slot hx hy hr hlt hm,
    Document.attached_middle hc.forest.nodup_ids h slot⟩

theorem run_adopt_rendered {e e₁ : Engine} (hc : Coherent e)
    (hk : checkKinds e.catalog tree = .ok ()) (h : e.document.elements = front ++ x :: mid)
    (hm : x.mounted = false) (hb : Builds e e₁)
    (hd : e₁.document =
      { elements := e.document.elements ++ elementsOf e.catalog none placeName e.document.nextId tree
        nextId := e.document.nextId + tree.size }) (slot : String) :
    ∃ e₂, (adopt x.id slot e.document.nextId).run e₁ = .done () e₂ ∧ Builds e e₂ ∧
      e₂.document =
        { elements := front ++ x.addChild slot e.document.nextId ::
            (mid ++ elementsOf e.catalog (some x.id) placeName e.document.nextId tree)
          nextId := e.document.nextId + tree.size } := by
  obtain ⟨root, below, hid, hroot⟩ := elementsOf_eq hk placeName e.document.nextId
  have h₁ : e₁.document.elements = front ++ x :: (mid ++ { root with parent := none } :: below) := by
    rw [hd, h, hroot none, List.append_assoc, List.cons_append]
  obtain ⟨hr, hb', hd'⟩ := run_adopt_middle (hb.coherent hc) h₁ hm rfl slot
  refine ⟨_, hid ▸ hr, hb.tail hb', ?_⟩
  rw [hd', hd, hroot (some x.id), ← hid]

-- While its slots are filled, an element stands somewhere in the middle: what is older comes before it,
-- and `mid` are its descendants so far. Both are left as they are.
mutual

theorem run_renderAs (tree : Tree) {e : Engine} (hc : Coherent e)
    (hk : checkKinds e.catalog tree = .ok ()) (placeName : String) :
    ∃ e', (renderAs placeName tree).run e = .done e.document.nextId e' ∧
      Builds e e' ∧
      e'.document =
        { elements := e.document.elements ++
            elementsOf e.catalog none placeName e.document.nextId tree
          nextId := e.document.nextId + tree.size } := by
  match tree with
  | ⟨component, props, slots⟩ =>
    obtain ⟨profile, hp, hs⟩ := checkKinds_ok hk
    have hb : Build e (e.created profile props placeName) := .create _ _ (get?_of_named hp)
    obtain ⟨e', hr, hbs, hd⟩ := run_renderSlots slots (hb.coherent hc) hs rfl rfl
      (nameOf props placeName)
    refine ⟨e', ?_, .head hb hbs, ?_⟩
    · rw [renderAs, EngineM.run_bind_done (EngineM.run_get e), hp, EngineM.ofExcept_ok,
        EngineM.run_bind_done (EngineM.run_pure _ e),
        EngineM.run_bind_done (run_createElement hc.forest _ _ _)]
      exact EngineM.run_bind_done hr _
    · rw [hd, elementsOf, hp, Tree.size, ← Nat.add_assoc]
      rfl

theorem run_renderSlots (slots : List (String × List Tree)) {e : Engine} (hc : Coherent e)
    (hk : checkSlots e.catalog slots = .ok ()) (h : e.document.elements = front ++ x :: mid)
    (hm : x.mounted = false) (name : String) :
    ∃ e', (renderSlots x.id name slots).run e = .done () e' ∧ Builds e e' ∧
      e'.document =
        { elements := front ++ { x with slots := filledSlots e.document.nextId x.slots slots } ::
            (mid ++ slotElements e.catalog x.id name e.document.nextId slots)
          nextId := e.document.nextId + Tree.slotsSize slots } := by
  match slots with
  | [] =>
    refine ⟨e, rfl, .refl, ?_⟩
    rw [slotElements, List.append_nil, filledSlots, ← h]
    rfl
  | (slot, children) :: rest =>
    obtain ⟨hk₁, hk₂⟩ := checkSlots_ok hk
    obtain ⟨e₁, hr₁, hb₁, hd₁⟩ := run_renderChildren children hc hk₁ h hm name slot 0
    have hc₁ := hb₁.coherent hc
    obtain ⟨d, r, rfl⟩ := hb₁.frame
    cases hd₁
    obtain ⟨e', hr, hb, hd⟩ := run_renderSlots rest hc₁ hk₂ rfl hm name
    refine ⟨e', ?_, hb₁.trans hb, ?_⟩
    · rw [renderSlots, EngineM.run_bind_done hr₁]
      exact hr
    · rw [hd, slotElements, filledSlots, Tree.slotsSize, ← Nat.add_assoc, List.append_assoc]

theorem run_renderChildren (children : List Tree) {e : Engine} (hc : Coherent e)
    (hk : checkChildren e.catalog children = .ok ()) (h : e.document.elements = front ++ x :: mid)
    (hm : x.mounted = false) (name slot : String) (index : Nat) :
    ∃ e', (renderChildren x.id name slot index children).run e = .done () e' ∧ Builds e e' ∧
      e'.document =
        { elements := front ++ { x with slots := filledSlot slot e.document.nextId x.slots children } ::
            (mid ++ childElements e.catalog x.id name slot index e.document.nextId children)
          nextId := e.document.nextId + Tree.childrenSize children } := by
  match children with
  | [] =>
    refine ⟨e, rfl, .refl, ?_⟩
    rw [childElements, List.append_nil, filledSlot, ← h]
    rfl
  | child :: rest =>
    obtain ⟨hk₁, hk₂⟩ := checkChildren_ok hk
    obtain ⟨e₁, hr₁, hb₁, hd₁⟩ := run_renderAs child hc hk₁ (childName name slot index)
    obtain ⟨e₂, hr₂, hb₂, hd₂⟩ := run_adopt_rendered hc hk₁ h hm hb₁ hd₁ slot
    have hc₂ := hb₂.coherent hc
    obtain ⟨d, r, rfl⟩ := hb₂.frame
    cases hd₂
    obtain ⟨e', hr, hb, hd⟩ := run_renderChildren rest hc₂ hk₂ rfl hm name slot (index + 1)
    refine ⟨e', ?_, hb₂.trans hb, ?_⟩
    · rw [renderChildren, EngineM.run_bind_done hr₁, EngineM.run_bind_done hr₂]
      exact hr
    · rw [hd, childElements, filledSlot, Tree.childrenSize, ← Nat.add_assoc, List.append_assoc]
      rfl

end

theorem run_render_unknown {e : Engine} (h : checkKinds e.catalog tree = .error error) :
    (render tree).run e = .failed error e := by
  rw [render, EngineM.run_bind_done (EngineM.run_get e), h, EngineM.ofExcept_error,
    EngineM.run_bind_failed (EngineM.run_throw error e)]

theorem run_render_eq {e : Engine} (hk : checkKinds e.catalog tree = .ok ())
    (hp : e.catalog.named tree.component = .ok profile) :
    (render tree).run e = (renderAs profile.tag tree).run e := by
  rw [render, EngineM.run_bind_done (EngineM.run_get e), hk, EngineM.ofExcept_ok,
    EngineM.run_bind_done (EngineM.run_pure _ e), hp, EngineM.ofExcept_ok,
    EngineM.run_bind_done (EngineM.run_pure _ e)]

theorem run_render {e : Engine} (hc : Coherent e) (hk : checkKinds e.catalog tree = .ok ()) :
    ∃ profile e', e.catalog.named tree.component = .ok profile ∧
      (render tree).run e = .done e.document.nextId e' ∧ Builds e e' ∧
      e'.document =
        { elements := e.document.elements ++
            elementsOf e.catalog none profile.tag e.document.nextId tree
          nextId := e.document.nextId + tree.size } := by
  obtain ⟨component, props, slots⟩ := tree
  obtain ⟨profile, hp, -⟩ := checkKinds_ok hk
  obtain ⟨e', hr, hb, hd⟩ := run_renderAs _ hc hk profile.tag
  exact ⟨profile, e', hp, (run_render_eq hk hp).trans hr, hb, hd⟩

theorem builds_of_render {e : Engine} (hc : Coherent e) (h : (render tree).run e = .done root e') :
    Builds e e' ∧ checkKinds e.catalog tree = .ok () := by
  cases hk : checkKinds e.catalog tree with
  | error error =>
    rw [run_render_unknown hk] at h
    cases h
  | ok _ =>
    obtain ⟨profile, e'', -, hr, hb, -⟩ := run_render hc hk
    cases hr.symm.trans h
    exact ⟨hb, rfl⟩

/-- An element that nothing happened to since it was rendered. -/
def Untouched (x : Element) : Prop :=
  x.mounted = false ∧ x.state = .clean ∧ x.renderCount = 1

mutual

theorem untouched_elementsOf (tree : Tree) :
    ∀ x ∈ elementsOf catalog parent placeName base tree, Untouched x := by
  match tree with
  | ⟨component, props, slots⟩ =>
    rw [elementsOf]
    cases catalog.named component with
    | error error => exact fun x hx => (List.not_mem_nil hx).elim
    | ok profile =>
      exact List.forall_mem_cons.2 ⟨⟨rfl, rfl, rfl⟩, untouched_slotElements slots⟩

theorem untouched_slotElements (slots : List (String × List Tree)) :
    ∀ x ∈ slotElements catalog parent name base slots, Untouched x := by
  match slots with
  | [] =>
    rw [slotElements]
    exact fun x hx => (List.not_mem_nil hx).elim
  | (slot, children) :: rest =>
    rw [slotElements]
    exact List.forall_mem_append.2 ⟨untouched_childElements children, untouched_slotElements rest⟩

theorem untouched_childElements (children : List Tree) :
    ∀ x ∈ childElements catalog parent name slot index base children, Untouched x := by
  match children with
  | [] =>
    rw [childElements]
    exact fun x hx => (List.not_mem_nil hx).elim
  | child :: rest =>
    rw [childElements]
    exact List.forall_mem_append.2 ⟨untouched_elementsOf child, untouched_childElements rest⟩

end

theorem untouched_of_get? {d d' : Document} (hd : d.Forest)
    (h : d'.elements = d.elements ++ elementsOf catalog parent placeName d.nextId tree)
    (hj : d.nextId ≤ j) (hx : d'.get? j = some x) : Untouched x := by
  have hm := Document.mem_of_get? hx
  rw [h, List.mem_append] at hm
  rcases hm with hm | hm
  · have hlt := hd.bounded (hd.get?_of_mem hm)
    rw [Document.id_of_get? hx] at hlt
    exact (Nat.lt_irrefl _ (Nat.lt_of_lt_of_le hlt hj)).elim
  · exact untouched_elementsOf tree x hm

mutual

theorem ids_elementsOf (tree : Tree) (h : checkKinds catalog tree = .ok ()) :
    (elementsOf catalog parent placeName base tree).map (·.id) = List.range' base tree.size := by
  match tree with
  | ⟨component, props, slots⟩ =>
    obtain ⟨profile, hp, hs⟩ := checkKinds_ok h
    rw [elementsOf, hp, List.map_cons, ids_slotElements slots hs, Tree.size, Nat.add_comm 1,
      List.range'_succ]
    rfl

theorem ids_slotElements (slots : List (String × List Tree))
    (h : checkSlots catalog slots = .ok ()) :
    (slotElements catalog parent name base slots).map (·.id) =
      List.range' base (Tree.slotsSize slots) := by
  match slots with
  | [] =>
    rw [slotElements, Tree.slotsSize]
    rfl
  | (slot, children) :: rest =>
    obtain ⟨hc, hr⟩ := checkSlots_ok h
    rw [slotElements, List.map_append, ids_childElements children hc, ids_slotElements rest hr,
      Tree.slotsSize, List.range'_append_1]

theorem ids_childElements (children : List Tree) (h : checkChildren catalog children = .ok ()) :
    (childElements catalog parent name slot index base children).map (·.id) =
      List.range' base (Tree.childrenSize children) := by
  match children with
  | [] =>
    rw [childElements, Tree.childrenSize]
    rfl
  | child :: rest =>
    obtain ⟨hc, hr⟩ := checkChildren_ok h
    rw [childElements, List.map_append, ids_elementsOf child hc, ids_childElements rest hr,
      Tree.childrenSize, List.range'_append_1]

end

/-- An element as a component is rendered, wherever in a tree that is. -/
def Depicts (catalog : Catalog) (node : Tree) (x : Element) : Prop :=
  ∃ profile placeName parent slots, catalog.named node.component = .ok profile ∧
    x = { newElement x.id profile node.props placeName with parent, slots }

mutual

theorem forall₂_elementsOf (tree : Tree) (h : checkKinds catalog tree = .ok ()) :
    List.Forall₂ (Depicts catalog) tree.nodes (elementsOf catalog parent placeName base tree) := by
  match tree with
  | ⟨component, props, slots⟩ =>
    obtain ⟨profile, hp, hs⟩ := checkKinds_ok h
    rw [Tree.nodes, elementsOf, hp]
    exact .cons ⟨profile, placeName, parent, _, hp, rfl⟩ (forall₂_slotElements slots hs)

theorem forall₂_slotElements (slots : List (String × List Tree))
    (h : checkSlots catalog slots = .ok ()) :
    List.Forall₂ (Depicts catalog) (Tree.slotNodes slots)
      (slotElements catalog parent name base slots) := by
  match slots with
  | [] =>
    rw [Tree.slotNodes, slotElements]
    exact .nil
  | (slot, children) :: rest =>
    obtain ⟨hc, hr⟩ := checkSlots_ok h
    rw [Tree.slotNodes, slotElements]
    exact List.rel_append (forall₂_childElements children hc) (forall₂_slotElements rest hr)

theorem forall₂_childElements (children : List Tree) (h : checkChildren catalog children = .ok ()) :
    List.Forall₂ (Depicts catalog) (Tree.childNodes children)
      (childElements catalog parent name slot index base children) := by
  match children with
  | [] =>
    rw [Tree.childNodes, childElements]
    exact .nil
  | child :: rest =>
    obtain ⟨hc, hr⟩ := checkChildren_ok h
    rw [Tree.childNodes, childElements]
    exact List.rel_append (forall₂_elementsOf child hc) (forall₂_childElements rest hr)

end

theorem exists_depicted {tree : Tree} (h : checkKinds catalog tree = .ok ())
    (hx : x ∈ elementsOf catalog parent placeName base tree) :
    ∃ node ∈ tree.nodes, Depicts catalog node x := by
  obtain ⟨k, rfl⟩ := List.get_of_mem hx
  obtain ⟨hlen, hget⟩ := List.forall₂_iff_get.1 (forall₂_elementsOf tree h)
  have hk : k.val < tree.nodes.length := Nat.lt_of_lt_of_eq k.isLt hlen.symm
  exact ⟨_, List.get_mem _ ⟨k, hk⟩, hget k hk k.isLt⟩

end LiveTree.Engine
