import LiveTree.Proofs.Engine.Meaning
import LiveTree.Proofs.Engine.NameAttribute

namespace LiveTree
set_option autoImplicit true

def Tree.Childless (t : Tree) : Prop :=
  ∀ entry ∈ t.slots, entry.2 = []

instance (t : Tree) : Decidable t.Childless :=
  inferInstanceAs (Decidable (∀ entry ∈ t.slots, entry.2 = []))

theorem Tree.size_withProp (t : Tree) (key : String) (value : Json) :
    (t.withProp key value).size = t.size := by
  obtain ⟨component, props, slots⟩ := t
  rw [withProp, size, size]

/-- The element after one more render that gave nothing new. -/
def Element.renderedAgain (x : Element) : Element :=
  { x with renderCount := x.renderCount + 1 }

def Element.portrait (x : Element) :
    Kind × String × OrderedMap Json × Option String × OrderedMap (List ElementId) :=
  (x.kind, x.name, x.attributes, x.text, x.slots)

namespace Document

theorem snapshotWithin_mapElements (d : Document) {f : Element → Element} (hid : ∀ x, (f x).id = x.id)
    (hf : ∀ x, (f x).portrait = x.portrait) (n : Nat) (i : ElementId) :
    (d.mapElements f).snapshotWithin n i = d.snapshotWithin n i := by
  induction n generalizing i with
  | zero => rfl
  | succ n ih =>
    have hs : (d.mapElements f).snapshotWithin n = d.snapshotWithin n := funext ih
    simp only [snapshotWithin, get?_mapElements d hid, Option.map_map, hs]
    congr 1
    funext x
    have hx := hf x
    simp only [Element.portrait, Prod.mk.injEq] at hx
    obtain ⟨hkind, hname, hattributes, htext, hslots⟩ := hx
    simp only [Function.comp_apply, hkind, hname, hattributes, htext, hslots]

theorem snapshot?_renderedAgain (d : Document) (i root : ElementId) :
    (d.modify i Element.renderedAgain).snapshot? root = d.snapshot? root := by
  have hsize : (d.modify i Element.renderedAgain).size = d.size := List.length_map _
  rw [snapshot?, snapshot?, hsize, modify_eq_mapElements]
  apply snapshotWithin_mapElements d (id_ite (f := Element.renderedAgain) (fun _ => rfl) i)
  intro x
  split <;> rfl

end Document

namespace Engine

theorem storedProps_insert (profile : Profile) {props : OrderedMap Json} (h : props.keys.Nodup)
    (key : String) (value : Json) :
    storedProps profile (props.insert key value) =
      (storedProps profile props).insert key (profile.stored key value) := by
  have h' : (props.insert key value).keys.Nodup := OrderedMap.nodup_keys_update h key _
  rw [storedProps_eq profile h', storedProps_eq profile h, stored_eq]
  exact OrderedMap.map_entries_insert (Meaning.value profile) props key value

theorem declaredName?_insert (props : OrderedMap Json) (key : String) (value : Json) :
    declaredName? (props.insert key value) =
      if key = "name" then Attribute.text? value else declaredName? props := by
  rw [declaredName?, OrderedMap.lookup_insert]
  by_cases hk : key = "name"
  · rw [if_pos hk, if_pos hk.symm]
    rfl
  · rw [if_neg hk, if_neg (Ne.symm hk), declaredName?]

/-- The string form of a value that is not null has the same text. -/
theorem text?_stored (profile : Profile) (key : String) {value : Json} (h : value ≠ .null) :
    Attribute.text? (profile.stored key value) = Attribute.text? value := by
  rw [Profile.stored]
  split
  · cases value <;> first | rfl | exact (h rfl).elim
  · rfl

section Roots

variable {catalog : Catalog} {profile : Profile} {props : OrderedMap Json}

theorem newName?_newElement (hn : key = "name" → value ≠ .null)
    (hx : x = { newElement base profile props placeName with parent, slots }) :
    (newName? x key (profile.stored key value)).elim x x.rename =
      { x with
        name := nameOf (props.insert key value) placeName
        declared := (declaredName? (props.insert key value)).isSome } := by
  rw [nameOf, declaredName?_insert]
  by_cases hk : key = "name"
  · subst hk
    have ht : Attribute.text? value ≠ none := mt Attribute.text?_eq_none.1 (hn rfl)
    obtain ⟨name, ht⟩ := Option.ne_none_iff_exists'.1 ht
    rw [if_pos rfl, ht, rename_newName? x ((text?_stored profile "name" (hn rfl)).trans ht)]
    rfl
  · rw [newName?, if_neg hk, if_neg hk, hx]
    rfl

theorem refresh_markDirty (catalog : Catalog) (x : Element) :
    refresh catalog x.markDirty = x.rendered (catalog.text x.kind x.name x.attributes) :=
  rfl

/-- A new element that is written to and rendered again is as if the prop had been given. -/
theorem refresh_rewritten (hp : catalog.get? profile.kind = some profile) (hk : props.keys.Nodup)
    (hn : key = "name" → value ≠ .null)
    (hx : x = { newElement base profile props placeName with parent, slots }) :
    refresh catalog (rewritten x key (profile.stored key value) x) =
      Element.renderedAgain
        { newElement base profile (props.insert key value) placeName with parent, slots } := by
  have hkind : x.kind = profile.kind := by rw [hx]; rfl
  rw [rewritten, newName?_newElement hn hx, refresh_markDirty]
  simp only [Element.setAttribute, Element.rendered, Catalog.text, hkind, hp]
  subst hx
  simp only [newElement, storedProps_insert profile hk, Option.bind_some, Element.renderedAgain]

theorem slotElements_of_childless (h : ∀ entry ∈ slots, entry.2 = []) (parent : ElementId)
    (name : String) (base : ElementId) : slotElements catalog parent name base slots = [] := by
  induction slots generalizing base with
  | nil => rw [slotElements]
  | cons entry rest ih =>
    obtain ⟨slot, children⟩ := entry
    obtain ⟨rfl, hrest⟩ := List.forall_mem_cons.1 h
    rw [slotElements, childElements, ih hrest, List.append_nil]

theorem nameOf_insert_ne (h : key ≠ "name") (props : OrderedMap Json) (value : Json)
    (placeName : String) : nameOf (props.insert key value) placeName = nameOf props placeName := by
  rw [nameOf, declaredName?_insert, if_neg h, nameOf]

/-- The elements with the prop and those without it differ at the root, and a write makes up for that. -/
theorem elementsOf_withProp (hp : catalog.named tree.component = .ok profile) (hu : tree.Distinct)
    (h : key ≠ "name" ∨ tree.Childless ∧ value ≠ .null) (placeName : String) (base : ElementId) :
    ∃ x x' rest,
      elementsOf catalog none placeName base tree = x :: rest ∧
      elementsOf catalog none placeName base (tree.withProp key value) = x' :: rest ∧
      x.id = base ∧ x.kind = profile.kind ∧ x'.id = base ∧
      refresh catalog (rewritten x key (profile.stored key value) x) = x'.renderedAgain := by
  obtain ⟨component, props, slots⟩ := tree
  have hk : (OrderedMap.keys props).Nodup := (Tree.distinct_iff.1 hu).1.1
  have hn : key = "name" → value ≠ .null := fun hk => (h.resolve_left (not_not_intro hk)).2
  have hrest : slotElements catalog base (nameOf (OrderedMap.insert props key value) placeName)
      (base + 1) slots = slotElements catalog base (nameOf props placeName) (base + 1) slots := by
    rcases h with hk | ⟨hc, -⟩
    · rw [nameOf_insert_ne hk]
    · rw [slotElements_of_childless hc, slotElements_of_childless hc]
  rw [Tree.withProp, elementsOf, elementsOf, hp]
  refine ⟨_, _, _, rfl, congrArg _ hrest, rfl, rfl, rfl, ?_⟩
  exact refresh_rewritten (get?_of_named hp) hk hn rfl

theorem refresh_clean {x : Element} (h : x.state = .clean) : refresh catalog x = x := by
  rw [refresh, Element.isDirty, h]
  rfl

end Roots

variable {e : Engine}

/-- Two renderings from one state, without a prop and with it. -/
structure Twins (e e₀ e₁ : Engine) (x x' : Element) (key : String) (stored : Json) : Prop where
  builds : Builds e e₀
  builds' : Builds e e₁
  documents : ∃ rest next, e₀.document = ⟨e.document.elements ++ x :: rest, next⟩ ∧
    e₁.document = ⟨e.document.elements ++ x' :: rest, next⟩
  id : x.id = e.document.nextId
  id' : x'.id = e.document.nextId
  untouched : Untouched x
  untouched' : Untouched x'
  same : refresh e.catalog (rewritten x key stored x) = x'.renderedAgain

namespace Twins

variable {e₀ e₁ : Engine} (h : Twins e e₀ e₁ x x' key stored) (hc : Coherent e)
include h hc

theorem run_setAttribute (hs : stored = e.catalog.stored x.kind key value) :
    (Engine.setAttribute e.document.nextId key value).run e₀ = .done () (e₀.assigned x key stored) := by
  obtain ⟨rest, next, hd, -⟩ := h.documents
  have hc₀ := h.builds.coherent hc
  have hx : e₀.document.get? x.id = some x := hc₀.forest.get?_of_mem (by simp [hd])
  rw [hs, ← h.builds.catalog_eq, ← h.id]
  apply Engine.run_setAttribute hc₀.names hx
  intro name _ hm
  cases h.untouched.1.symm.trans hm

theorem get?_root : e₁.document.get? e.document.nextId = some x' := by
  obtain ⟨rest, next, -, hd⟩ := h.documents
  rw [← h.id']
  exact (h.builds'.coherent hc).forest.get?_of_mem (by simp [hd])

/-- Once both are flushed they are the same, but the root that was written to is rendered once more. -/
theorem document_flushed :
    (e₀.assigned x key stored).flushed.document =
      e₁.flushed.document.modify e.document.nextId Element.renderedAgain := by
  obtain ⟨rest, next, hd₀, hd₁⟩ := h.documents
  have hn : (e₁.flushed.document.elements.map (·.id)).Nodup :=
    (Act.coherent .flush (h.builds'.coherent hc)).forest.nodup_ids
  have hd : e₁.flushed.document.elements =
      e.document.elements.map (refresh e.catalog) ++ x' :: rest.map (refresh e.catalog) := by
    rw [flushed, hd₁, h.builds'.catalog_eq, List.map_append, List.map_cons, refresh_clean h.untouched'.2.1]
  have ha := document_assigned e₀ x key stored
  rw [Document.modify_middle (h.builds.coherent hc).forest.nodup_ids (congrArg Document.elements hd₀)] at ha
  obtain ⟨d, index, hframe⟩ := e₀.assigned_frame x key stored
  rw [hframe] at ha ⊢
  rw [← h.id', Document.modify_middle hn hd]
  simp only [flushed, tell] at ha ⊢
  rw [ha, hd₀, hd₁, List.map_append, List.map_cons, h.builds.catalog_eq, h.same]

theorem get?_flushed :
    (e₀.assigned x key stored).flushed.document.get? e.document.nextId = some x'.renderedAgain := by
  have hx : e₁.flushed.document.get? e.document.nextId = some x' := by
    have hid (y : Element) : (refresh e₁.catalog y).id = y.id :=
      congrArg Prod.fst (refresh_place e₁.catalog y)
    refine (Document.get?_mapElements _ hid _).trans ?_
    rw [h.get?_root hc, Option.map_some, refresh_clean h.untouched'.2.1]
  rw [h.document_flushed hc]
  exact Document.get?_modify_self (f := Element.renderedAgain) (fun _ => rfl) hx

end Twins

theorem run_renderSlots_childless (h : ∀ entry ∈ slots, entry.2 = []) (parent : ElementId) (name : String)
    (e : Engine) : (renderSlots parent name slots).run e = .done () e := by
  induction slots with
  | nil => rfl
  | cons entry rest ih =>
    obtain ⟨slot, children⟩ := entry
    obtain ⟨rfl, hrest⟩ := List.forall_mem_cons.1 h
    rw [renderSlots, renderChildren, EngineM.run_bind_done (EngineM.run_pure _ e), ih hrest]

theorem run_render_childless (hc : Coherent e) (hk : checkKinds e.catalog tree = .ok ())
    (hp : e.catalog.named tree.component = .ok profile) (h : tree.Childless) :
    (render tree).run e = .done e.document.nextId (e.created profile tree.props profile.tag) := by
  obtain ⟨component, props, slots⟩ := tree
  rw [run_render_eq hk hp, renderAs, EngineM.run_bind_done (EngineM.run_get e), hp, EngineM.ofExcept_ok,
    EngineM.run_bind_done (EngineM.run_pure _ e),
    EngineM.run_bind_done (run_createElement hc.forest _ _ _)]
  exact EngineM.run_bind_done (run_renderSlots_childless h _ _ _) _

theorem creation_insert (id : ElementId) (profile : Profile) {props : OrderedMap Json}
    (h : props.keys.Nodup) (hk : key ∉ props.keys) (value : Json) :
    creation id profile (props.insert key value) =
      creation id profile props ++ [.setAttribute id key (profile.stored key value)] := by
  have hs : key ∉ (storedProps profile props).keys := by
    rw [storedProps_eq profile h, keys_attributes]
    exact hk
  rw [creation, creation, storedProps_insert profile h, OrderedMap.insert,
    OrderedMap.update_of_not_mem hs, List.map_append, List.cons_append]
  rfl

theorem recorder_assigned_created (hk : props.keys.Nodup) (hnew : key ∉ props.keys)
    (hx : x.id = e.document.nextId) (profile : Profile) (value : Json) (placeName : String) :
    ((e.created profile props placeName).assigned x key (profile.stored key value)).recorder =
      (e.created profile (props.insert key value) placeName).recorder := by
  obtain ⟨d, index, ha⟩ := (e.created profile props placeName).assigned_frame x key
    (profile.stored key value)
  rw [ha, hx, created, created, creation_insert _ _ hk hnew, tell_append]
  rfl

theorem elements_flushed_rendered {e₁ : Engine} (hcatalog : e₁.catalog = e.catalog)
    (hd : e₁.document.elements =
      e.document.elements ++ elementsOf e.catalog none placeName e.document.nextId tree) :
    e₁.flushed.document.elements =
      e.flushed.document.elements ++ elementsOf e.catalog none placeName e.document.nextId tree := by
  have hnew : (elementsOf e.catalog none placeName e.document.nextId tree).map (refresh e.catalog) =
      elementsOf e.catalog none placeName e.document.nextId tree :=
    (List.map_congr_left fun x hx => refresh_clean (untouched_elementsOf tree x hx).2.1).trans
      (List.map_id _)
  rw [flushed, hd, hcatalog, List.map_append, hnew, flushed]

theorem snapshot_flushed_rendered {e₁ : Engine} (hc : Coherent e₁) (hcatalog : e₁.catalog = e.catalog)
    (hk : checkKinds e.catalog tree = .ok ()) (hu : tree.Distinct)
    (hd : e₁.document.elements =
      e.document.elements ++ elementsOf e.catalog none placeName e.document.nextId tree) :
    ∃ s, e₁.document.snapshot? e.document.nextId = some s ∧
      e₁.flushed.document.snapshot? e.document.nextId = some s := by
  obtain ⟨s, hs, hsnap, -⟩ := walk_rendered hc.forest hk hu hd
  obtain ⟨s', hs', hsnap', -⟩ := walk_rendered (d := e.flushed.document) (Act.coherent .flush hc).forest hk hu
    (elements_flushed_rendered hcatalog hd)
  cases hs.symm.trans hs'
  exact ⟨s, hsnap, hsnap'⟩

theorem checkKinds_withProp (catalog : Catalog) (tree : Tree) (key : String) (value : Json) :
    checkKinds catalog (tree.withProp key value) = checkKinds catalog tree := by
  obtain ⟨component, props, slots⟩ := tree
  rw [Tree.withProp, checkKinds, checkKinds]

theorem exists_twins (hc : Coherent e) (hk : checkKinds e.catalog tree = .ok ()) (hu : tree.Distinct)
    (hkey : key ≠ "name" ∨ tree.Childless ∧ value ≠ .null) :
    ∃ profile x x' e₀ e₁, e.catalog.named tree.component = .ok profile ∧
      (render tree).run e = .done e.document.nextId e₀ ∧
      (render (tree.withProp key value)).run e = .done e.document.nextId e₁ ∧
      e₁.document.elements = e.document.elements ++
        elementsOf e.catalog none profile.tag e.document.nextId (tree.withProp key value) ∧
      e.catalog.stored x.kind key value = profile.stored key value ∧
      Twins e e₀ e₁ x x' key (profile.stored key value) := by
  have hk' := (checkKinds_withProp e.catalog tree key value).trans hk
  obtain ⟨profile, e₀, hp, hr₀, hb₀, hd₀⟩ := run_render hc hk
  obtain ⟨profile', e₁, hp', hr₁, hb₁, hd₁⟩ := run_render hc hk'
  cases hp.symm.trans hp'
  obtain ⟨x, x', rest, hx, hx', hid, hkind, hid', hsame⟩ :=
    elementsOf_withProp hp hu hkey profile.tag e.document.nextId
  refine ⟨profile, x, x', e₀, e₁, hp, hr₀, hr₁, congrArg Document.elements hd₁, ?_, ?_⟩
  · rw [Catalog.stored, hkind, get?_of_named hp]
  · rw [hx] at hd₀
    rw [hx', Tree.size_withProp] at hd₁
    exact {
      builds := hb₀
      builds' := hb₁
      documents := ⟨rest, _, hd₀, hd₁⟩
      id := hid
      id' := hid'
      untouched := untouched_elementsOf tree x (hx ▸ List.mem_cons_self)
      untouched' := untouched_elementsOf (tree.withProp key value) x' (hx' ▸ List.mem_cons_self)
      same := hsame }

/-- A prop that is given to the root, and an attribute that is written to it later, come to the same. -/
theorem late_prop (h : Passed stack e)
    (hk : ∀ t ∈ tree.nodes, ∃ profile, e.catalog.named t.component = .ok profile) (hu : tree.Distinct)
    (hkey : key ≠ "name" ∨ tree.Childless ∧ value ≠ .null) :
    let root := e.document.nextId
    ∃ s x y e₁ e₂, (render (tree.withProp key value)).run e = .done root e₁ ∧
      (do
        let root ← render tree
        setAttribute root key value
        let _ ← flush
        pure root).run e = .done root e₂ ∧
      e₁.document.snapshot? root = some s ∧ e₂.document.snapshot? root = some s ∧
      e₁.document.get? root = some x ∧ e₂.document.get? root = some y ∧ x.declared = y.declared ∧
      (tree.Childless → key ∉ OrderedMap.keys tree.props → e₁.recorder = e₂.recorder) := by
  have hc := (h.level lawful_true).coherent
  have hk := checkKinds_of_nodes tree hk
  have hk' := (checkKinds_withProp e.catalog tree key value).trans hk
  obtain ⟨profile, x, x', e₀, e₁, hp, hr₀, hr₁, hd, hstored, ht⟩ := exists_twins hc hk hu hkey
  have hset := ht.run_setAttribute hc hstored.symm
  obtain ⟨s, hsnap, hsnap'⟩ := snapshot_flushed_rendered (ht.builds'.coherent hc) ht.builds'.catalog_eq hk'
    (hu.withProp key value) hd
  refine ⟨s, x', x'.renderedAgain, e₁, (e₀.assigned x key (profile.stored key value)).flushed, hr₁, ?_, hsnap,
    ?_, ht.get?_root hc, ht.get?_flushed hc, rfl, ?_⟩
  · rw [EngineM.run_bind_done hr₀, EngineM.run_bind_done hset]
    rfl
  · rw [ht.document_flushed hc, Document.snapshot?_renderedAgain]
    exact hsnap'
  · intro hless hnew
    cases hr₀.symm.trans (run_render_childless hc hk hp hless)
    cases hr₁.symm.trans (run_render_childless hc hk' hp hless)
    exact (recorder_assigned_created (Tree.distinct_iff.1 hu).1.1 hnew ht.id profile value profile.tag).symm

def dirtyButton : Engine :=
  after 0 (fresh { namePolicy := .reject } .standard (fun _ => none) (some {}))
    [.renderAndMount ((Tree.leaf "Button").withProp "name" (.str "5")),
     .setAttribute 0 "label" (.str "five")]

theorem late_prop_dirtyButton :
    ∃ s e₁ e₂,
      (render ((Tree.leaf "Chip").withProp "name" (.ofNat 5))).run dirtyButton = .done 1 e₁ ∧
      (do
        let root ← render (.leaf "Chip")
        setAttribute root "name" (.ofNat 5)
        let _ ← flush
        pure root).run dirtyButton = .done 1 e₂ ∧
      e₁.document.snapshot? 1 = some s ∧ e₂.document.snapshot? 1 = some s ∧ s.name = "5" ∧
      e₁.recorder = e₂.recorder := by
  have h : Passed [] dirtyButton := visited_after _ _ _ _ _ _
  have hknown : ∀ t ∈ (Tree.leaf "Chip").nodes, dirtyButton.catalog.knows t.component = true := by
    decide +kernel
  have hu : (Tree.leaf "Chip").Distinct := by decide +kernel
  have hless : (Tree.leaf "Chip").Childless := by decide +kernel
  have hvalue : Json.ofNat 5 ≠ .null := fun hv => by cases hv
  have hname : ((render ((Tree.leaf "Chip").withProp "name" (.ofNat 5))).run dirtyButton).engine?.bind
      (fun e => (e.document.snapshot? 1).map (·.name)) = some "5" := by decide +kernel
  have hroot : dirtyButton.document.nextId = 1 := by decide +kernel
  obtain ⟨s, x, y, e₁, e₂, hr₁, hr₂, hs₁, hs₂, -, -, -, hrecorder⟩ :=
    late_prop h (fun t ht => Catalog.knows_iff.1 (hknown t ht)) hu (.inr ⟨hless, hvalue⟩)
  rw [hroot] at hr₁ hr₂ hs₁ hs₂
  rw [hr₁, Outcome.engine?, Option.bind_some, hs₁] at hname
  exact ⟨s, e₁, e₂, hr₁, hr₂, hs₁, hs₂, Option.some.inj hname, hrecorder hless List.not_mem_nil⟩

end Engine

end LiveTree
