import LiveTree.Engine.Method
import LiveTree.Proofs.Document.Growth
import LiveTree.Proofs.Document.Pruning
import LiveTree.Proofs.Engine.Outcome
import LiveTree.Proofs.NameIndex

namespace LiveTree
set_option autoImplicit true

namespace Engine

def newElement (id : ElementId) (profile : Profile) (props : OrderedMap Json)
    (placeName : String) : Element :=
  let name := nameOf props placeName
  let attributes := storedProps profile props
  { id, kind := profile.kind, name, declared := (declaredName? props).isSome, attributes
    text := profile.text name attributes, state := .clean, renderCount := 1 }

def creation (id : ElementId) (profile : Profile) (props : OrderedMap Json) : List Patch :=
  .create id profile.kind profile.tag ::
    (storedProps profile props).map (fun entry => .setAttribute id entry.1 entry.2)

def created (e : Engine) (profile : Profile) (props : OrderedMap Json) (placeName : String) : Engine :=
  let id := e.document.nextId
  { e with document := e.document.push (newElement id profile props placeName) }.tell
    (creation id profile props)

def adopted (e : Engine) (parent : ElementId) (slot : String) (child : ElementId) : Engine :=
  { e with document := e.document.attached parent slot child }.tell [.appendToSlot parent slot child]

def enrolled (names : NameIndex) (elements : List Element) : NameIndex :=
  elements.foldl (fun names x => names.insert x.name x.id) names

def mounted (e : Engine) (root : ElementId) : Engine :=
  { e with
    names := enrolled e.names ((pending e.document root).filter (·.declared))
    document := e.loadAll root }

def struck (names : NameIndex) (elements : List Element) : NameIndex :=
  elements.foldl
    (fun names x => if x.mounted && x.declared then names.unregister x.name x.id else names) names

def removed (e : Engine) (root : ElementId) : Engine :=
  let ids := e.document.preorder root
  let elements := ids.filterMap e.document.get?
  { e with document := e.document.without ids, names := struck e.names elements }.tell
    (elements.map fun (x : Element) => Patch.remove x.id)

/-- The name that a write gives to an element, if it is a new one. -/
def newName? (x : Element) (key : String) (value : Json) : Option String :=
  if key = "name" then
    (Attribute.text? value).filter (fun name => !(x.declared && x.name == name))
  else none

def renamed (e : Engine) (x : Element) (name : String) : Engine :=
  let others := if x.declared then e.names.unregister x.name x.id else e.names
  { e with
    names := if x.mounted then others.insert name x.id else e.names
    document := e.document.modify x.id (·.rename name) }

def written (e : Engine) (id : ElementId) (key : String) (value : Json) : Engine :=
  { e with document := e.document.modify id (fun x => (x.setAttribute key value).markDirty) }.tell
    [.setAttribute id key value]

/-- The engine after a write, with the name that it gives. -/
def assigned (e : Engine) (x : Element) (key : String) (value : Json) : Engine :=
  ((newName? x key value).elim e (e.renamed x)).written x.id key value

/-- The steps of rendering. A root may be adopted by an older element that is not mounted. -/
inductive Build : Engine → Engine → Prop
  | create (props : OrderedMap Json) (placeName : String)
    (h : e.catalog.get? profile.kind = some profile) : Build e (e.created profile props placeName)
  | adopt (slot : String) (hp : e.document.get? p = some a) (hc : e.document.get? c = some b)
    (hr : b.parent = none) (hlt : p < c) (hm : a.mounted = false) : Build e (e.adopted p slot c)

/-- The steps that keep the kinds and the depth and render no tree. -/
inductive Act : Engine → Engine → Prop
  | mount (h : e.document.get? root = some x)
    (hn : checkNames e.names e.settings.namePolicy [] (pending e.document root) = .ok ()) :
    Act e (e.mounted root)
  | remove (h : e.document.get? root = some x) : Act e (e.removed root)
  | assign (key : String) (value : Json) (h : e.document.get? x.id = some x)
    (hn : ∀ name, newName? x key (e.catalog.stored x.kind key value) = some name →
      x.mounted = true → e.names.check e.settings.namePolicy name x.id = .ok ()) :
    Act e (e.assigned x key (e.catalog.stored x.kind key value))
  | touch (h : e.document.get? i = some x) :
    Act e { e with document := e.document.modify i (·.markDirty) }
  | flush : Act e e.flushed
  | call (method : String) (h : e.document.get? i = some x) : Act e (e.tell [.invokeMethod i method])
  | log (line : String) : Act e { e with journal := e.journal ++ [line] }

/-- The steps in which an engine changes. -/
inductive Edit : Engine → Engine → Prop
  | build (h : Build e e') : Edit e e'
  | act (h : Act e e') : Edit e e'
  | depth (n : Nat) : Edit e { e with dispatchDepth := n }
  | define (kind : Kind) (method : String) (script : Script) :
    Edit e { e with catalog := e.catalog.define kind method script }

def Builds : Engine → Engine → Prop :=
  Relation.ReflTransGen Build

def Edits : Engine → Engine → Prop :=
  Relation.ReflTransGen Edit

theorem Builds.edits (h : Builds e e') : Edits e e' := by
  induction h with
  | refl => exact .refl
  | tail _ h ih => exact ih.tail (.build h)

/-- Load an element, unless it is mounted. -/
def loaded (e : Engine) (x : Element) : Element :=
  if x.mounted then x else load e.catalog e.operations x

theorem loaded_place (e : Engine) (x : Element) : (e.loaded x).place = (x.id, x.parent, x.slots, true) := by
  rw [loaded]
  split
  · rename_i h
    rw [Element.place, h]
  · rfl

theorem loaded_id (e : Engine) (x : Element) : (e.loaded x).id = x.id :=
  congrArg Prod.fst (e.loaded_place x)

theorem loaded_mounted (e : Engine) (x : Element) : (e.loaded x).mounted = true :=
  congrArg (·.2.2.2) (e.loaded_place x)

theorem loaded_loaded (e : Engine) (x : Element) : e.loaded (e.loaded x) = e.loaded x := by
  rw [loaded, if_pos (e.loaded_mounted x)]

theorem foldl_loaded (e : Engine) (ids : List ElementId) (d : Document) :
    ids.foldl (fun d i => d.modify i e.loaded) d =
      d.mapElements (fun x => if x.id ∈ ids then e.loaded x else x) := by
  induction ids generalizing d with
  | nil => simp [Document.mapElements]
  | cons i rest ih =>
    rw [List.foldl_cons, ih, Document.modify_eq_mapElements, Document.mapElements, Document.mapElements,
      Document.mapElements, List.map_map]
    congr 2
    funext x
    by_cases hi : x.id = i
    · simp [hi, loaded_id, loaded_loaded]
    · simp [hi]

theorem loadAll_eq (e : Engine) (root : ElementId) :
    e.loadAll root =
      e.document.mapElements (fun x => if x.id ∈ e.document.postorder root then e.loaded x else x) :=
  e.foldl_loaded _ _

theorem id_ite_loaded (e : Engine) (ids : List ElementId) (x : Element) :
    (if x.id ∈ ids then e.loaded x else x).id = x.id := by
  split
  · exact e.loaded_id x
  · rfl

theorem get?_loadAll (e : Engine) (root j : ElementId) :
    (e.loadAll root).get? j = (e.document.get? j).map
      (fun x => if x.id ∈ e.document.postorder root then e.loaded x else x) := by
  rw [loadAll_eq, Document.get?_mapElements _ (e.id_ite_loaded _)]

theorem preorder_loadAll (e : Engine) (root r : ElementId) :
    (e.loadAll root).preorder r = e.document.preorder r := by
  rw [loadAll_eq]
  apply e.document.preorder_mapElements
  intro x
  have hplace := e.loaded_place x
  simp only [Element.place, Prod.mk.injEq] at hplace
  split
  · exact ⟨hplace.1, hplace.2.2.1⟩
  · exact ⟨rfl, rfl⟩

theorem forest_loadAll {e : Engine} (hd : e.document.Forest) (h : e.document.get? root = some x) :
    (e.loadAll root).Forest := by
  have hplace (y : Element) := e.loaded_place y
  simp only [Element.place, Prod.mk.injEq] at hplace
  rw [loadAll_eq]
  apply hd.mapElements
  · intro y
    split
    · exact ⟨(hplace y).1, (hplace y).2.1, (hplace y).2.2.1⟩
    · exact ⟨rfl, rfl, rfl⟩
  · intro p a c b hp ha hc hb
    have hpc : e.document.ParentOf c p := (hd.parentOf_iff hp).2 hc
    rw [Document.id_of_get? hp] at ha
    rw [Document.id_of_get? hb]
    split
    · exact e.loaded_mounted b
    · rename_i hn
      have hn' : p ∉ e.document.postorder root := by
        rw [hd.mem_postorder h] at hn ⊢
        exact fun hm => hn (hd.preorder_closed h hm hpc)
      rw [if_neg hn'] at ha
      exact hd.settled hp ha hc hb

theorem refresh_place (catalog : Catalog) (x : Element) : (refresh catalog x).place = x.place := by
  rw [refresh]
  split <;> rfl

/-- The document is a forest and the index is well-formed. -/
structure Coherent (e : Engine) : Prop where
  forest : e.document.Forest
  names : e.names.WellFormed

theorem wellFormed_enrolled (h : NameIndex.WellFormed index) (elements : List Element) :
    (enrolled index elements).WellFormed := by
  induction elements generalizing index with
  | nil => exact h
  | cons x rest ih => exact ih (h.insert x.name x.id)

theorem wellFormed_struck (h : NameIndex.WellFormed index) (elements : List Element) :
    (struck index elements).WellFormed := by
  induction elements generalizing index with
  | nil => exact h
  | cons x rest ih =>
    rw [struck, List.foldl_cons]
    apply ih
    split
    · exact h.unregister x.name x.id
    · exact h

theorem wellFormed_renamed {e : Engine} (h : e.names.WellFormed) (x : Element) (name : String) :
    (e.renamed x name).names.WellFormed := by
  simp only [renamed]
  split
  · split
    · exact (h.unregister x.name x.id).insert name x.id
    · exact h.insert name x.id
  · exact h

theorem Coherent.renamed (h : Coherent e) (x : Element) (name : String) :
    Coherent (e.renamed x name) :=
  ⟨h.forest.modify_of_place x.id fun _ => rfl, wellFormed_renamed h.names x name⟩

theorem Coherent.written (h : Coherent e) (i : ElementId) (key : String) (value : Json) :
    Coherent (e.written i key value) :=
  ⟨h.forest.modify_of_place i fun _ => rfl, h.names⟩

/-- What a write to `x` makes of an element in its place. -/
def rewritten (x : Element) (key : String) (value : Json) (y : Element) : Element :=
  (((newName? x key value).elim y y.rename).setAttribute key value).markDirty

theorem rewritten_id (x : Element) (key : String) (value : Json) (y : Element) :
    (rewritten x key value y).id = y.id := by
  rw [rewritten]
  cases newName? x key value <;> rfl

theorem rewritten_kind (x : Element) (key : String) (value : Json) (y : Element) :
    (rewritten x key value y).kind = y.kind := by
  rw [rewritten]
  cases newName? x key value <;> rfl

theorem attribute?_rewritten (x : Element) (key : String) (value : Json) (y : Element)
    (other : String) :
    (rewritten x key value y).attribute? other =
      if other = key then some value else y.attribute? other := by
  rw [rewritten]
  cases newName? x key value <;> exact OrderedMap.lookup_insert y.attributes key other value

theorem document_assigned (e : Engine) (x : Element) (key : String) (value : Json) :
    (e.assigned x key value).document = e.document.modify x.id (rewritten x key value) := by
  unfold assigned rewritten
  cases newName? x key value with
  | none => rfl
  | some name => exact e.document.modify_modify (f := (·.rename name)) (fun _ => rfl) x.id _

theorem assigned_eq (e : Engine) (x : Element) (key : String) (value : Json) :
    { e.assigned x key value with names := e.names } =
      { e with document := (e.assigned x key value).document }.tell [.setAttribute x.id key value] := by
  rw [assigned]
  cases newName? x key value <;> rfl

/-- A write changes the document and the index, and the host is told of it. -/
theorem assigned_frame (e : Engine) (x : Element) (key : String) (value : Json) :
    ∃ d index, e.assigned x key value =
      { e with document := d, names := index }.tell [.setAttribute x.id key value] :=
  ⟨_, (e.assigned x key value).names,
    congrArg (fun s : Engine => { s with names := (e.assigned x key value).names })
      (e.assigned_eq x key value)⟩

theorem assigned_keep {P : Engine → Prop} (h : P e) (hr : ∀ name, P (e.renamed x name))
    (hw : ∀ {e'}, P e' → P (e'.written x.id key value)) : P (e.assigned x key value) := by
  rw [assigned]
  cases newName? x key value with
  | none => exact hw h
  | some name => exact hw (hr name)

theorem Coherent.mounted (hc : Coherent e) (h : e.document.get? root = some x) :
    Coherent (e.mounted root) :=
  ⟨forest_loadAll hc.forest h, wellFormed_enrolled hc.names _⟩

theorem Coherent.assigned (hc : Coherent e) (x : Element) (key : String) (value : Json) :
    Coherent (e.assigned x key value) :=
  assigned_keep hc (fun name => hc.renamed x name) fun hc => hc.written x.id key value

theorem Build.coherent (h : Build e e') (hc : Coherent e) : Coherent e' := by
  cases h with
  | create props placeName _ => exact ⟨hc.forest.push rfl rfl rfl, hc.names⟩
  | adopt slot hp hc' hr hlt hm => exact ⟨hc.forest.attached hp hc' hr hlt hm slot, hc.names⟩

theorem Act.coherent (h : Act e e') (hc : Coherent e) : Coherent e' := by
  cases h with
  | mount h hn => exact hc.mounted h
  | remove h => exact ⟨hc.forest.without_preorder h, wellFormed_struck hc.names _⟩
  | assign key value h hn => exact hc.assigned _ key _
  | touch _ => exact ⟨hc.forest.modify_of_place _ fun _ => rfl, hc.names⟩
  | flush => exact ⟨hc.forest.mapElements_of_place (refresh_place _), hc.names⟩
  | call method h => exact ⟨hc.forest, hc.names⟩
  | log line => exact ⟨hc.forest, hc.names⟩

theorem Edit.coherent (h : Edit e e') (hc : Coherent e) : Coherent e' := by
  cases h with
  | build h => exact h.coherent hc
  | act h => exact h.coherent hc
  | depth n => exact ⟨hc.forest, hc.names⟩
  | define kind method script => exact ⟨hc.forest, hc.names⟩

theorem Builds.coherent (h : Builds e e') (hc : Coherent e) : Coherent e' := by
  induction h with
  | refl => exact hc
  | tail _ h ih => exact h.coherent ih

theorem Edits.coherent (h : Edits e e') (hc : Coherent e) : Coherent e' := by
  induction h with
  | refl => exact hc
  | tail _ h ih => exact h.coherent ih

/-- What every edit of a coherent engine keeps holds after any number of them. -/
theorem Edits.keep {P : Engine → Prop} (step : ∀ {e e'}, Coherent e → P e → Edit e e' → P e')
    (h : Edits e e') (hc : Coherent e) (hp : P e) : P e' := by
  induction h with
  | refl => exact hp
  | tail hs h ih => exact step (Edits.coherent hs hc) ih h

end Engine

end LiveTree
