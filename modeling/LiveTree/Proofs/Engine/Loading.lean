import LiveTree.Proofs.Engine.Naming
import LiveTree.Proofs.Json.Reading

namespace LiveTree
set_option autoImplicit true

namespace Element

/-- The entries of the object that an attribute holds in string form, if there is one. -/
def objectAt (x : Element) (key : String) : OrderedMap Json :=
  match x.attribute? key with
  | some (.str raw) =>
    match Json.parse raw with
    | .ok (.obj entries) => entries
    | _ => []
  | _ => []

theorem nodup_objectAt (x : Element) (key : String) : (x.objectAt key).keys.Nodup := by
  rw [objectAt]
  split
  · split
    · rename_i hp
      exact ((Reader.yields_value _).run hp).1
    · exact .nil
  · exact .nil

theorem objectAt_eq (x : Element) (key : String) :
    x.objectAt key = match Attribute.decode (x.attribute? key) (.obj []) with
      | .obj entries => entries
      | _ => [] := by
  rw [objectAt]
  cases x.attribute? key with
  | none => rfl
  | some v =>
    cases v with
    | str raw =>
      simp only [Attribute.decode, Attribute.parseD, Decoder.decodeD, Decoder.decode, Option.map_some]
      cases hp : (Reader.value Json.maxDepth).run raw with
      | error fault => simp only [Json.parse, hp]
      | ok v => cases v <;> simp only [Json.parse, hp]
    | _ => rfl

end Element

theorem Attribute.parseD_str? (value : Option Json) (fallback : Json) :
    parseD (value.bind Json.str?) fallback = decode value fallback := by
  cases value with
  | none => rfl
  | some v => cases v <;> rfl

theorem Profile.styleFor_eq (profile : Profile) (x : Element) :
    profile.styleFor x.attributes = profile.style.insertAll (x.objectAt "css") := by
  rw [styleFor, x.objectAt_eq, Element.attribute?]
  cases Attribute.decode (x.attributes.lookup "css") (.obj []) <;> rfl

theorem Bindings.ofEvents_eq (x : Element) :
    ofEvents ((x.attribute? "events").bind Json.str?) =
      (x.objectAt "events").filterMap fun entry => entry.2.str?.map (Prod.mk entry.1) := by
  rw [ofEvents, Attribute.parseD_str?, x.objectAt_eq]
  cases Attribute.decode (x.attribute? "events") (.obj []) <;> rfl

def Catalog.KeepsKinds (catalog catalog' : Catalog) : Prop :=
  ∀ kind, (catalog.get? kind).isSome → (catalog'.get? kind).isSome

theorem Catalog.keepsKinds_define (catalog : Catalog) (kind : Kind) (method : String)
    (script : Script) : catalog.KeepsKinds (catalog.define kind method script) := by
  intro other h
  rw [get?_define, Option.isSome_map]
  exact h

namespace Element

/-- What stays with an element until it is mounted, and from then on. -/
def outfit (x : Element) :
    ElementId × Kind × Bool × OrderedMap Json × Bindings × Option Json :=
  (x.id, x.kind, x.mounted, x.style, x.bindings, x.operations)

structure Bare (x : Element) : Prop where
  style : x.style = []
  bindings : x.bindings = []
  operations : x.operations = none

/-- What mounting makes of an element: `css` is laid over the style of its kind, and `events` binds. -/
structure LoadsTo (catalog : Catalog) (payloads : Operations) (x y : Element) : Prop where
  rest : y = { x with
    style := y.style, bindings := y.bindings, operations := y.operations, mounted := true }
  style : ∀ profile, catalog.get? x.kind = some profile →
    OrderedMap.Overlaid profile.style (x.objectAt "css") y.style
  plain : ∀ profile, catalog.get? x.kind = some profile → x.objectAt "css" = [] →
    y.style = profile.style
  unknown : catalog.get? x.kind = none → y.style = []
  bindings : y.bindings =
    (x.objectAt "events").filterMap fun entry => entry.2.str?.map (Prod.mk entry.1)
  operations : y.operations = payloads x.name

theorem Bare.loadsTo {x : Element} (h : x.Bare) (catalog : Catalog) (payloads : Operations) :
    x.LoadsTo catalog payloads (Engine.load catalog payloads x) := by
  constructor
  · rfl
  · intro profile hp
    simp only [Engine.load, hp, profile.styleFor_eq]
    exact OrderedMap.overlaid_insertAll (x.nodup_objectAt _) _
  · intro profile hp ho
    simp only [Engine.load, hp, profile.styleFor_eq, ho]
    rfl
  · intro hp
    simp only [Engine.load, hp, h.style]
  · simp only [Engine.load, wire, h.bindings, List.nil_append, Bindings.ofEvents_eq]
  · rfl

end Element

namespace Engine

/-- Where an element that stands after an edit stems from. -/
inductive Stems (e : Engine) : Element → Prop
  | new (hi : y.id = e.document.nextId) (hm : y.mounted = false) (hb : y.Bare)
    (hk : (e.catalog.get? y.kind).isSome) : Stems e y
  | kept (hx : x ∈ e.document.elements) (ho : y.outfit = x.outfit) : Stems e y
  | loaded (hx : x ∈ e.document.elements) (hm : x.mounted = false) :
    Stems e (load e.catalog e.operations x)

theorem exists_of_mem_modify {α : Type} {d : Document} {f : Element → Element} (g : Element → α)
    (hy : y ∈ (d.modify i f).elements) (hf : ∀ x, g (f x) = g x) :
    ∃ x ∈ d.elements, g y = g x := by
  obtain ⟨x, hx, rfl⟩ := List.mem_map.1 hy
  refine ⟨x, hx, ?_⟩
  split
  · exact hf x
  · rfl

theorem Stems.modify {e : Engine} {f : Element → Element}
    (hy : y ∈ (e.document.modify i f).elements) (hf : ∀ x, (f x).outfit = x.outfit) : Stems e y := by
  obtain ⟨x, hx, ho⟩ := exists_of_mem_modify Element.outfit hy hf
  exact .kept hx ho

theorem Build.stems (hs : Build e e') (hy : y ∈ e'.document.elements) : Stems e y := by
  cases hs with
  | create props placeName hp =>
    rcases List.mem_append.1 hy with hx | hx
    · exact .kept hx rfl
    · cases List.mem_singleton.1 hx
      exact .new rfl rfl ⟨rfl, rfl, rfl⟩ (Option.isSome_of_eq_some hp)
  | adopt slot hp hc hr hlt hm =>
    obtain ⟨z, hz, hyz⟩ := exists_of_mem_modify Element.outfit hy fun _ => rfl
    obtain ⟨x, hx, hzx⟩ := exists_of_mem_modify Element.outfit hz fun _ => rfl
    exact .kept hx (hyz.trans hzx)

theorem Act.stems (hs : Act e e') (hy : y ∈ e'.document.elements) : Stems e y := by
  cases hs with
  | mount hr hn =>
    simp only [mounted, loadAll_eq] at hy
    obtain ⟨x, hx, rfl⟩ := List.mem_map.1 hy
    split
    · rw [loaded]
      split
      · exact .kept hx rfl
      · rename_i hm
        exact .loaded hx (Bool.eq_false_iff.2 hm)
    · exact .kept hx rfl
  | remove hr =>
    obtain ⟨x, hx, rfl⟩ := List.mem_map.1 hy
    exact .kept (List.mem_filter.1 hx).1 rfl
  | assign key value hx hn =>
    rw [document_assigned] at hy
    apply Stems.modify hy
    intro x
    rw [rewritten]
    cases newName? _ key _ <;> rfl
  | touch hx => exact .modify hy fun _ => rfl
  | flush =>
    obtain ⟨x, hx, rfl⟩ := List.mem_map.1 hy
    refine .kept hx ?_
    rw [refresh]
    split <;> rfl
  | call method hx => exact .kept hy rfl
  | log line => exact .kept hy rfl

theorem Edit.stems (hs : Edit e e') (hy : y ∈ e'.document.elements) : Stems e y := by
  cases hs with
  | build hs => exact hs.stems hy
  | act hs => exact hs.stems hy
  | depth n => exact .kept hy rfl
  | define kind method script => exact .kept hy rfl

/-- An edit leaves the kinds alone, unless it defines a method. -/
theorem Edit.catalog_cases (hs : Edit e e') : e'.catalog = e.catalog ∨
    ∃ kind method script, e'.catalog = e.catalog.define kind method script := by
  cases hs with
  | build hs => exact .inl (Builds.catalog_eq (.single hs))
  | act hs => exact .inl hs.frame.2.2
  | depth n => exact .inl rfl
  | define kind method script => exact .inr ⟨kind, method, script, rfl⟩

theorem Edit.keepsKinds (hs : Edit e e') : e.catalog.KeepsKinds e'.catalog := by
  rcases hs.catalog_cases with hk | ⟨kind, method, script, hk⟩
  · rw [hk]
    exact fun _ h => h
  · rw [hk]
    exact e.catalog.keepsKinds_define kind method script

def AllBare (e : Engine) : Prop :=
  ∀ x ∈ e.document.elements, x.mounted = false → x.Bare

theorem Edit.allBare (hs : Edit e e') (h : AllBare e) : AllBare e' := by
  intro y hy hm
  cases hs.stems hy with
  | new hi _ hb hk => exact hb
  | kept hx ho =>
    simp only [Element.outfit, Prod.mk.injEq] at ho
    obtain ⟨-, -, hmx, hs, hb, hp⟩ := ho
    have hx := h _ hx (hmx ▸ hm)
    exact ⟨hs.trans hx.style, hb.trans hx.bindings, hp.trans hx.operations⟩
  | loaded hx _ => cases hm

theorem Visited.allBare {allowed : Action → Prop} {exchange : Catalog → Catalog → Prop}
    (hl : Lawful True allowed) (h : Visited allowed exchange stack e) : AllBare e :=
  (h.keep_edit hl (P := AllBare) (fun _ _ _ _ _ hx => by cases hx) (fun _ h hs => hs.allBare h)
    fun _ _ h _ => h).2

def AllKnown (e : Engine) : Prop :=
  ∀ x ∈ e.document.elements, (e.catalog.get? x.kind).isSome

theorem Edit.allKnown (hs : Edit e e') (h : AllKnown e) : AllKnown e' := by
  intro y hy
  apply hs.keepsKinds
  cases hs.stems hy with
  | new hi hm hb hk => exact hk
  | kept hx ho =>
    simp only [Element.outfit, Prod.mk.injEq] at ho
    rw [ho.2.1]
    exact h _ hx
  | loaded hx _ =>
    have hk := h _ hx
    exact hk

theorem Visited.allKnown {allowed : Action → Prop} {exchange : Catalog → Catalog → Prop}
    (hl : Lawful True allowed)
    (hx : ∀ catalog catalog', exchange catalog catalog' → catalog.KeepsKinds catalog')
    (h : Visited allowed exchange stack e) : AllKnown e :=
  (h.keep_edit hl (P := AllKnown) (fun _ _ _ _ _ hx => by cases hx) (fun _ h hs => hs.allKnown h)
    fun _ _ h hr y hy => hx _ _ hr _ (h y hy)).2

theorem pending_mounted {e : Engine} (hd : e.document.Forest) (hr : e.document.get? root = some r) :
    pending (e.mounted root).document root = [] := by
  have hd' := forest_loadAll hd hr
  have hr' := e.get?_loadAll root root
  rw [hr, Option.map_some] at hr'
  rw [List.eq_nil_iff_forall_not_mem]
  intro y hy
  obtain ⟨hy, hp, hm⟩ := (mem_pending hd' hr').1 hy
  rw [hd'.mem_postorder hr', preorder_loadAll, ← hd.mem_postorder hr] at hp
  rw [get?_loadAll] at hy
  obtain ⟨x, -, rfl⟩ := Option.map_eq_some_iff.1 hy
  rw [id_ite_loaded] at hp
  rw [if_pos hp, loaded_mounted] at hm
  cases hm

theorem mounted_of_pending_nil {e : Engine} (hd : e.document.Forest)
    (hr : e.document.get? root = some r) (hp : pending e.document root = []) : e.mounted root = e := by
  have hload : e.loadAll root = e.document := by
    rw [loadAll_eq]
    apply Document.mapElements_self
    intro x hx
    split
    · rename_i hi
      cases hm : x.mounted with
      | true => rw [loaded, if_pos hm]
      | false =>
        have hx := (mem_pending hd hr).2 ⟨hd.get?_of_mem hx, hi, hm⟩
        rw [hp] at hx
        cases hx
    · rfl
  rw [mounted, hp, hload]
  rfl

theorem run_mount_again {e : Engine} (hc : Coherent e) (hr : e.document.get? root = some r) :
    (mount root).run (e.mounted root) = .done () (e.mounted root) := by
  have hc' := hc.mounted hr
  have hr' := e.get?_loadAll root root
  rw [hr, Option.map_some] at hr'
  have hp := pending_mounted hc.forest hr
  have hrun := run_mount (e := e.mounted root) hc'.names hr' (by rw [hp]; rfl)
  rwa [mounted_of_pending_nil hc'.forest hr' hp] at hrun

theorem get?_mounted_pending {e : Engine} (hd : e.document.Forest)
    (hr : e.document.get? root = some r) (hx : e.document.get? j = some x)
    (hu : e.document.Under j root) (hm : x.mounted = false) :
    (e.mounted root).document.get? j = some (load e.catalog e.operations x) := by
  have hp : x.id ∈ e.document.postorder root := by
    rwa [Document.id_of_get? hx, hd.mem_postorder hr, hd.mem_preorder hr]
  simp only [mounted]
  rw [get?_loadAll, hx, Option.map_some, if_pos hp, loaded, hm, if_neg Bool.false_ne_true]

theorem get?_mounted_other {e : Engine} (hd : e.document.Forest)
    (hr : e.document.get? root = some r) (hx : e.document.get? j = some x)
    (ho : x.mounted = true ∨ ¬e.document.Under j root) :
    (e.mounted root).document.get? j = some x := by
  simp only [mounted]
  rw [get?_loadAll, hx, Option.map_some]
  split
  · rename_i hp
    rw [Document.id_of_get? hx, hd.mem_postorder hr, hd.mem_preorder hr] at hp
    rw [loaded, if_pos (ho.resolve_right (not_not_intro hp))]
  · rfl

theorem content_mounted {α : Type} (e : Engine) (root : ElementId) {f : Element → α}
    (hf : ∀ x, f (load e.catalog e.operations x) = f x) :
    (e.mounted root).document.elements.map f = e.document.elements.map f := by
  simp only [mounted, loadAll_eq, Document.mapElements, List.map_map]
  apply List.map_congr_left
  intro x _
  rw [Function.comp_apply]
  split
  · rw [loaded]
    split
    · rfl
    · exact hf x
  · rfl

/-- Mounting loads what was not mounted in a subtree and nothing else; once more changes nothing. -/
theorem mount_loads {exchange : Catalog → Catalog → Prop}
    (h : Visited (fun _ => True) exchange stack e) (hm : (mount root).run e = .done () e') :
    (∀ j x, e.document.get? j = some x → e.document.Under j root → x.mounted = false →
      ∃ y, e'.document.get? j = some y ∧ x.LoadsTo e.catalog e.operations y) ∧
    (∀ j x, e.document.get? j = some x → x.mounted = true ∨ ¬e.document.Under j root →
      e'.document.get? j = some x) ∧
    (∀ n j, j ∈ e'.names.idsOf n ↔ j ∈ e.names.idsOf n ∨ ∃ x, e.document.get? j = some x ∧
      e.document.Under j root ∧ x.mounted = false ∧ x.declared = true ∧ x.name = n) ∧
    e'.document.elements.map (fun x => (x.id, x.attributes, x.text, x.state, x.renderCount)) =
      e.document.elements.map (fun x => (x.id, x.attributes, x.text, x.state, x.renderCount)) ∧
    e' = { e with
      document := { e.document with elements := e'.document.elements }, names := e'.names } ∧
    (mount root).run e' = .done () e' ∧
    ((∀ catalog catalog', exchange catalog catalog' → catalog.KeepsKinds catalog') →
      ∀ x ∈ e.document.elements, (e.catalog.get? x.kind).isSome) := by
  have hc := (h.level lawful_true).coherent
  obtain ⟨⟨r, hr⟩, rfl⟩ := run_mount_done hc hm
  refine ⟨?_, ?_, ?_, ?_, ?_, ?_, ?_⟩
  · intro j x hx hu hx'
    have hbare := h.allBare lawful_true x (Document.mem_of_get? hx) hx'
    exact ⟨_, get?_mounted_pending hc.forest hr hx hu hx', hbare.loadsTo _ _⟩
  · intro j x hx ho
    exact get?_mounted_other hc.forest hr hx ho
  · intro n j
    simp only [mounted]
    rw [mem_idsOf_enrolled hc.names, exists_pending hc.forest hr, hc.forest.mem_postorder hr,
      hc.forest.mem_preorder hr]
  · exact e.content_mounted root fun _ => rfl
  · simp only [mounted, loadAll_eq]
    rfl
  · exact run_mount_again hc hr
  · intro hx
    exact h.allKnown lawful_true hx

def rowFirst : Engine :=
  let row : Tree := ((Tree.leaf "Row").withChild "items" (.leaf "Button")).withProp "name" (.str "row")
  let card : Tree := (((Tree.leaf "Card").withChild "body" row).withProp "name" (.str "card")).withProp
    "css" (.obj [("margin", .str "2px"), ("overflow-x", .str "hidden")])
  after 0 (fresh {} .standard (fun owner => some (.str owner)) none)
    [ .render (card.withProp "events" (.obj [("hover", .null), ("click", .str "row.press")])),
      .mount 1 ]

theorem mount_loads_rowFirst :
    ∃ e' y, (mount 0).run rowFirst = .done () e' ∧ e'.document.get? 0 = some y ∧ y.mounted = true ∧
      y.style.keys = ["box-sizing", "overflow-x", "margin"] ∧ y.bindings = [("click", "row.press")] ∧
      0 ∈ e'.names.idsOf "card" ∧ 1 ∈ e'.names.idsOf "row" ∧
      e'.document.get? 2 = rowFirst.document.get? 2 ∧ (mount 0).run e' = .done () e' := by
  have h : Passed [] rowFirst := visited_after _ _ _ _ _ _
  have hcard : (rowFirst.document.get? 0).map (fun x => (x.mounted, x.declared, x.name, x.kind)) =
      some (false, true, "card", .card) := by decide +kernel
  have hcss : (rowFirst.document.get? 0).map (fun x => (x.objectAt "css").keys) =
      some ["margin", "overflow-x"] := by decide +kernel
  have hevents : (rowFirst.document.get? 0).map (fun x =>
      (x.objectAt "events").filterMap fun entry => entry.2.str?.map (Prod.mk entry.1)) =
      some [("click", "row.press")] := by decide +kernel
  have hstyle : (rowFirst.catalog.get? .card).map (·.style.keys) =
      some ["box-sizing", "overflow-x"] := by decide +kernel
  have hbutton : (rowFirst.document.get? 2).map (·.mounted) = some true := by decide +kernel
  have hrow : 1 ∈ rowFirst.names.idsOf "row" := by decide +kernel
  have hfine : ((mount 0).run rowFirst).error?.isSome = false := by decide +kernel
  obtain ⟨x, hx, hc⟩ := Option.map_eq_some_iff.1 hcard
  obtain ⟨profile, hp, hs⟩ := Option.map_eq_some_iff.1 hstyle
  obtain ⟨button, hb, hm⟩ := Option.map_eq_some_iff.1 hbutton
  simp only [Prod.mk.injEq] at hc
  obtain ⟨hxm, hxd, hxn, hxk⟩ := hc
  simp only [hx, Option.map_some, Option.some.injEq] at hcss hevents
  rcases run_mount_cases (h.level lawful_true).coherent 0 with ⟨e', hrun, -⟩ | ⟨error, hrun, -⟩
  · obtain ⟨hload, hkeep, hnames, -, -, hagain, -⟩ := mount_loads h hrun
    obtain ⟨y, hy, hl⟩ := hload 0 x hx .refl hxm
    have hkeys := (hl.style profile (hxk ▸ hp)).keys
    rw [hs, hcss] at hkeys
    refine ⟨e', y, hrun, hy, ?_, hkeys, hl.bindings.trans hevents, ?_, ?_, ?_, hagain⟩
    · rw [hl.rest]
    · exact (hnames "card" 0).2 (.inr ⟨x, hx, .refl, hxm, hxd, hxn⟩)
    · exact (hnames "row" 1).2 (.inl hrow)
    · exact (hkeep 2 button hb (.inl hm)).trans hb.symm
  · rw [hrun] at hfine
    cases hfine

end Engine

end LiveTree
