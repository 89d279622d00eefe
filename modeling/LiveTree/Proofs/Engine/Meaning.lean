import LiveTree.Proofs.Engine.Run
import LiveTree.Proofs.Tree

namespace LiveTree
set_option autoImplicit true

namespace Meaning

/-- The name of a component: the text of its `name`, unless that is absent or null. -/
def name (props : OrderedMap Json) (fallback : String) : String :=
  match props.lookup "name" with
  | none => fallback
  | some .null => fallback
  | some (.str s) => s
  | some value => value.text

def value (profile : Profile) (key : String) : Json → Json
  | .str s => .str s
  | value => if profile.isEncoded key then .str value.text else value

def attributes (profile : Profile) (props : OrderedMap Json) : OrderedMap Json :=
  props.map fun entry => (entry.1, value profile entry.1 entry.2)

end Meaning

mutual

/-- The snapshot that a tree is to be rendered as, if its kinds are known. -/
def meaning (catalog : Catalog) (fallback : String) : Tree → Option Snapshot
  | ⟨component, props, slots⟩ =>
    match catalog.named component with
    | .error _ => none
    | .ok profile => do
      let name := Meaning.name props fallback
      let attributes := Meaning.attributes profile props
      let slots ← slotMeanings catalog name slots
      pure { kind := profile.kind, name, attributes, text := profile.text name attributes, slots }

def slotMeanings (catalog : Catalog) (name : String) :
    List (String × List Tree) → Option (List (String × List Snapshot))
  | [] => some []
  | (slot, children) :: rest => do
    let snapshots ← childMeanings catalog name slot 0 children
    let others ← slotMeanings catalog name rest
    pure (if children.isEmpty then others else (slot, snapshots) :: others)

/-- A child without a name of its own is named after its place. -/
def childMeanings (catalog : Catalog) (name slot : String) (index : Nat) :
    List Tree → Option (List Snapshot)
  | [] => some []
  | child :: rest => do
    let snapshot ← meaning catalog (name ++ "/" ++ slot ++ "/" ++ Nat.repr index) child
    let others ← childMeanings catalog name slot (index + 1) rest
    pure (snapshot :: others)

end

namespace Engine

theorem nameOf_eq (props : OrderedMap Json) (placeName : String) :
    nameOf props placeName = Meaning.name props placeName := by
  rw [nameOf, declaredName?, Meaning.name]
  cases props.lookup "name" with
  | none => rfl
  | some value => cases value <;> rfl

theorem stored_eq (profile : Profile) (key : String) (value : Json) :
    profile.stored key value = Meaning.value profile key value := by
  rw [Profile.stored]
  cases value <;> simp only [Meaning.value, Attribute.encode, ite_self]

theorem keys_attributes (profile : Profile) (props : OrderedMap Json) :
    (Meaning.attributes profile props).keys = props.keys :=
  List.map_map

theorem storedProps_eq (profile : Profile) {props : OrderedMap Json} (h : props.keys.Nodup) :
    storedProps profile props = Meaning.attributes profile props := by
  have he : props.map (fun entry => (entry.1, profile.stored entry.1 entry.2)) =
      Meaning.attributes profile props :=
    List.map_congr_left fun entry _ => congrArg (Prod.mk entry.1) (stored_eq profile _ _)
  rw [storedProps, he]
  exact OrderedMap.insertAll_nil (keys_attributes profile props ▸ h)

theorem lookup_storedProps (profile : Profile) {props : OrderedMap Json} (h : props.keys.Nodup)
    (key : String) :
    (storedProps profile props).lookup key = (props.lookup key).map (profile.stored key) := by
  have hs : profile.stored key = Meaning.value profile key := funext (stored_eq profile key)
  rw [storedProps_eq profile h, Meaning.attributes, OrderedMap.lookup_map_entries, hs]

def childIds (base : ElementId) : List Tree → List ElementId
  | [] => []
  | child :: rest => base :: childIds (base + child.size) rest

def slotIds (base : ElementId) : List (String × List Tree) → OrderedMap (List ElementId)
  | [] => []
  | (slot, children) :: rest =>
    (if children.isEmpty then [] else [(slot, childIds base children)]) ++
      slotIds (base + Tree.childrenSize children) rest

theorem filledSlot_append {m : OrderedMap (List ElementId)} (h : slot ∉ m.keys)
    (ids : List ElementId) (base : ElementId) (children : List Tree) :
    filledSlot slot base (m ++ [(slot, ids)]) children =
      m ++ [(slot, ids ++ childIds base children)] := by
  induction children generalizing ids base with
  | nil => rw [filledSlot, childIds, List.append_nil]
  | cons child rest ih =>
    have hp : OrderedMap.push (m ++ [(slot, ids)]) slot base = m ++ [(slot, ids ++ [base])] := by
      rw [OrderedMap.push, OrderedMap.update_append h]
      simp [OrderedMap.update]
    rw [filledSlot, hp, ih, childIds, List.append_assoc, List.singleton_append]

theorem filledSlot_eq {m : OrderedMap (List ElementId)} (h : slot ∉ m.keys) (base : ElementId)
    (children : List Tree) :
    filledSlot slot base m children =
      m ++ if children.isEmpty then [] else [(slot, childIds base children)] := by
  cases children with
  | nil => exact (List.append_nil m).symm
  | cons child rest =>
    rw [filledSlot, OrderedMap.push, OrderedMap.update_of_not_mem h, filledSlot_append h]
    rfl

theorem filledSlots_eq {m : OrderedMap (List ElementId)} {slots : List (String × List Tree)}
    (h : (m.keys ++ OrderedMap.keys slots).Nodup) (base : ElementId) :
    filledSlots base m slots = m ++ slotIds base slots := by
  induction slots generalizing m base with
  | nil => rw [filledSlots, slotIds, List.append_nil]
  | cons entry rest ih =>
    obtain ⟨slot, children⟩ := entry
    have hs : slot ∉ m.keys := fun hm => (List.nodup_append.1 h).2.2 slot hm slot List.mem_cons_self rfl
    rw [filledSlots, filledSlot_eq hs, ih, slotIds, List.append_assoc]
    rw [OrderedMap.keys_append]
    split
    · exact h.sublist (by simp [OrderedMap.keys])
    · simpa [OrderedMap.keys] using h

section Walks

variable {catalog : Catalog} {d : Document}

def shownAs (profile : Profile) (props : OrderedMap Json) (placeName : String)
    (slots : List (String × List Snapshot)) : Snapshot :=
  let name := nameOf props placeName
  let attributes := storedProps profile props
  { kind := profile.kind, name, attributes, text := profile.text name attributes, slots }

theorem meaning_eq (hp : catalog.named component = .ok profile) (hk : (OrderedMap.keys props).Nodup)
    (hm : slotMeanings catalog (nameOf props placeName) slots = some ss) :
    meaning catalog placeName ⟨component, props, slots⟩ = some (shownAs profile props placeName ss) := by
  rw [nameOf_eq] at hm
  rw [meaning, hp, shownAs, nameOf_eq, storedProps_eq profile hk]
  dsimp only
  rw [hm]
  rfl

theorem walk_root (h : d.get? base =
      some { newElement base profile props placeName with parent, slots := ids }) (n : Nat) :
    d.snapshotWithin (n + 1) base =
        some (shownAs profile props placeName
          (OrderedMap.mapValues (·.filterMap (d.snapshotWithin n)) ids)) ∧
      d.preorderWithin (n + 1) base =
        base :: (ids.flatMap Prod.snd).flatMap (d.preorderWithin n) := by
  simp only [Document.snapshotWithin, Document.preorderWithin, h]
  exact ⟨rfl, rfl⟩

mutual

/-- Where the elements of a tree are found, walks from the root give its meaning and its ids. -/
theorem walk_elementsOf (tree : Tree) (hk : checkKinds catalog tree = .ok ())
    (hu : tree.Distinct) (hn : tree.size ≤ n)
    (hget : ∀ x ∈ elementsOf catalog parent placeName base tree, d.get? x.id = some x) :
    ∃ s, meaning catalog placeName tree = some s ∧ d.snapshotWithin n base = some s ∧
      d.preorderWithin n base = List.range' base tree.size := by
  match tree with
  | ⟨component, props, slots⟩ =>
    obtain ⟨profile, hp, hs⟩ := checkKinds_ok hk
    rw [Tree.Distinct, Tree.nodes, List.forall_mem_cons] at hu
    obtain ⟨⟨hprops, hslots⟩, hu⟩ := hu
    rw [Tree.size] at hn
    obtain ⟨n, rfl⟩ : ∃ k, n = k + 1 := ⟨n - 1, by omega⟩
    rw [elementsOf, hp, List.forall_mem_cons] at hget
    obtain ⟨hroot, hget⟩ := hget
    -- a generation takes one unit of fuel, and it has at least one component
    have hn : Tree.slotsSize slots ≤ n := by omega
    obtain ⟨ss, hm, hsnap, hpre⟩ := walk_slotElements slots hs hu hn hget
    have hfill : filledSlots (base + 1) [] slots = slotIds (base + 1) slots :=
      filledSlots_eq (m := []) hslots _
    have hroot : d.get? base = _ := hfill ▸ hroot
    obtain ⟨hsnap', hpre'⟩ := walk_root hroot n
    refine ⟨_, meaning_eq hp hprops hm, hsnap ▸ hsnap', ?_⟩
    rw [hpre', hpre, Tree.size, Nat.add_comm 1, List.range'_succ]

theorem walk_slotElements (slots : List (String × List Tree))
    (hk : checkSlots catalog slots = .ok ())
    (hu : ∀ t ∈ Tree.slotNodes slots, t.HasDistinctKeys) (hn : Tree.slotsSize slots ≤ n)
    (hget : ∀ x ∈ slotElements catalog parent name base slots, d.get? x.id = some x) :
    ∃ ss, slotMeanings catalog name slots = some ss ∧
      (slotIds base slots).mapValues (·.filterMap (d.snapshotWithin n)) = ss ∧
      ((slotIds base slots).flatMap Prod.snd).flatMap (d.preorderWithin n) =
        List.range' base (Tree.slotsSize slots) := by
  match slots with
  | [] =>
    rw [slotMeanings, slotIds, Tree.slotsSize]
    exact ⟨[], rfl, rfl, rfl⟩
  | (slot, children) :: rest =>
    obtain ⟨hkc, hkr⟩ := checkSlots_ok hk
    rw [Tree.slotNodes, List.forall_mem_append] at hu
    rw [slotElements, List.forall_mem_append] at hget
    rw [Tree.slotsSize] at hn
    have hnc := Nat.le_trans (Nat.le_add_right _ _) hn
    have hnr := Nat.le_trans (Nat.le_add_left _ _) hn
    obtain ⟨ss, hm, hsnap, hpre⟩ := walk_childElements children hkc hu.1 hnc hget.1
    obtain ⟨ts, hm', hsnap', hpre'⟩ := walk_slotElements rest hkr hu.2 hnr hget.2
    refine ⟨if children.isEmpty then ts else (slot, ss) :: ts, ?_, ?_, ?_⟩
    · rw [slotMeanings, hm, hm']
      rfl
    · rw [slotIds, ← hsnap, ← hsnap']
      cases children <;> rfl
    · rw [slotIds, Tree.slotsSize, ← List.range'_append_1, ← hpre, ← hpre']
      cases children with
      | nil => rfl
      | cons child others => exact List.flatMap_append

theorem walk_childElements (children : List Tree)
    (hk : checkChildren catalog children = .ok ())
    (hu : ∀ t ∈ Tree.childNodes children, t.HasDistinctKeys) (hn : Tree.childrenSize children ≤ n)
    (hget : ∀ x ∈ childElements catalog parent name slot index base children,
      d.get? x.id = some x) :
    ∃ ss, childMeanings catalog name slot index children = some ss ∧
      (childIds base children).filterMap (d.snapshotWithin n) = ss ∧
      (childIds base children).flatMap (d.preorderWithin n) =
        List.range' base (Tree.childrenSize children) := by
  match children with
  | [] =>
    rw [childMeanings, childIds, Tree.childrenSize]
    exact ⟨[], rfl, rfl, rfl⟩
  | child :: rest =>
    obtain ⟨hkc, hkr⟩ := checkChildren_ok hk
    rw [Tree.childNodes, List.forall_mem_append] at hu
    rw [childElements, List.forall_mem_append] at hget
    rw [Tree.childrenSize] at hn
    have hnc := Nat.le_trans (Nat.le_add_right _ _) hn
    have hnr := Nat.le_trans (Nat.le_add_left _ _) hn
    obtain ⟨s, hm, hsnap, hpre⟩ := walk_elementsOf child hkc hu.1 hnc hget.1
    obtain ⟨ss, hm', hsnap', hpre'⟩ := walk_childElements rest hkr hu.2 hnr hget.2
    refine ⟨s :: ss, ?_, ?_, ?_⟩
    · rw [childMeanings, ← childName, hm, hm']
      rfl
    · rw [childIds, List.filterMap_cons_some hsnap, hsnap']
    · rw [childIds, Tree.childrenSize, ← List.range'_append_1, List.flatMap_cons, hpre, hpre']

end

end Walks

theorem walk_rendered {d d' : Document} {catalog : Catalog} (hf : d'.Forest)
    (hk : checkKinds catalog tree = .ok ()) (hu : tree.Distinct)
    (hd : d'.elements = d.elements ++ elementsOf catalog none placeName d.nextId tree) :
    ∃ s, meaning catalog placeName tree = some s ∧ d'.snapshot? d.nextId = some s ∧
      d'.preorder d.nextId = List.range' d.nextId tree.size := by
  have hget : ∀ x ∈ elementsOf catalog none placeName d.nextId tree, d'.get? x.id = some x := by
    intro x hx
    exact hf.get?_of_mem (hd ▸ List.mem_append_right _ hx)
  have hsize : tree.size ≤ d'.size := by
    have hids : (elementsOf catalog none placeName d.nextId tree).map (·.id) = _ :=
      ids_elementsOf tree hk
    have hlen := congrArg List.length hids
    rw [List.length_map, List.length_range'] at hlen
    rw [Document.size, hd, List.length_append, hlen]
    exact Nat.le_add_left _ _
  exact walk_elementsOf tree hk hu hsize hget

theorem snapshot_render {e : Engine} (hc : Coherent e)
    (hk : ∀ t ∈ tree.nodes, ∃ profile, e.catalog.named t.component = .ok profile)
    (hu : tree.Distinct) :
    ∃ profile s e', e.catalog.named tree.component = .ok profile ∧
      meaning e.catalog profile.tag tree = some s ∧
      (render tree).run e = .done e.document.nextId e' ∧
      e'.document.snapshot? e.document.nextId = some s ∧
      e'.document.preorder e.document.nextId = List.range' e.document.nextId tree.size ∧
      e'.document =
        { elements := e.document.elements ++
            elementsOf e.catalog none profile.tag e.document.nextId tree
          nextId := e.document.nextId + tree.size } ∧
      e'.names = e.names := by
  have hk := checkKinds_of_nodes tree hk
  obtain ⟨profile, e', hp, hr, hb, hd⟩ := run_render hc hk
  have hf := (hb.coherent hc).forest
  obtain ⟨s, hm, hsnap, hpre⟩ := walk_rendered hf hk hu (congrArg Document.elements hd)
  obtain ⟨_, _, rfl⟩ := hb.frame
  exact ⟨profile, s, _, hp, hm, hr, hsnap, hpre, hd, rfl⟩

/-- Rendering does what the tree means, at ids that count up in preorder, and leaves the rest as it was. -/
theorem render_meaning (h : Reachable e)
    (hk : ∀ t ∈ tree.nodes, ∃ profile, e.catalog.named t.component = .ok profile)
    (hu : tree.Distinct) :
    ∃ profile s e' added, e.catalog.named tree.component = .ok profile ∧
      meaning e.catalog profile.tag tree = some s ∧
      (render tree).run e = .done e.document.nextId e' ∧
      e'.document.snapshot? e.document.nextId = some s ∧
      e'.document.elements = e.document.elements ++ added ∧
      added.map (·.id) = List.range' e.document.nextId tree.size ∧
      e'.document.preorder e.document.nextId = List.range' e.document.nextId tree.size ∧
      e'.document.nextId = e.document.nextId + tree.size ∧
      (∀ x ∈ added, x.mounted = false ∧ x.state = .clean ∧ x.renderCount = 1) ∧
      e'.names = e.names ∧
      ∀ o, Reachable o → o.catalog = e.catalog →
        ∃ root o', (render tree).run o = .done root o' ∧ o'.document.snapshot? root = some s := by
  obtain ⟨profile, s, e', hp, hm, hr, hsnap, hpre, hd, hnames⟩ := snapshot_render h.coherent hk hu
  refine ⟨profile, s, e', elementsOf e.catalog none profile.tag e.document.nextId tree, hp, hm, hr,
    hsnap, congrArg Document.elements hd, ids_elementsOf tree (checkKinds_of_nodes tree hk), hpre,
    congrArg Document.nextId hd, untouched_elementsOf tree, hnames, ?_⟩
  intro o ho hcat
  obtain ⟨profile', s', o', hp', hm', hr', hsnap', -, -, -⟩ :=
    snapshot_render ho.coherent (hcat ▸ hk) hu
  rw [hcat] at hp' hm'
  cases hp.symm.trans hp'
  cases hm.symm.trans hm'
  exact ⟨_, o', hr', hsnap'⟩

def panel : Tree :=
  ⟨"Card", [("css", .obj [("color", .str "red")])],
    [ ("head", []),
      ("body", [⟨"Button", [("name", .str "save")], []⟩, ⟨"Chip", [("name", .null)], []⟩]) ]⟩

def greeting : Engine :=
  after 0 (fresh {} .standard (fun _ => none) none) [.renderAndMount (.leaf "Text")]

theorem render_meaning_panel :
    ∃ s e', meaning greeting.catalog "jsc-card" panel = some s ∧
      (render panel).run greeting = .done 1 e' ∧ e'.document.snapshot? 1 = some s ∧
      e'.document.nextId = 4 ∧
      s.slots.map (fun slot => (slot.1, slot.2.map (·.name))) =
        [("body", ["save", "jsc-card/body/1"])] := by
  have hr : Reachable greeting := ⟨_, _, _, _, run_after _ _ _⟩
  have hok : ∀ t ∈ panel.nodes, (greeting.catalog.named t.component).isOk = true := by
    decide +kernel
  have hu : panel.Distinct := by decide +kernel
  have hnext : greeting.document.nextId = 1 := by decide +kernel
  have hk : ∀ t ∈ panel.nodes, ∃ profile, greeting.catalog.named t.component = .ok profile := by
    intro t ht
    have hok := hok t ht
    cases hp : greeting.catalog.named t.component with
    | ok profile => exact ⟨profile, rfl⟩
    | error error => simp [hp, Except.isOk, Except.toBool] at hok
  have htag : (greeting.catalog.named "Card").map (·.tag) = .ok "jsc-card" := by decide +kernel
  have hnames : (meaning greeting.catalog "jsc-card" panel).map
      (·.slots.map fun slot => (slot.1, slot.2.map (·.name))) =
      some [("body", ["save", "jsc-card/body/1"])] := by decide +kernel
  obtain ⟨profile, s, e', -, hp, hm, hrun, hsnap, -, -, -, hid, -⟩ := render_meaning hr hk hu
  have ht : profile.tag = "jsc-card" := by
    rw [show panel.component = "Card" from rfl] at hp
    rw [hp] at htag
    exact Except.ok.inj htag
  rw [ht] at hm
  rw [hm] at hnames
  rw [hnext] at hrun hsnap hid
  exact ⟨s, e', hm, hrun, hsnap, hid, Option.some.inj hnames⟩

end Engine

end LiveTree
