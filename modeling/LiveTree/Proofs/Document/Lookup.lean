import LiveTree.Document.Basic
import LiveTree.Proofs.OrderedMap

namespace LiveTree
set_option autoImplicit true

namespace Element

theorem children_addChild_perm (e : Element) (slot : String) (child : ElementId) :
    (e.addChild slot child).children.Perm (child :: e.children) :=
  OrderedMap.flatMap_push_perm e.slots slot child

/-- Take children out of every slot; the slots stay. -/
def dropChildren (ids : List ElementId) (e : Element) : Element :=
  { e with slots := e.slots.mapValues (·.filter (· ∉ ids)) }

theorem children_dropChildren (ids : List ElementId) (e : Element) :
    (e.dropChildren ids).children = e.children.filter (· ∉ ids) := by
  simp only [children, dropChildren, OrderedMap.flatMap_mapValues, List.filter_flatMap]

theorem dropChild_eq (child : ElementId) (e : Element) :
    e.dropChild child = e.dropChildren [child] := by
  have hp : (fun other : ElementId => other != child) = fun other => decide (other ∉ [child]) := by
    funext other
    rw [Bool.eq_iff_iff]
    simp
  simp only [dropChild, dropChildren, hp]

theorem mem_children {e : Element} (hs : entry ∈ e.slots) (hc : child ∈ entry.2) :
    child ∈ e.children :=
  List.mem_flatMap.2 ⟨entry, hs, hc⟩

theorem dropChildren_congr {e : Element} (h : ∀ child ∈ e.children, child ∈ ids ↔ child ∈ ids') :
    e.dropChildren ids = e.dropChildren ids' := by
  have hs : e.slots.mapValues (·.filter (· ∉ ids)) = e.slots.mapValues (·.filter (· ∉ ids')) := by
    apply OrderedMap.mapValues_congr
    intro entry hentry
    apply List.filter_congr
    intro child hchild
    simp only [h child (mem_children hentry hchild)]
  simp only [dropChildren, hs]

theorem dropChildren_of_not_mem {e : Element} (h : ∀ child ∈ e.children, child ∉ ids) :
    e.dropChildren ids = e := by
  have hs : e.slots.mapValues (·.filter (· ∉ ids)) = e.slots.mapValues (fun items => items) := by
    apply OrderedMap.mapValues_congr
    intro entry hentry
    apply List.filter_eq_self.2
    intro child hchild
    exact decide_eq_true (h child (mem_children hentry hchild))
  simp only [dropChildren, hs, OrderedMap.mapValues_id]

theorem dropChildren_dropChildren (ids ids' : List ElementId) (e : Element) :
    (e.dropChildren ids).dropChildren ids' = e.dropChildren (ids ++ ids') := by
  simp only [dropChildren, OrderedMap.mapValues_mapValues, List.filter_filter, List.mem_append,
    not_or, Bool.decide_and, Bool.and_comm]

end Element

namespace Document

theorem id_of_get? {d : Document} (h : d.get? j = some e) : e.id = j := by
  simpa using List.find?_some h

theorem mem_of_get? {d : Document} (h : d.get? j = some e) : e ∈ d.elements :=
  List.mem_of_find?_eq_some h

theorem contains_iff {d : Document} : d.contains j = true ↔ ∃ e, d.get? j = some e := by
  rw [contains, get?, ← Option.isSome_iff_exists, List.find?_isSome]
  exact List.any_eq_true

def mapElements (d : Document) (f : Element → Element) : Document :=
  { d with elements := d.elements.map f }

theorem get?_mapElements (d : Document) {f : Element → Element} (hf : ∀ e, (f e).id = e.id)
    (j : ElementId) : (d.mapElements f).get? j = (d.get? j).map f := by
  simp only [get?, mapElements, List.find?_map, Function.comp_def, hf]

theorem ids_mapElements (d : Document) {f : Element → Element} (hf : ∀ e, (f e).id = e.id) :
    (d.mapElements f).elements.map (·.id) = d.elements.map (·.id) := by
  simp only [mapElements, List.map_map, Function.comp_def, hf]

theorem mapElements_self {d : Document} {f : Element → Element} (hf : ∀ e ∈ d.elements, f e = e) :
    d.mapElements f = d := by
  rw [mapElements, List.map_congr_left hf, List.map_id']

theorem modify_eq_mapElements (d : Document) (id : ElementId) (f : Element → Element) :
    d.modify id f = d.mapElements (fun e => if e.id = id then f e else e) :=
  rfl

theorem id_ite {f : Element → Element} (hf : ∀ e, (f e).id = e.id) (id : ElementId)
    (e : Element) : (if e.id = id then f e else e).id = e.id := by
  split
  · exact hf e
  · rfl

theorem get?_modify (d : Document) {f : Element → Element} (hf : ∀ e, (f e).id = e.id)
    (id j : ElementId) :
    (d.modify id f).get? j = if j = id then (d.get? j).map f else d.get? j := by
  rw [modify_eq_mapElements, get?_mapElements d (id_ite hf id)]
  cases h : d.get? j with
  | none => simp
  | some e =>
    have he := id_of_get? h
    subst he
    split <;> simp_all

theorem modify_modify (d : Document) {f : Element → Element} (hf : ∀ e, (f e).id = e.id)
    (id : ElementId) (g : Element → Element) :
    (d.modify id f).modify id g = d.modify id (fun e => g (f e)) := by
  simp only [modify, List.map_map, Function.comp_def]
  congr 2
  funext e
  by_cases he : e.id = id
  · rw [if_pos he, if_pos ((hf e).trans he), if_pos he]
  · rw [if_neg he, if_neg he, if_neg he]

theorem modify_comm (d : Document) {f g : Element → Element} (hf : ∀ x, (f x).id = x.id)
    (hg : ∀ x, (g x).id = x.id) (h : i ≠ j) :
    (d.modify i f).modify j g = (d.modify j g).modify i f := by
  simp only [modify, List.map_map]
  congr 2
  funext x
  by_cases hi : x.id = i
  · simp [hi, hf, h]
  · by_cases hj : x.id = j
    · simp [hj, hg, Ne.symm h]
    · simp [hi, hj]

theorem ids_modify (d : Document) {f : Element → Element} (hf : ∀ e, (f e).id = e.id)
    (id : ElementId) : (d.modify id f).elements.map (·.id) = d.elements.map (·.id) :=
  d.ids_mapElements (id_ite hf id)

theorem get?_modify_self {d : Document} {f : Element → Element} (hf : ∀ e, (f e).id = e.id)
    {id : ElementId} (h : d.get? id = some e) : (d.modify id f).get? id = some (f e) := by
  rw [get?_modify d hf, if_pos rfl, h, Option.map_some]

theorem get?_modify_ne {d : Document} {f : Element → Element} (hf : ∀ e, (f e).id = e.id)
    {id j : ElementId} (h : j ≠ id) : (d.modify id f).get? j = d.get? j := by
  rw [get?_modify d hf, if_neg h]

theorem forall_mem_modify {d : Document} {P Q : Element → Prop} {f : Element → Element} {id : ElementId}
    (h : ∀ e ∈ d.elements, P e) (hf : ∀ e, P e → e.id = id → Q (f e))
    (hne : ∀ e, P e → e.id ≠ id → Q e) : ∀ e ∈ (d.modify id f).elements, Q e := by
  intro e he
  obtain ⟨x, hx, rfl⟩ := List.mem_map.1 he
  split
  · rename_i hi
    exact hf x (h x hx) hi
  · rename_i hi
    exact hne x (h x hx) hi

def push (d : Document) (e : Element) : Document :=
  { elements := d.elements ++ [e], nextId := d.nextId + 1 }

theorem get?_push (d : Document) (e : Element) (j : ElementId) :
    (d.push e).get? j = (d.get? j).or (if e.id = j then some e else none) := by
  simp only [get?, push, List.find?_append, List.find?_singleton, decide_eq_true_eq]

/-- Remove elements and take their ids out of the slots of the others. -/
def without (d : Document) (ids : List ElementId) : Document :=
  { d with elements := (d.elements.filter (·.id ∉ ids)).map (·.dropChildren ids) }

theorem get?_without (d : Document) (ids : List ElementId) (j : ElementId) :
    (d.without ids).get? j = if j ∈ ids then none else (d.get? j).map (·.dropChildren ids) := by
  have hp (e : Element) : decide ((e.dropChildren ids).id = j) = decide (e.id = j) := rfl
  simp only [get?, without, List.find?_map, Function.comp_def, hp, List.find?_filter]
  split
  · rename_i hj
    simp only [Option.map_eq_none_iff, List.find?_eq_none, decide_eq_true_eq]
    rintro e - ⟨he, rfl⟩
    exact he hj
  · rename_i hj
    congr 2
    funext e
    by_cases he : e.id = j <;> simp [he, hj]

end Document

end LiveTree
