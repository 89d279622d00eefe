import Mathlib.Data.List.Nodup
import Mathlib.Logic.Relation
import LiveTree.Proofs.Document.Lookup

namespace LiveTree
set_option autoImplicit true

/-- The place of an element in its tree, and whether it is mounted. -/
def Element.place (e : Element) : ElementId × Option ElementId × OrderedMap (List ElementId) × Bool :=
  (e.id, e.parent, e.slots, e.mounted)

namespace Document

structure Forest (d : Document) : Prop where
  ascending : (d.elements.map (·.id)).Pairwise (· < ·)
  bounded : ∀ {j e}, d.get? j = some e → j < d.nextId
  listed : ∀ {p a c}, d.get? p = some a → c ∈ a.children →
    ∃ b, d.get? c = some b ∧ b.parent = some p
  linked : ∀ {c b p}, d.get? c = some b → b.parent = some p →
    ∃ a, d.get? p = some a ∧ c ∈ a.children
  once : ∀ {p a}, d.get? p = some a → a.children.Nodup
  older : ∀ {c b p}, d.get? c = some b → b.parent = some p → p < c
  settled : ∀ {p a c b}, d.get? p = some a → a.mounted = true → c ∈ a.children →
    d.get? c = some b → b.mounted = true

theorem forest_empty : Forest {} where
  ascending := .nil
  bounded h := by cases h
  listed h := by cases h
  linked h := by cases h
  once h := by cases h
  older h := by cases h
  settled h := by cases h

namespace Forest

theorem get?_of_mem (hd : Forest d) (h : e ∈ d.elements) : d.get? e.id = some e := by
  have hu : d.elements.Pairwise (fun a b => a.id < b.id) := List.pairwise_map.1 hd.ascending
  rw [get?]
  generalize d.elements = elements at h hu
  induction elements with
  | nil => cases h
  | cons a rest ih =>
    obtain ⟨ha, hrest⟩ := List.pairwise_cons.1 hu
    rcases List.mem_cons.1 h with rfl | hm
    · simp
    · rw [List.find?_cons_of_neg (by simpa using Nat.ne_of_lt (ha e hm)), ih hm hrest]

theorem get?_eq_some (hd : Forest d) : d.get? j = some e ↔ e ∈ d.elements ∧ e.id = j :=
  ⟨fun h => ⟨mem_of_get? h, id_of_get? h⟩, fun ⟨h, he⟩ => he ▸ hd.get?_of_mem h⟩

/-- Only one element has an id, so what is done to it is all that counts. -/
theorem modify_congr {f g : Element → Element} (hd : Forest d) (hx : d.get? i = some x)
    (h : f x = g x) : d.modify i f = d.modify i g := by
  have hmap : d.elements.map (fun e => if e.id = i then f e else e) =
      d.elements.map (fun e => if e.id = i then g e else e) := by
    apply List.map_congr_left
    intro y hy
    split
    · rename_i hi
      have hg := hd.get?_of_mem hy
      rw [hi, hx] at hg
      cases hg
      exact h
    · rfl
  rw [modify, modify, hmap]

theorem get?_nextId (hd : Forest d) : d.get? d.nextId = none := by
  cases h : d.get? d.nextId with
  | none => rfl
  | some e => exact (Nat.lt_irrefl _ (hd.bounded h)).elim

theorem lt_of_mem_children (hd : Forest d) (h : d.get? p = some a) (hc : c ∈ a.children) : p < c := by
  obtain ⟨b, hb, hp⟩ := hd.listed h hc
  exact hd.older hb hp

/-- Changes that keep ids, parents and slots keep a forest, if they mount whole subtrees. -/
theorem mapElements (hd : Forest d)
    (hf : ∀ e, (f e).id = e.id ∧ (f e).parent = e.parent ∧ (f e).slots = e.slots)
    (hm : ∀ {p a c b}, d.get? p = some a → (f a).mounted = true → c ∈ a.children →
      d.get? c = some b → (f b).mounted = true) : Forest (d.mapElements f) := by
  have hget := d.get?_mapElements (fun e => (hf e).1)
  have hchildren (e : Element) : (f e).children = e.children := by
    rw [Element.children, (hf e).2.2, Element.children]
  have hinv {j e'} (h : (d.mapElements f).get? j = some e') : ∃ e, d.get? j = some e ∧ f e = e' :=
    Option.map_eq_some_iff.1 (hget j ▸ h)
  have hsome {j e} (h : d.get? j = some e) : (d.mapElements f).get? j = some (f e) := by
    rw [hget, h, Option.map_some]
  refine
    { ascending := d.ids_mapElements (fun e => (hf e).1) ▸ hd.ascending
      bounded := fun h => ?_
      listed := fun h hc => ?_
      linked := fun h hp => ?_
      once := fun h => ?_
      older := fun h hp => ?_
      settled := fun h ha hc hb => ?_ } <;> obtain ⟨a, ha', rfl⟩ := hinv h
  · exact hd.bounded ha'
  · obtain ⟨b, hb, hp⟩ := hd.listed ha' (hchildren a ▸ hc)
    exact ⟨f b, hsome hb, (hf b).2.1.trans hp⟩
  · obtain ⟨b, hb, hc⟩ := hd.linked ha' ((hf a).2.1 ▸ hp)
    exact ⟨f b, hsome hb, (hchildren b).symm ▸ hc⟩
  · exact hchildren a ▸ hd.once ha'
  · exact hd.older ha' ((hf a).2.1 ▸ hp)
  · obtain ⟨b, hb', rfl⟩ := hinv hb
    exact hm ha' ha (hchildren a ▸ hc) hb'

theorem mapElements_of_place (hd : Forest d) (hf : ∀ e, (f e).place = e.place) :
    Forest (d.mapElements f) := by
  have hplace (e : Element) := hf e
  simp only [Element.place, Prod.mk.injEq] at hplace
  refine hd.mapElements (fun e => ⟨(hplace e).1, (hplace e).2.1, (hplace e).2.2.1⟩) ?_
  intro p a c b h ha hc hb
  rw [(hplace b).2.2.2]
  exact hd.settled h ((hplace a).2.2.2 ▸ ha) hc hb

theorem modify_of_place (hd : Forest d) (id : ElementId) (hf : ∀ e, (f e).place = e.place) :
    Forest (d.modify id f) := by
  rw [modify_eq_mapElements]
  apply hd.mapElements_of_place
  intro e
  split
  · exact hf e
  · rfl

end Forest

end Document

end LiveTree
