import LiveTree.Proofs.Document.Walk

namespace LiveTree.Document
set_option autoImplicit true

theorem get?_without_eq_some {d : Document} (h : (d.without ids).get? j = some x) :
    j ∉ ids ∧ ∃ e, d.get? j = some e ∧ e.dropChildren ids = x := by
  rw [get?_without] at h
  split at h
  · cases h
  · rename_i hj
    exact ⟨hj, Option.map_eq_some_iff.1 h⟩

theorem get?_without_of_some {d : Document} (h : d.get? j = some e) (hj : j ∉ ids) :
    (d.without ids).get? j = some (e.dropChildren ids) := by
  rw [get?_without, if_neg hj, h, Option.map_some]

@[simp] theorem without_nil (d : Document) : d.without [] = d := by
  have hx (x : Element) : x.dropChildren [] = x :=
    Element.dropChildren_of_not_mem fun _ _ => List.not_mem_nil
  simp [without, hx]

/-- What is closed under children can be removed from a forest. -/
theorem Forest.without (hd : Forest d) (hs : ∀ {c x}, x ∈ ids → d.ParentOf c x → c ∈ ids) :
    Forest (d.without ids) := by
  have hmem (k : ElementId) (e : Element) :
      k ∈ (e.dropChildren ids).children ↔ k ∈ e.children ∧ k ∉ ids := by
    rw [Element.children_dropChildren, List.mem_filter, decide_eq_true_eq]
  refine
    { ascending := ?_
      bounded := fun h => ?_
      listed := fun h hk => ?_
      linked := fun h hq => ?_
      once := fun h => ?_
      older := fun h hq => ?_
      settled := fun h he hk hb => ?_ }
  · have hi : (d.without ids).elements.map (·.id) = (d.elements.filter (·.id ∉ ids)).map (·.id) := by
      simp only [Document.without, List.map_map]
      rfl
    rw [hi]
    exact hd.ascending.sublist (List.Sublist.map _ List.filter_sublist)
  · obtain ⟨-, e, he, -⟩ := get?_without_eq_some h
    exact hd.bounded he
  · obtain ⟨-, e, he, rfl⟩ := get?_without_eq_some h
    obtain ⟨hk, hn⟩ := (hmem _ e).1 hk
    obtain ⟨b, hb, hq⟩ := hd.listed he hk
    exact ⟨_, get?_without_of_some hb hn, hq⟩
  · obtain ⟨hn, e, he, rfl⟩ := get?_without_eq_some h
    obtain ⟨a, ha, hk⟩ := hd.linked he hq
    -- a parent that goes takes its children with it
    have hp := fun hm => hn (hs hm ⟨e, he, hq⟩)
    exact ⟨_, get?_without_of_some ha hp, (hmem _ a).2 ⟨hk, hn⟩⟩
  · obtain ⟨-, e, he, rfl⟩ := get?_without_eq_some h
    rw [Element.children_dropChildren]
    exact (hd.once he).filter _
  · obtain ⟨-, e, he, rfl⟩ := get?_without_eq_some h
    exact hd.older he hq
  · obtain ⟨-, e, he', rfl⟩ := get?_without_eq_some h
    obtain ⟨-, b, hb', rfl⟩ := get?_without_eq_some hb
    have hm : b.mounted = true := hd.settled he' he ((hmem _ e).1 hk).1 hb'
    exact hm

theorem Forest.without_preorder (hd : Forest d) (h : d.get? root = some e) :
    Forest (d.without (d.preorder root)) :=
  hd.without (hd.preorder_closed h)

theorem get?_erase_of_ne (d : Document) (h : j ≠ i) : (d.erase i).get? j = d.get? j := by
  simp only [get?, erase, List.find?_filter]
  congr 1
  funext e
  by_cases he : e.id = j <;> simp [he, h]

theorem filter_of_get?_none {d : Document} (h : d.get? i = none) (ids : List ElementId) :
    d.elements.filter (·.id ∉ i :: ids) = d.elements.filter (·.id ∉ ids) := by
  apply List.filter_congr
  intro e he
  have hne : e.id ≠ i := by simpa using List.find?_eq_none.1 h e he
  simp [hne]

theorem filter_erase (d : Document) (i : ElementId) (ids : List ElementId) :
    (d.erase i).elements.filter (·.id ∉ ids) = d.elements.filter (·.id ∉ i :: ids) := by
  rw [erase, List.filter_filter]
  apply List.filter_congr
  intro e _
  rw [Bool.eq_iff_iff]
  simp [and_comm]

theorem eraseAll_eq (d : Document) (h : ids.Nodup) :
    d.eraseAll ids =
      (ids.filterMap d.get?, { d with elements := d.elements.filter (·.id ∉ ids) }) := by
  induction ids generalizing d with
  | nil => simp [eraseAll]
  | cons i rest ih =>
    obtain ⟨hn, hrest⟩ := List.nodup_cons.1 h
    cases he : d.get? i with
    | none => simp only [eraseAll, he, ih d hrest, List.filterMap_cons, filter_of_get?_none he]
    | some e =>
      have hget : rest.filterMap (d.erase i).get? = rest.filterMap d.get? :=
        List.filterMap_congr fun j hj => get?_erase_of_ne d fun hji => hn (hji ▸ hj)
      simp only [eraseAll, he, ih (d.erase i) hrest, List.filterMap_cons, hget, filter_erase]
      rfl

/-- Walks depend only on what stands at their start and after it. -/
theorem Forest.preorderWithin_congr {d d' : Document} (hd : Forest d)
    (h : ∀ j, lo ≤ j → d'.get? j = d.get? j) (n : Nat) :
    ∀ j, lo ≤ j → d'.preorderWithin n j = d.preorderWithin n j := by
  induction n with
  | zero => intros; rfl
  | succ n ih =>
    intro j hj
    simp only [preorderWithin, h j hj]
    cases he : d.get? j with
    | none => rfl
    | some e =>
      have hc : ∀ c ∈ e.children, d'.preorderWithin n c = d.preorderWithin n c := fun c hc =>
        ih c (Nat.le_trans hj (Nat.le_of_lt (hd.lt_of_mem_children he hc)))
      simp only [List.flatMap, List.map_congr_left hc]

theorem detach_eq (d : Document) (e : Element) :
    d.detach e = d.mapElements (fun x => if e.parent = some x.id then x.dropChild e.id else x) := by
  rw [detach]
  cases e.parent with
  | none => simp [mapElements]
  | some p =>
    simp only [modify_eq_mapElements, Option.some.injEq]
    congr 1
    funext x
    simp only [eq_comm]

/-- A child of an element outside a subtree is in the subtree only as its root. -/
theorem Forest.mem_preorder_iff_eq (hd : Forest d) (h : d.get? root = some e)
    (hx : d.get? p = some x) (hn : p ∉ d.preorder root) (hc : c ∈ x.children) :
    c ∈ d.preorder root ↔ c = root := by
  constructor
  · intro hm
    rcases Relation.ReflTransGen.cases_head ((hd.mem_preorder h).1 hm) with he | ⟨q, hq, hu⟩
    · exact he
    · cases parentOf_unique ((hd.parentOf_iff hx).2 hc) hq
      exact (hn ((hd.mem_preorder h).2 hu)).elim
  · rintro rfl
    exact hd.self_mem_preorder h

theorem Forest.get?_detach (hd : Forest d) (h : d.get? root = some e) (hj : root ≤ j) :
    (d.detach e).get? j = d.get? j := by
  rw [detach]
  cases hp : e.parent with
  | none => rfl
  | some p =>
    -- the parent is older than the root, and only the parent changes
    have hne : j ≠ p := Nat.ne_of_gt (Nat.lt_of_lt_of_le (hd.older h hp) hj)
    exact get?_modify_ne (f := (·.dropChild e.id)) (fun _ => rfl) hne

theorem Forest.preorder_detach (hd : Forest d) (h : d.get? root = some e) :
    (d.detach e).preorder root = d.preorder root := by
  have hs : (d.detach e).size = d.size := by
    rw [detach_eq, size, size, Document.mapElements, List.length_map]
  rw [preorder, preorder, hs]
  exact hd.preorderWithin_congr (fun j => hd.get?_detach h) _ root (Nat.le_refl _)

/-- Outside a subtree only the parent of its root loses a child. -/
theorem Forest.without_elements (hd : Forest d) (h : d.get? root = some e) :
    (d.without (d.preorder root)).elements =
      (d.elements.filter (·.id ∉ d.preorder root)).map
        fun x => if e.parent = some x.id then x.dropChild root else x := by
  apply List.map_congr_left
  intro x hx
  obtain ⟨hx, hn⟩ := List.mem_filter.1 hx
  have hx := hd.get?_of_mem hx
  have hmem {c} := hd.mem_preorder_iff_eq h hx (of_decide_eq_true hn) (c := c)
  by_cases hp : e.parent = some x.id
  · rw [if_pos hp, Element.dropChild_eq]
    exact Element.dropChildren_congr fun c hc => by rw [hmem hc, List.mem_singleton]
  · rw [if_neg hp]
    apply Element.dropChildren_of_not_mem
    intro c hc hm
    obtain ⟨b, hb, hq⟩ := hd.listed hx hc
    cases (hmem hc).1 hm
    cases h.symm.trans hb
    exact hp hq

theorem Forest.detach_elements (hd : Forest d) (h : d.get? root = some e) :
    (d.detach e).elements.filter (·.id ∉ d.preorder root) =
      (d.without (d.preorder root)).elements := by
  have hid (x : Element) :
      (if e.parent = some x.id then x.dropChild e.id else x).id = x.id := by
    split <;> rfl
  rw [hd.without_elements h, ← id_of_get? h]
  simp only [detach_eq, Document.mapElements, List.filter_map, Function.comp_def, hid]

theorem Forest.dropChild_eq (hd : Forest d) (h : d.get? p = some x) (c : ElementId) :
    x.dropChild c = { x with slots := x.slots.mapValues (·.erase c) } := by
  have hs : x.slots.mapValues (·.filter (· != c)) = x.slots.mapValues (·.erase c) := by
    apply OrderedMap.mapValues_congr
    intro entry he
    have hn : entry.2.Nodup := (List.nodup_flatMap.1 (hd.once h)).1 entry he
    rw [hn.erase_eq_filter]
  rw [Element.dropChild, hs]

theorem Forest.prune_eq (hd : Forest d) (h : d.get? root = some e) :
    d.prune root = .ok ((d.preorder root).filterMap d.get?, d.without (d.preorder root)) := by
  have hget : (d.preorder root).filterMap (d.detach e).get? = (d.preorder root).filterMap d.get? :=
    List.filterMap_congr fun j hj =>
      hd.get?_detach h (hd.le_of_under (hd.under_of_mem_preorder h hj))
  have hn : (d.detach e).nextId = d.nextId := by rw [detach_eq, Document.mapElements]
  simp only [prune, h, hd.preorder_detach h, eraseAll_eq _ (hd.nodup_preorder h), hget,
    hd.detach_elements h, hn]
  rfl

theorem prune_none {d : Document} (h : d.get? root = none) :
    d.prune root = .error (.unknownElement root) := by
  simp only [prune, h]

end LiveTree.Document
