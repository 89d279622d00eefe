import LiveTree.Proofs.Document.Forest

namespace LiveTree.Document
set_option autoImplicit true

theorem get?_push_eq_some {d : Document} (h : (d.push e).get? j = some x) :
    d.get? j = some x ∨ j = e.id ∧ x = e := by
  rw [get?_push] at h
  cases hj : d.get? j with
  | some y => exact .inl (by simpa [hj] using h)
  | none =>
    simp only [hj, Option.none_or, Option.ite_none_right_eq_some, Option.some.injEq] at h
    exact .inr ⟨h.1.symm, h.2.symm⟩

theorem get?_push_of_some {d : Document} (h : d.get? j = some x) (e : Element) :
    (d.push e).get? j = some x := by
  rw [get?_push, h, Option.some_or]

theorem Forest.get?_push_self (hd : Forest d) (he : e.id = d.nextId) :
    (d.push e).get? d.nextId = some e := by
  rw [get?_push, hd.get?_nextId, Option.none_or, if_pos he]

theorem Forest.push (hd : Forest d) (he : e.id = d.nextId) (hp : e.parent = none)
    (hs : e.slots = []) : Forest (d.push e) := by
  have hc : e.children = [] := by rw [Element.children, hs, List.flatMap_nil]
  refine
    { ascending := ?_
      bounded := fun h => ?_
      listed := fun h hm => ?_
      linked := fun h hq => ?_
      once := fun h => ?_
      older := fun h hq => ?_
      settled := fun h ha hm hb => ?_ }
  · rw [Document.push, List.map_append, List.pairwise_append]
    refine ⟨hd.ascending, List.pairwise_singleton _ _, ?_⟩
    intro j hj k hk
    obtain ⟨x, hx, rfl⟩ := List.mem_map.1 hj
    have hk : k = d.nextId := (List.mem_singleton.1 hk).trans he
    exact hk ▸ hd.bounded (hd.get?_of_mem hx)
  · rcases get?_push_eq_some h with h | ⟨rfl, -⟩
    · exact Nat.lt_succ_of_lt (hd.bounded h)
    · exact he ▸ Nat.lt_succ_self _
  · rcases get?_push_eq_some h with h | ⟨-, rfl⟩
    · obtain ⟨b, hb, hq⟩ := hd.listed h hm
      exact ⟨b, get?_push_of_some hb e, hq⟩
    · simp [hc] at hm
  · rcases get?_push_eq_some h with h | ⟨-, rfl⟩
    · obtain ⟨a, ha, hm⟩ := hd.linked h hq
      exact ⟨a, get?_push_of_some ha e, hm⟩
    · simp [hp] at hq
  · rcases get?_push_eq_some h with h | ⟨-, rfl⟩
    · exact hd.once h
    · simp [hc]
  · rcases get?_push_eq_some h with h | ⟨-, rfl⟩
    · exact hd.older h hq
    · simp [hp] at hq
  · rcases get?_push_eq_some h with h | ⟨-, rfl⟩
    · obtain ⟨b', hb', -⟩ := hd.listed h hm
      cases (get?_push_of_some hb' e).symm.trans hb
      exact hd.settled h ha hm hb'
    · simp [hc] at hm

def attached (d : Document) (parent : ElementId) (slot : String) (child : ElementId) : Document :=
  (d.modify child ({ · with parent := some parent })).modify parent (·.addChild slot child)

theorem attach_eq {d : Document} (hp : d.get? p = some a) (hc : d.get? c = some b) (slot : String) :
    d.attach p slot c = .ok (d.attached p slot c) := by
  simp only [attach, contains_iff.2 ⟨a, hp⟩, contains_iff.2 ⟨b, hc⟩, Bool.not_true,
    Bool.false_eq_true, if_false, attached]

def attachedAt (p : ElementId) (slot : String) (c j : ElementId) (e : Element) : Element :=
  if j = p then e.addChild slot c else if j = c then { e with parent := some p } else e

theorem get?_attached (d : Document) (h : p ≠ c) (slot : String) (j : ElementId) :
    (d.attached p slot c).get? j = (d.get? j).map (attachedAt p slot c j) := by
  rw [attached, get?_modify (f := (·.addChild slot c)) _ (fun _ => rfl),
    get?_modify (f := ({ · with parent := some p })) _ (fun _ => rfl)]
  cases d.get? j with
  | none => simp
  | some e =>
    by_cases hp : j = p
    · subst hp
      simp [attachedAt, h]
    · simp only [Option.map_some, attachedAt, if_neg hp]
      split <;> rfl

theorem attachedAt_mounted (p : ElementId) (slot : String) (c j : ElementId) (e : Element) :
    (attachedAt p slot c j e).mounted = e.mounted := by
  simp only [attachedAt]
  split
  · rfl
  · split <;> rfl

theorem attachedAt_parent (h : p ≠ c) (slot : String) (j : ElementId) (e : Element) :
    (attachedAt p slot c j e).parent = if j = c then some p else e.parent := by
  simp only [attachedAt]
  split
  · rename_i hj
    rw [if_neg (hj ▸ h)]
    rfl
  · split <;> rfl

theorem attachedAt_children_perm (p : ElementId) (slot : String) (c j : ElementId) (e : Element) :
    (attachedAt p slot c j e).children.Perm (if j = p then c :: e.children else e.children) := by
  simp only [attachedAt]
  split
  · exact e.children_addChild_perm slot c
  · split <;> exact .refl _

/-- A root can become the youngest child of an older element that is not mounted. -/
theorem Forest.attached (hd : Forest d) (hp : d.get? p = some a) (hc : d.get? c = some b)
    (hr : b.parent = none) (hlt : p < c) (hm : a.mounted = false) (slot : String) :
    Forest (d.attached p slot c) := by
  have hne : p ≠ c := Nat.ne_of_lt hlt
  have hget := d.get?_attached hne slot
  have hinv {j e'} (h : (d.attached p slot c).get? j = some e') :
      ∃ e, d.get? j = some e ∧ attachedAt p slot c j e = e' :=
    Option.map_eq_some_iff.1 (hget j ▸ h)
  have hsome {j e} (h : d.get? j = some e) :
      (d.attached p slot c).get? j = some (attachedAt p slot c j e) := by
    rw [hget, h, Option.map_some]
  have hmem (j k : ElementId) (e : Element) :
      k ∈ (attachedAt p slot c j e).children ↔ j = p ∧ k = c ∨ k ∈ e.children := by
    rw [(attachedAt_children_perm p slot c j e).mem_iff]
    split <;> simp_all
  -- `c` has no parent, so no slot lists it yet
  have hroot {j e k} (h : d.get? j = some e) (hk : k ∈ e.children) : k ≠ c := by
    rintro rfl
    obtain ⟨b', hb', hq⟩ := hd.listed h hk
    cases hc.symm.trans hb'
    cases hr.symm.trans hq
  refine
    { ascending := ?_
      bounded := fun h => ?_
      listed := fun h hk => ?_
      linked := fun h hq => ?_
      once := fun h => ?_
      older := fun h hq => ?_
      settled := fun h he hk hb' => ?_ }
  · rw [Document.attached, ids_modify (f := (·.addChild slot c)) _ (fun _ => rfl),
      ids_modify (f := ({ · with parent := some p })) _ (fun _ => rfl)]
    exact hd.ascending
  · obtain ⟨e, he, -⟩ := hinv h
    exact hd.bounded he
  · obtain ⟨e, he, rfl⟩ := hinv h
    rcases (hmem _ _ e).1 hk with ⟨rfl, rfl⟩ | hk
    · exact ⟨_, hsome hc, by rw [attachedAt_parent hne, if_pos rfl]⟩
    · obtain ⟨b', hb', hq⟩ := hd.listed he hk
      exact ⟨_, hsome hb', by rw [attachedAt_parent hne, if_neg (hroot he hk), hq]⟩
  · obtain ⟨e, he, rfl⟩ := hinv h
    rw [attachedAt_parent hne] at hq
    split at hq
    · rename_i hj
      cases hq
      exact ⟨_, hsome hp, (hmem _ _ a).2 (.inl ⟨rfl, hj⟩)⟩
    · obtain ⟨x, hx, hk⟩ := hd.linked he hq
      exact ⟨_, hsome hx, (hmem _ _ x).2 (.inr hk)⟩
  · obtain ⟨e, he, rfl⟩ := hinv h
    rw [(attachedAt_children_perm p slot c _ e).nodup_iff]
    split
    · exact List.nodup_cons.2 ⟨fun hk => hroot he hk rfl, hd.once he⟩
    · exact hd.once he
  · obtain ⟨e, he, rfl⟩ := hinv h
    rw [attachedAt_parent hne] at hq
    split at hq
    · rename_i hj
      cases hq
      exact hj ▸ hlt
    · exact hd.older he hq
  · obtain ⟨e, he', rfl⟩ := hinv h
    obtain ⟨b', hb, rfl⟩ := hinv hb'
    rw [attachedAt_mounted] at he ⊢
    rcases (hmem _ _ e).1 hk with ⟨rfl, -⟩ | hk
    · cases hp.symm.trans he'
      cases hm.symm.trans he
    · exact hd.settled he' he hk hb

theorem modify_of_not_mem {elements : List Element} (h : i ∉ elements.map (·.id))
    (f : Element → Element) : elements.map (fun x => if x.id = i then f x else x) = elements := by
  refine (List.map_congr_left fun x hx => ?_).trans (List.map_id elements)
  rw [if_neg fun he => h (List.mem_map.2 ⟨x, hx, he⟩), id]

theorem modify_middle {d : Document} (hn : (d.elements.map (·.id)).Nodup)
    (h : d.elements = front ++ x :: rest) (f : Element → Element) :
    d.modify x.id f = { d with elements := front ++ f x :: rest } := by
  rw [h, List.map_append, List.map_cons, List.nodup_middle, List.nodup_cons, List.mem_append,
    not_or] at hn
  rw [modify, h, List.map_append, List.map_cons, if_pos rfl, modify_of_not_mem hn.1.1,
    modify_of_not_mem hn.1.2]

theorem attached_middle {d : Document} (hn : (d.elements.map (·.id)).Nodup)
    (h : d.elements = front ++ x :: (mid ++ y :: rest)) (slot : String) :
    d.attached x.id slot y.id =
      { d with
        elements := front ++ x.addChild slot y.id :: (mid ++ { y with parent := some x.id } :: rest) } := by
  have hy : d.elements = (front ++ x :: mid) ++ y :: rest := by
    rw [h, List.append_assoc, List.cons_append]
  have hn' := d.ids_modify (f := ({ · with parent := some x.id })) (fun _ => rfl) y.id ▸ hn
  have hx : (d.modify y.id ({ · with parent := some x.id })).elements =
      front ++ x :: (mid ++ { y with parent := some x.id } :: rest) := by
    rw [modify_middle hn hy, List.append_assoc, List.cons_append]
  rw [attached, modify_middle hn' hx, modify_middle hn hy]

theorem Forest.nodup_ids (hd : Forest d) : (d.elements.map (·.id)).Nodup :=
  hd.ascending.imp Nat.ne_of_lt

theorem Forest.modify_push (hd : Forest d) (hx : x.id = d.nextId) (f : Element → Element) :
    (d.push x).modify d.nextId f = d.push (f x) := by
  have hn : d.nextId ∉ d.elements.map (·.id) := by
    intro hm
    obtain ⟨y, hy, he⟩ := List.mem_map.1 hm
    exact Nat.lt_irrefl _ (he ▸ hd.bounded (hd.get?_of_mem hy))
  simp only [modify, Document.push, List.map_append, modify_of_not_mem hn, List.map_cons, List.map_nil, if_pos hx]

end LiveTree.Document
