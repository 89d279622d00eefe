import Mathlib.Data.List.Basic
import Mathlib.Data.List.Sort
import LiveTree.NameIndex
import LiveTree.Proofs.OrderedMap

namespace LiveTree.NameIndex
set_option autoImplicit true

theorem mem_insertId (i : ElementId) (ids : List ElementId) :
    x ∈ insertId i ids ↔ x = i ∨ x ∈ ids := by
  induction ids with
  | nil => simp [insertId]
  | cons j rest ih =>
    rw [insertId]
    split
    · exact List.mem_cons
    · split
      · rename_i h
        rw [h, List.mem_cons, ← or_assoc, or_self]
      · rw [List.mem_cons, List.mem_cons, ih, or_left_comm]

theorem pairwise_insertId (i : ElementId) (h : ids.Pairwise (· < ·)) :
    (insertId i ids).Pairwise (· < ·) := by
  induction ids with
  | nil => exact List.pairwise_singleton _ _
  | cons j rest ih =>
    obtain ⟨hj, hrest⟩ := List.pairwise_cons.1 h
    rw [insertId]
    split
    · rename_i hlt
      refine List.pairwise_cons.2 ⟨fun k hk => ?_, h⟩
      rcases List.mem_cons.1 hk with rfl | hk
      · exact hlt
      · exact Nat.lt_trans hlt (hj k hk)
    · split
      · exact h
      · rename_i hge hne
        refine List.pairwise_cons.2 ⟨fun k hk => ?_, ih hrest⟩
        rcases (mem_insertId i rest).1 hk with rfl | hk
        · exact Nat.lt_of_le_of_ne (Nat.le_of_not_lt hge) (Ne.symm hne)
        · exact hj k hk

theorem mem_keys_insertEntry (name : String) (i : ElementId)
    (entries : List (String × List ElementId)) :
    k ∈ (insertEntry name i entries).map Prod.fst ↔ k = name ∨ k ∈ entries.map Prod.fst := by
  induction entries with
  | nil => simp [insertEntry]
  | cons entry rest ih =>
    rw [insertEntry]
    split
    · exact List.mem_cons
    · split
      · rename_i h
        rw [h, List.map_cons, List.map_cons, List.mem_cons, ← or_assoc, or_self]
      · rw [List.map_cons, List.map_cons, List.mem_cons, List.mem_cons, ih, or_left_comm]

theorem pairwise_insertEntry (name : String) (i : ElementId)
    {entries : List (String × List ElementId)} (h : (entries.map Prod.fst).Pairwise (· < ·)) :
    ((insertEntry name i entries).map Prod.fst).Pairwise (· < ·) := by
  induction entries with
  | nil => exact List.pairwise_singleton _ _
  | cons entry rest ih =>
    obtain ⟨he, hrest⟩ := List.pairwise_cons.1 h
    rw [insertEntry]
    split
    · rename_i hlt
      refine List.pairwise_cons.2 ⟨fun k hk => ?_, h⟩
      rcases List.mem_cons.1 hk with rfl | hk
      · exact hlt
      · exact String.lt_trans hlt (he k hk)
    · split
      · exact h
      · rename_i hge hne
        refine List.pairwise_cons.2 ⟨fun k hk => ?_, ih hrest⟩
        rcases (mem_keys_insertEntry name i rest).1 hk with rfl | hk
        · exact Std.lt_of_le_of_ne (String.not_lt.1 hge) (Ne.symm hne)
        · exact he k hk

theorem lookup_insertEntry (name : String) (i : ElementId)
    {entries : List (String × List ElementId)} (h : (entries.map Prod.fst).Pairwise (· < ·))
    (m : String) :
    (insertEntry name i entries).lookup m =
      if m = name then some (insertId i ((entries.lookup name).getD [])) else entries.lookup m := by
  induction entries with
  | nil =>
    rw [insertEntry, OrderedMap.lookup_cons]
    rfl
  | cons entry rest ih =>
    obtain ⟨he, hrest⟩ := List.pairwise_cons.1 h
    rw [insertEntry]
    split
    · rename_i hlt
      have hn : name ∉ List.map Prod.fst (entry :: rest) := by
        intro hm
        rcases List.mem_cons.1 hm with rfl | hm
        · exact String.lt_irrefl _ hlt
        · exact String.lt_asymm hlt (he name hm)
      rw [OrderedMap.lookup_of_not_mem hn, OrderedMap.lookup_cons]
      rfl
    · split
      · rename_i heq
        rw [OrderedMap.lookup_cons, OrderedMap.lookup_cons, OrderedMap.lookup_cons, if_pos heq, heq]
        split <;> rfl
      · rename_i hge hne
        rw [OrderedMap.lookup_cons, ih hrest, OrderedMap.lookup_cons, OrderedMap.lookup_cons,
          if_neg hne]
        by_cases hm : m = entry.1
        · rw [if_pos hm, if_neg fun hn => hne (hn.symm.trans hm), if_pos hm]
        · rw [if_neg hm, if_neg hm]

/-- Names ascend, so do the ids under each, and no name is kept without ids. -/
structure WellFormed (index : NameIndex) : Prop where
  names : (index.entries.map Prod.fst).Pairwise (· < ·)
  ids : ∀ entry ∈ index.entries, entry.2.Pairwise (· < ·)
  inhabited : ∀ entry ∈ index.entries, entry.2 ≠ []

theorem wellFormed_empty : WellFormed {} where
  names := .nil
  ids _ h := by cases h
  inhabited _ h := by cases h

/-- Put an id under its name, whatever the policy. -/
def insert (index : NameIndex) (name : String) (id : ElementId) : NameIndex :=
  ⟨insertEntry name id index.entries⟩

theorem register_eq {index : NameIndex} (h : index.check policy name i = .ok ()) :
    index.register policy name i = .ok (index.insert name i) := by
  simp only [register, h]
  rfl

theorem check_eq_ok_iff {index : NameIndex} :
    index.check policy name i = .ok () ↔
      (policy = .reject → ∀ j ∈ index.idsOf name, j = i) := by
  rw [check]
  split
  · rename_i h
    obtain ⟨hp, hj⟩ := h
    obtain ⟨j, hj, hne⟩ := List.any_eq_true.1 hj
    simp only [reduceCtorEq, false_iff, Classical.not_imp, not_forall]
    exact ⟨hp, j, hj, by simpa using hne⟩
  · rename_i h
    refine ⟨fun _ hp j hj => ?_, fun _ => rfl⟩
    by_contra hne
    exact h ⟨hp, List.any_eq_true.2 ⟨j, hj, by simpa using hne⟩⟩

theorem of_check_error {index : NameIndex} (h : index.check policy name i = .error error) :
    policy = .reject ∧ error = .duplicateName name := by
  rw [check] at h
  split at h
  · rename_i hp
    cases h
    exact ⟨hp.1, rfl⟩
  · cases h

theorem mem_insertEntry (h : entry ∈ insertEntry name i entries') :
    entry ∈ entries' ∨ ∃ ids, entry.2 = insertId i ids ∧ (ids = [] ∨ (name, ids) ∈ entries') := by
  induction entries' with
  | nil =>
    cases List.mem_singleton.1 h
    exact .inr ⟨[], rfl, .inl rfl⟩
  | cons other rest ih =>
    rw [insertEntry] at h
    split at h
    · rcases List.mem_cons.1 h with rfl | h
      · exact .inr ⟨[], rfl, .inl rfl⟩
      · exact .inl h
    · split at h
      · rename_i heq
        rcases List.mem_cons.1 h with rfl | h
        · exact .inr ⟨other.2, rfl, .inr (heq ▸ List.mem_cons_self)⟩
        · exact .inl (List.mem_cons_of_mem _ h)
      · rcases List.mem_cons.1 h with rfl | h
        · exact .inl List.mem_cons_self
        · rcases ih h with hm | ⟨ids, he, hids⟩
          · exact .inl (List.mem_cons_of_mem _ hm)
          · exact .inr ⟨ids, he, hids.imp_right (List.mem_cons_of_mem _)⟩

def unlisted (name : String) (i : ElementId) (entry : String × List ElementId) :
    Option (String × List ElementId) :=
  if entry.1 = name then
    if (entry.2.filter (· != i)).isEmpty then none else some (entry.1, entry.2.filter (· != i))
  else some entry

theorem unregister_entries (index : NameIndex) (name : String) (i : ElementId) :
    (index.unregister name i).entries = index.entries.filterMap (unlisted name i) :=
  rfl

theorem unlisted_eq_some (h : unlisted name i entry = some entry') :
    entry'.1 = entry.1 ∧
      (entry' = entry ∨ entry'.2 = entry.2.filter (· != i) ∧ entry'.2 ≠ []) := by
  rw [unlisted] at h
  split at h
  · split at h
    · cases h
    · rename_i hne
      cases h
      exact ⟨rfl, .inr ⟨rfl, fun he => hne (List.isEmpty_iff.2 he)⟩⟩
  · cases h
    exact ⟨rfl, .inl rfl⟩

/-- The index without some ids. A name that is left without ids goes. -/
def lacking (index : NameIndex) (ids : List ElementId) : NameIndex where
  entries := (index.entries.map fun entry => (entry.1, entry.2.filter (· ∉ ids))).filter (·.2 ≠ [])

theorem mem_lacking {index : NameIndex} {ids : List ElementId} :
    (n, kept) ∈ (index.lacking ids).entries ↔
      kept ≠ [] ∧ ∃ listed, (n, listed) ∈ index.entries ∧ listed.filter (· ∉ ids) = kept := by
  simp only [lacking, List.mem_filter, List.mem_map, Prod.mk.injEq, decide_eq_true_eq]
  constructor
  · rintro ⟨⟨entry, he, rfl, hk⟩, hne⟩
    exact ⟨hne, entry.2, he, hk⟩
  · rintro ⟨hne, listed, he, hk⟩
    exact ⟨⟨(n, listed), he, rfl, hk⟩, hne⟩

namespace WellFormed

theorem insert (h : WellFormed index) (name : String) (i : ElementId) :
    WellFormed (index.insert name i) where
  names := pairwise_insertEntry name i h.names
  ids entry he := by
    rcases mem_insertEntry he with he | ⟨ids, hi, rfl | hids⟩
    · exact h.ids entry he
    · rw [hi]
      exact List.pairwise_singleton _ _
    · rw [hi]
      exact pairwise_insertId i (h.ids _ hids)
  inhabited entry he := by
    rcases mem_insertEntry he with he | ⟨ids, hi, -⟩
    · exact h.inhabited entry he
    · rw [hi]
      exact List.ne_nil_of_mem ((mem_insertId i ids).2 (.inl rfl))

theorem nodup_names (h : WellFormed index) : (OrderedMap.keys index.entries).Nodup :=
  h.names.imp String.ne_of_lt

theorem mem_idsOf (h : WellFormed index) :
    x ∈ index.idsOf m ↔ ∃ ids, (m, ids) ∈ index.entries ∧ x ∈ ids := by
  simp only [← OrderedMap.lookup_eq_some_iff h.nodup_names, idsOf]
  cases index.entries.lookup m with
  | none => simp
  | some ids => simp

theorem pairwise_idsOf (h : WellFormed index) (m : String) : (index.idsOf m).Pairwise (· < ·) := by
  rw [idsOf]
  cases hl : index.entries.lookup m with
  | none => exact .nil
  | some ids => exact h.ids _ ((OrderedMap.lookup_eq_some_iff h.nodup_names).1 hl)

theorem idsOf_insert (h : WellFormed index) (name : String) (i : ElementId) (m : String) :
    (index.insert name i).idsOf m =
      if m = name then insertId i (index.idsOf name) else index.idsOf m := by
  rw [idsOf, NameIndex.insert, lookup_insertEntry name i h.names]
  split <;> rfl

theorem mem_idsOf_insert (h : WellFormed index) :
    x ∈ (index.insert name i).idsOf m ↔ m = name ∧ x = i ∨ x ∈ index.idsOf m := by
  rw [h.idsOf_insert]
  split
  · rename_i hm
    simp only [mem_insertId, hm, true_and]
  · rename_i hm
    simp only [hm, false_and, false_or]

theorem unregister (h : WellFormed index) (name : String) (i : ElementId) :
    WellFormed (index.unregister name i) where
  names := by
    rw [List.pairwise_map]
    apply (List.pairwise_map.1 h.names).filterMap
    intro a a' hlt b hb b' hb'
    rw [(unlisted_eq_some hb).1, (unlisted_eq_some hb').1]
    exact hlt
  ids entry he := by
    obtain ⟨other, ho, he⟩ := List.mem_filterMap.1 he
    rcases (unlisted_eq_some he).2 with he | ⟨he, -⟩
    · exact he ▸ h.ids other ho
    · rw [he]
      exact (h.ids other ho).filter _
  inhabited entry he := by
    obtain ⟨other, ho, he⟩ := List.mem_filterMap.1 he
    rcases (unlisted_eq_some he).2 with he | ⟨-, he⟩
    · exact he ▸ h.inhabited other ho
    · exact he

theorem mem_idsOf_unregister (h : WellFormed index) :
    x ∈ (index.unregister name i).idsOf m ↔ x ∈ index.idsOf m ∧ ¬(m = name ∧ x = i) := by
  rw [(h.unregister name i).mem_idsOf, h.mem_idsOf, unregister_entries]
  constructor
  · rintro ⟨ids, he, hx⟩
    obtain ⟨other, ho, hu⟩ := List.mem_filterMap.1 he
    rw [unlisted] at hu
    split at hu
    · split at hu
      · cases hu
      · cases hu
        obtain ⟨hx, hne⟩ := List.mem_filter.1 hx
        exact ⟨⟨_, ho, hx⟩, fun hmx => by simp [hmx.2] at hne⟩
    · rename_i hn
      cases hu
      exact ⟨⟨_, ho, hx⟩, fun hmx => hn hmx.1⟩
  · rintro ⟨⟨ids, he, hx⟩, hne⟩
    by_cases hm : m = name
    · have hf : x ∈ ids.filter (· != i) :=
        List.mem_filter.2 ⟨hx, by simpa using fun hxi => hne ⟨hm, hxi⟩⟩
      refine ⟨_, List.mem_filterMap.2 ⟨_, he, ?_⟩, hf⟩
      have hz : (ids.filter (· != i)).isEmpty = false := by
        rw [List.isEmpty_eq_false_iff]
        exact List.ne_nil_of_mem hf
      simp only [unlisted, if_pos hm, hz, Bool.false_eq_true, if_false]
    · refine ⟨ids, List.mem_filterMap.2 ⟨_, he, ?_⟩, hx⟩
      simp only [unlisted, if_neg hm]

theorem mem_entries {ids : List ElementId} (h : WellFormed index) :
    (n, ids) ∈ index.entries ↔ ids ≠ [] ∧ index.idsOf n = ids := by
  rw [← OrderedMap.lookup_eq_some_iff h.nodup_names, idsOf]
  cases hl : index.entries.lookup n with
  | none => simp [eq_comm]
  | some listed =>
    have hne := h.inhabited _ ((OrderedMap.lookup_eq_some_iff h.nodup_names).1 hl)
    rw [Option.some.injEq, Option.getD_some]
    exact ⟨fun he => ⟨he ▸ hne, he⟩, And.right⟩

/-- Indexes with the same ids under every name are equal. -/
theorem ext (h : WellFormed index) (h' : WellFormed index')
    (hm : ∀ n j, j ∈ index.idsOf n ↔ j ∈ index'.idsOf n) : index = index' := by
  have hids (n : String) : index.idsOf n = index'.idsOf n :=
    (h.pairwise_idsOf n).eq_of_mem_iff (h'.pairwise_idsOf n) (hm n)
  have hirrefl : Std.Irrefl fun a b : String × List ElementId => a.1 < b.1 :=
    ⟨fun a => String.lt_irrefl a.1⟩
  have hentries : index.entries = index'.entries := by
    apply (List.pairwise_map.1 h.names).eq_of_mem_iff (List.pairwise_map.1 h'.names)
    intro entry
    rw [h.mem_entries, h'.mem_entries, hids]
  cases index
  cases index'
  exact congrArg NameIndex.mk hentries

theorem lacking (h : WellFormed index) (ids : List ElementId) : WellFormed (index.lacking ids) where
  names := by
    have hsub := (List.filter_sublist (p := (·.2 ≠ [])) (l := index.entries.map fun entry =>
      (entry.1, entry.2.filter (· ∉ ids)))).map Prod.fst
    rw [List.map_map] at hsub
    exact h.names.sublist hsub
  ids entry he := by
    obtain ⟨-, listed, hl, hk⟩ := mem_lacking.1 he
    exact hk ▸ (h.ids _ hl).filter _
  inhabited entry he := (mem_lacking.1 he).1

theorem idsOf_lacking (h : WellFormed index) (ids : List ElementId) (n : String) :
    (index.lacking ids).idsOf n = (index.idsOf n).filter (· ∉ ids) := by
  apply ((h.lacking ids).pairwise_idsOf n).eq_of_mem_iff ((h.pairwise_idsOf n).filter _)
  intro j
  rw [(h.lacking ids).mem_idsOf, List.mem_filter, h.mem_idsOf]
  simp only [mem_lacking]
  constructor
  · rintro ⟨kept, ⟨-, listed, hl, rfl⟩, hj⟩
    obtain ⟨hj, hn⟩ := List.mem_filter.1 hj
    exact ⟨⟨listed, hl, hj⟩, hn⟩
  · rintro ⟨⟨listed, hl, hj⟩, hn⟩
    have hk : j ∈ listed.filter (· ∉ ids) := List.mem_filter.2 ⟨hj, hn⟩
    exact ⟨_, ⟨List.ne_nil_of_mem hk, listed, hl, rfl⟩, hk⟩

theorem contains_iff (h : WellFormed index) : index.contains name = true ↔ index.idsOf name ≠ [] := by
  rw [contains, idsOf]
  cases hl : index.entries.lookup name with
  | none => simp
  | some ids =>
    have hm := (OrderedMap.lookup_eq_some_iff h.nodup_names).1 hl
    simpa using h.inhabited _ hm

end WellFormed

end LiveTree.NameIndex
