import LiveTree.OrderedMap

namespace LiveTree.OrderedMap
set_option autoImplicit true

variable {α β : Type}

@[simp] theorem keys_cons (entry : String × α) (m : OrderedMap α) :
    keys (entry :: m) = entry.1 :: keys m :=
  rfl

@[simp] theorem keys_append (m n : OrderedMap α) : keys (m ++ n) = keys m ++ keys n :=
  List.map_append

theorem lookup_cons (key : String) (entry : String × α) (m : OrderedMap α) :
    List.lookup key (entry :: m) = if key = entry.1 then some entry.2 else m.lookup key := by
  rw [List.lookup_cons]
  by_cases h : key = entry.1
  · rw [if_pos h, beq_iff_eq.2 h]
  · rw [if_neg h, beq_false_of_ne h]

theorem lookup_of_not_mem {key : String} {m : OrderedMap α} (h : key ∉ m.keys) :
    m.lookup key = none := by
  induction m with
  | nil => rfl
  | cons entry rest ih =>
    obtain ⟨hne, hrest⟩ := not_or.1 (mt List.mem_cons.2 h)
    rw [lookup_cons, if_neg hne, ih hrest]

theorem mem_of_lookup {m : OrderedMap α} (h : m.lookup key = some value) : (key, value) ∈ m := by
  induction m with
  | nil => cases h
  | cons entry rest ih =>
    rw [lookup_cons] at h
    split at h
    · rename_i hk
      cases h
      exact hk ▸ List.mem_cons_self
    · exact List.mem_cons_of_mem _ (ih h)

theorem lookup_eq_some_iff {m : OrderedMap α} (h : m.keys.Nodup) :
    m.lookup key = some value ↔ (key, value) ∈ m := by
  induction m with
  | nil => simp
  | cons entry rest ih =>
    obtain ⟨he, hrest⟩ := List.nodup_cons.1 h
    rw [lookup_cons, List.mem_cons]
    split
    · rename_i hk
      subst hk
      have hn : (entry.1, value) ∉ rest := fun hm => he (List.mem_map.2 ⟨_, hm, rfl⟩)
      simp only [Option.some.injEq, hn, or_false, Prod.ext_iff, true_and, eq_comm]
    · rename_i hk
      rw [ih hrest, or_iff_right]
      rintro rfl
      exact hk rfl

theorem lookup_insert (m : OrderedMap α) (key other : String) (value : α) :
    (m.insert key value).lookup other = if other = key then some value else m.lookup other := by
  induction m with
  | nil => exact lookup_cons other (key, value) []
  | cons entry rest ih =>
    rw [insert, update]
    split
    · rename_i hk
      rw [lookup_cons, lookup_cons, hk]
      split <;> rfl
    · rename_i hk
      rw [lookup_cons, lookup_cons]
      split
      · rename_i ho
        rw [if_neg (ho ▸ hk)]
      · exact ih

theorem lookup_map_entries (f : String → α → β) (m : OrderedMap α) (key : String) :
    List.lookup key (m.map fun entry => (entry.1, f entry.1 entry.2)) = (m.lookup key).map (f key) := by
  induction m with
  | nil => rfl
  | cons entry rest ih =>
    rw [List.map_cons, lookup_cons, lookup_cons, ih]
    split
    · rename_i hk
      rw [hk, Option.map_some]
    · rfl

theorem map_entries_insert (f : String → α → β) (m : OrderedMap α) (key : String) (value : α) :
    (m.insert key value).map (fun entry => (entry.1, f entry.1 entry.2)) =
      OrderedMap.insert (m.map fun entry => (entry.1, f entry.1 entry.2)) key (f key value) := by
  induction m with
  | nil => rfl
  | cons entry rest ih =>
    simp only [insert, update, List.map_cons] at ih ⊢
    split
    · rename_i h
      rw [List.map_cons, h]
    · rw [List.map_cons, ih]

theorem update_of_not_mem {key : String} {m : OrderedMap α} (h : key ∉ m.keys)
    (f : Option α → α) : m.update key f = m ++ [(key, f none)] := by
  induction m with
  | nil => rfl
  | cons entry rest ih =>
    obtain ⟨hne, hrest⟩ := not_or.1 (mt List.mem_cons.2 h)
    simp only [update, if_neg (Ne.symm hne), ih hrest, List.cons_append]

theorem update_append {key : String} {m : OrderedMap α} (h : key ∉ m.keys)
    (f : Option α → α) (n : OrderedMap α) : (m ++ n).update key f = m ++ n.update key f := by
  induction m with
  | nil => rfl
  | cons entry rest ih =>
    obtain ⟨hne, hrest⟩ := not_or.1 (mt List.mem_cons.2 h)
    simp only [List.cons_append, update, if_neg (Ne.symm hne), ih hrest]

theorem keys_update_of_mem {key : String} {m : OrderedMap α} (h : key ∈ m.keys)
    (f : Option α → α) : (m.update key f).keys = m.keys := by
  induction m with
  | nil => cases h
  | cons entry rest ih =>
    by_cases hk : entry.1 = key
    · simp only [update, if_pos hk, keys_cons]
    · have hrest : key ∈ keys rest := (List.mem_cons.1 h).resolve_left (Ne.symm hk)
      simp only [update, if_neg hk, keys_cons, ih hrest]

theorem nodup_keys_update {m : OrderedMap α} (h : m.keys.Nodup) (key : String)
    (f : Option α → α) : (m.update key f).keys.Nodup := by
  by_cases hk : key ∈ m.keys
  · rw [keys_update_of_mem hk]
    exact h
  · rw [update_of_not_mem hk, keys_append]
    refine List.nodup_append.2 ⟨h, List.pairwise_singleton _ _, ?_⟩
    rintro other hm _ hs rfl
    cases List.mem_singleton.1 hs
    exact hk hm

theorem forall_mem_update {P : α → Prop} {m : OrderedMap α} (h : ∀ entry ∈ m, P entry.2)
    (key : String) {f : Option α → α} (hf : ∀ value?, (∀ value ∈ value?, P value) → P (f value?)) :
    ∀ entry ∈ m.update key f, P entry.2 := by
  induction m with
  | nil => exact List.forall_mem_singleton.2 (hf none (fun _ hv => by cases hv))
  | cons entry rest ih =>
    obtain ⟨he, hrest⟩ := List.forall_mem_cons.1 h
    rw [update]
    split
    · exact List.forall_mem_cons.2 ⟨hf _ (fun _ hv => Option.mem_some.1 hv ▸ he), hrest⟩
    · exact List.forall_mem_cons.2 ⟨he, ih hrest⟩

theorem mem_of_mem_insert {m : OrderedMap α} {entry : String × α}
    (h : entry ∈ m.insert key value) : entry ∈ m ∨ entry = (key, value) := by
  induction m with
  | nil => exact .inr (List.mem_singleton.1 h)
  | cons head rest ih =>
    rw [insert, update] at h
    split at h
    · rename_i hk
      rcases List.mem_cons.1 h with rfl | h
      · exact .inr (by rw [hk])
      · exact .inl (List.mem_cons_of_mem _ h)
    · rcases List.mem_cons.1 h with rfl | h
      · exact .inl List.mem_cons_self
      · exact (ih h).imp_left (List.mem_cons_of_mem _)

theorem nodup_keys_insertAll {m : OrderedMap α} (h : m.keys.Nodup) (entries : OrderedMap α) :
    (m.insertAll entries).keys.Nodup := by
  induction entries generalizing m with
  | nil => exact h
  | cons entry rest ih => exact ih (nodup_keys_update h entry.1 _)

theorem insert_of_nodup {m rest : OrderedMap α} (h : (m ++ entry :: rest).keys.Nodup) :
    m.insert entry.1 entry.2 = m ++ [entry] := by
  apply update_of_not_mem
  intro hm
  rw [keys_append] at h
  exact (List.nodup_append.1 h).2.2 _ hm _ List.mem_cons_self rfl

/-- Entries with new keys go to the end as they are. -/
theorem insertAll_eq_append {m entries : OrderedMap α} (h : (m ++ entries).keys.Nodup) :
    m.insertAll entries = m ++ entries := by
  induction entries generalizing m with
  | nil => exact (List.append_nil m).symm
  | cons entry rest ih =>
    have hinsert := insert_of_nodup h
    rw [List.append_cons] at h ⊢
    rw [← ih h, ← hinsert]
    rfl

theorem insertAll_nil {entries : OrderedMap α} (h : entries.keys.Nodup) :
    insertAll [] entries = entries :=
  insertAll_eq_append h

/-- One map laid over another: values take the places of others, and new keys follow in their own order. -/
structure Overlaid (m overrides result : OrderedMap α) : Prop where
  keys : result.keys = m.keys ++ overrides.keys.filter (· ∉ m.keys)
  lookup : ∀ key, result.lookup key = (overrides.lookup key).or (m.lookup key)

theorem keys_insertAll {overrides : OrderedMap α} (h : overrides.keys.Nodup) (m : OrderedMap α) :
    (m.insertAll overrides).keys = m.keys ++ overrides.keys.filter (· ∉ m.keys) := by
  induction overrides generalizing m with
  | nil => exact (List.append_nil _).symm
  | cons entry rest ih =>
    obtain ⟨hn, hrest⟩ := List.nodup_cons.1 h
    refine (ih hrest (m.insert entry.1 entry.2)).trans ?_
    rw [insert, keys_cons]
    by_cases hm : entry.1 ∈ m.keys
    · rw [keys_update_of_mem hm, List.filter_cons_of_neg (by simpa using hm)]
    · -- the key that is inserted does not come again
      have hfilter : (keys rest).filter (· ∉ m.keys ++ [entry.1]) = (keys rest).filter (· ∉ m.keys) := by
        apply List.filter_congr
        intro key hkey
        have hne : key ≠ entry.1 := fun he => hn (he ▸ hkey)
        simp [hne]
      rw [update_of_not_mem hm, keys_append, List.filter_cons_of_pos (by simpa using hm),
        List.append_cons, ← hfilter]
      rfl

theorem lookup_insertAll {overrides : OrderedMap α} (h : overrides.keys.Nodup) (m : OrderedMap α)
    (key : String) :
    (m.insertAll overrides).lookup key = (overrides.lookup key).or (m.lookup key) := by
  induction overrides generalizing m with
  | nil => rfl
  | cons entry rest ih =>
    obtain ⟨hn, hrest⟩ := List.nodup_cons.1 h
    refine (ih hrest (m.insert entry.1 entry.2)).trans ?_
    rw [lookup_insert, lookup_cons]
    by_cases hk : key = entry.1
    · rw [if_pos hk, if_pos hk, hk, lookup_of_not_mem hn, Option.none_or, Option.some_or]
    · rw [if_neg hk, if_neg hk]

theorem overlaid_insertAll {overrides : OrderedMap α} (h : overrides.keys.Nodup) (m : OrderedMap α) :
    Overlaid m overrides (m.insertAll overrides) :=
  ⟨keys_insertAll h m, lookup_insertAll h m⟩

theorem flatMap_push_perm (m : OrderedMap (List α)) (key : String) (item : α) :
    ((m.push key item).flatMap Prod.snd).Perm (item :: m.flatMap Prod.snd) := by
  induction m with
  | nil => exact .refl _
  | cons entry rest ih =>
    by_cases hk : entry.1 = key
    · simp only [push, update, if_pos hk, Option.getD_some, List.flatMap_cons, List.append_assoc]
      exact List.perm_middle
    · simp only [push, update, if_neg hk, List.flatMap_cons]
      exact (List.Perm.append_left _ ih).trans List.perm_middle

theorem flatMap_mapValues (f : List α → List β) (m : OrderedMap (List α)) :
    (m.mapValues f).flatMap Prod.snd = m.flatMap (fun entry => f entry.2) := by
  simp only [mapValues, List.flatMap_map]

theorem mapValues_congr {f g : α → β} {m : OrderedMap α} (h : ∀ entry ∈ m, f entry.2 = g entry.2) :
    m.mapValues f = m.mapValues g :=
  List.map_congr_left fun entry he => congrArg (Prod.mk entry.1) (h entry he)

@[simp] theorem mapValues_id (m : OrderedMap α) : m.mapValues (fun value => value) = m :=
  List.map_id m

@[simp] theorem mapValues_mapValues {γ : Type} (f : β → γ) (g : α → β) (m : OrderedMap α) :
    (m.mapValues g).mapValues f = m.mapValues (fun value => f (g value)) :=
  List.map_map

end LiveTree.OrderedMap
