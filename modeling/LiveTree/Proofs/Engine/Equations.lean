import LiveTree.Proofs.Engine.Edit

namespace LiveTree.Engine
set_option autoImplicit true

theorem run_register {e : Engine} (h : e.names.check e.settings.namePolicy name i = .ok ()) :
    (register name i).run e = .done () { e with names := e.names.insert name i } := by
  rw [register, EngineM.run_bind_done (EngineM.run_get e), NameIndex.register_eq h,
    EngineM.ofExcept_ok, EngineM.run_bind_done (EngineM.run_pure _ e), EngineM.run_set]

def MayEnroll (policy : NamePolicy) (index : NameIndex) (elements : List Element) : Prop :=
  policy = .reject →
    (∀ x ∈ elements, ∀ j ∈ index.idsOf x.name, j = x.id) ∧ elements.Pairwise (·.name ≠ ·.name)

theorem MayEnroll.tail (h : MayEnroll policy index (x :: rest)) (hw : index.WellFormed) :
    MayEnroll policy (index.insert x.name x.id) rest := by
  intro hp
  obtain ⟨hids, hnames⟩ := h hp
  obtain ⟨hx, hrest⟩ := List.pairwise_cons.1 hnames
  refine ⟨fun y hy j hj => ?_, hrest⟩
  rcases hw.mem_idsOf_insert.1 hj with ⟨he, -⟩ | hj
  · exact (hx y hy he.symm).elim
  · exact hids y (List.mem_cons_of_mem _ hy) j hj

/-- Names that were checked together can be registered one after the other. -/
theorem run_forM_register {e : Engine} (hw : e.names.WellFormed)
    (h : MayEnroll e.settings.namePolicy e.names elements) :
    (elements.forM fun x => register x.name x.id).run e =
      .done () { e with names := enrolled e.names elements } := by
  induction elements generalizing e with
  | nil => rfl
  | cons x rest ih =>
    have hx : e.names.check e.settings.namePolicy x.name x.id = .ok () :=
      NameIndex.check_eq_ok_iff.2 fun hp => (h hp).1 x List.mem_cons_self
    rw [EngineM.forM_cons, EngineM.run_bind_done (run_register hx),
      ih (hw.insert x.name x.id) (h.tail hw)]
    rfl

theorem checkNames_cons (hd : x.declared = true)
    (h : checkNames index policy seen (x :: rest) = .ok ()) :
    index.check policy x.name x.id = .ok () ∧ ¬(policy = .reject ∧ x.name ∈ seen) ∧
      checkNames index policy (x.name :: seen) rest = .ok () := by
  simp only [checkNames, if_pos hd] at h
  cases hc : index.check policy x.name x.id with
  | error error =>
    rw [hc] at h
    cases h
  | ok _ =>
    rw [hc] at h
    by_cases hs : policy = .reject ∧ x.name ∈ seen
    · simp only [if_pos hs] at h
      cases h
    · simp only [if_neg hs] at h
      exact ⟨rfl, hs, h⟩

theorem checkNames_ok (h : checkNames index policy seen elements = .ok ()) :
    MayEnroll policy index (elements.filter (·.declared)) ∧
      (policy = .reject → ∀ x ∈ elements.filter (·.declared), x.name ∉ seen) := by
  induction elements generalizing seen with
  | nil =>
    have hn (x : Element) : x ∉ [].filter (·.declared) := List.not_mem_nil
    exact ⟨fun _ => ⟨fun x hx => (hn x hx).elim, .nil⟩, fun _ x hx => (hn x hx).elim⟩
  | cons x rest ih =>
    by_cases hd : x.declared = true
    · obtain ⟨hc, hs, hrest⟩ := checkNames_cons hd h
      obtain ⟨hm, hseen⟩ := ih hrest
      rw [List.filter_cons_of_pos hd]
      refine ⟨fun hp => ⟨?_, ?_⟩, fun hp => ?_⟩
      · exact List.forall_mem_cons.2 ⟨NameIndex.check_eq_ok_iff.1 hc hp, (hm hp).1⟩
      · refine List.pairwise_cons.2 ⟨fun y hy he => ?_, (hm hp).2⟩
        exact hseen hp y hy (he ▸ List.mem_cons_self)
      · refine List.forall_mem_cons.2 ⟨fun hx => hs ⟨hp, hx⟩, fun y hy hn => ?_⟩
        exact hseen hp y hy (List.mem_cons_of_mem _ hn)
    · rw [List.filter_cons_of_neg hd]
      rw [checkNames, if_neg hd] at h
      exact ih h

/-- Names that may be taken together pass the check. -/
theorem checkNames_of_mayEnroll (hm : MayEnroll policy index (elements.filter (·.declared)))
    (hs : policy = .reject → ∀ x ∈ elements.filter (·.declared), x.name ∉ seen) :
    checkNames index policy seen elements = .ok () := by
  induction elements generalizing seen with
  | nil => rfl
  | cons x rest ih =>
    by_cases hd : x.declared = true
    · rw [List.filter_cons_of_pos hd] at hm hs
      have hc : index.check policy x.name x.id = .ok () :=
        NameIndex.check_eq_ok_iff.2 fun hp => (hm hp).1 x List.mem_cons_self
      have hn : ¬(policy = .reject ∧ x.name ∈ seen) := fun h => hs h.1 x List.mem_cons_self h.2
      simp only [checkNames, if_pos hd, hc, if_neg hn]
      apply ih
      · intro hp
        exact ⟨fun y hy => (hm hp).1 y (List.mem_cons_of_mem _ hy), (List.pairwise_cons.1 (hm hp).2).2⟩
      · intro hp y hy hmem
        rcases List.mem_cons.1 hmem with he | hmem
        · exact (List.pairwise_cons.1 (hm hp).2).1 y hy he.symm
        · exact hs hp y (List.mem_cons_of_mem _ hy) hmem
    · rw [List.filter_cons_of_neg hd] at hm hs
      rw [checkNames, if_neg hd]
      exact ih hm hs

theorem run_mount_none {e : Engine} (h : e.document.get? root = none) :
    (mount root).run e = .failed (.unknownElement root) e := by
  rw [mount, EngineM.run_bind_done (EngineM.run_get e), EngineM.run_bind_failed (run_element_none h)]

theorem run_mount_clash {e : Engine} (h : e.document.get? root = some x)
    (hn : checkNames e.names e.settings.namePolicy [] (pending e.document root) = .error error) :
    (mount root).run e = .failed error e := by
  rw [mount, EngineM.run_bind_done (EngineM.run_get e), EngineM.run_bind_done (run_element_some h)]
  dsimp only
  rw [hn, EngineM.ofExcept_error, EngineM.run_bind_failed (EngineM.run_throw error e)]

theorem run_mount {e : Engine} (hw : e.names.WellFormed) (h : e.document.get? root = some x)
    (hn : checkNames e.names e.settings.namePolicy [] (pending e.document root) = .ok ()) :
    (mount root).run e = .done () (e.mounted root) := by
  rw [mount, EngineM.run_bind_done (EngineM.run_get e), EngineM.run_bind_done (run_element_some h)]
  dsimp only
  rw [hn, EngineM.ofExcept_ok, EngineM.run_bind_done (EngineM.run_pure _ e),
    EngineM.run_bind_done (run_forM_register hw (checkNames_ok hn).1), EngineM.run_modify]
  rfl

theorem checkNames_error (h : checkNames index policy seen elements = .error error) :
    policy = .reject ∧ ∃ name, error = .duplicateName name := by
  induction elements generalizing seen with
  | nil => cases h
  | cons x rest ih =>
    rw [checkNames] at h
    split at h
    · cases hc : index.check policy x.name x.id with
      | error clash =>
        rw [hc] at h
        cases h
        obtain ⟨hp, he⟩ := NameIndex.of_check_error hc
        exact ⟨hp, x.name, he⟩
      | ok _ =>
        rw [hc] at h
        by_cases hs : policy = .reject ∧ x.name ∈ seen
        · simp only [if_pos hs] at h
          cases h
          exact ⟨hs.1, x.name, rfl⟩
        · simp only [if_neg hs] at h
          exact ih h
    · exact ih h

/-- Mounting is one step, or it fails and nothing has changed. -/
theorem run_mount_cases {e : Engine} (hc : Coherent e) (root : ElementId) :
    (∃ e', (mount root).run e = .done () e' ∧ Act e e') ∨
      ∃ error, (mount root).run e = .failed error e ∧
        (error = .unknownElement root ∨ ∃ name, error = .duplicateName name) := by
  cases h : e.document.get? root with
  | none => exact .inr ⟨_, run_mount_none h, .inl rfl⟩
  | some x =>
    cases hn : checkNames e.names e.settings.namePolicy [] (pending e.document root) with
    | error error => exact .inr ⟨error, run_mount_clash h hn, .inr (checkNames_error hn).2⟩
    | ok _ => exact .inl ⟨_, run_mount hc.names h hn, .mount h hn⟩

theorem run_mount_done {e : Engine} (hc : Coherent e) (h : (mount root).run e = .done () e') :
    (∃ x, e.document.get? root = some x) ∧ e' = e.mounted root := by
  cases hr : e.document.get? root with
  | none =>
    rw [run_mount_none hr] at h
    cases h
  | some x =>
    cases hn : checkNames e.names e.settings.namePolicy [] (pending e.document root) with
    | error error =>
      rw [run_mount_clash hr hn] at h
      cases h
    | ok _ =>
      rw [run_mount hc.names hr hn] at h
      cases h
      exact ⟨⟨x, rfl⟩, rfl⟩

theorem run_prune_none {e : Engine} (h : e.document.get? root = none) :
    (prune root).run e = .failed (.unknownElement root) e := by
  rw [prune, EngineM.run_bind_done (EngineM.run_get e), Document.prune_none h, EngineM.ofExcept_error,
    EngineM.run_bind_failed (EngineM.run_throw _ e)]

theorem run_prune {e : Engine} (hd : e.document.Forest) (h : e.document.get? root = some x) :
    (prune root).run e =
      .done ((e.document.preorder root).filterMap e.document.get?)
        { e with document := e.document.without (e.document.preorder root) } := by
  rw [prune, EngineM.run_bind_done (EngineM.run_get e), hd.prune_eq h, EngineM.ofExcept_ok,
    EngineM.run_bind_done (EngineM.run_pure _ e)]
  rfl

theorem run_forM_strike (elements : List Element) (e : Engine) :
    (elements.forM fun (x : Element) => do
      if x.mounted && x.declared then unregister x.name x.id
      record (.remove x.id)).run e =
      .done () ({ e with names := struck e.names elements }.tell
        (elements.map fun (x : Element) => Patch.remove x.id)) := by
  induction elements generalizing e with
  | nil => exact congrArg (Outcome.done ()) (tell_nil e).symm
  | cons x rest ih =>
    have hx : (do
        if x.mounted && x.declared then unregister x.name x.id
        record (.remove x.id) : EngineM Unit).run e =
        .done () ({ e with names := struck e.names [x] }.tell [.remove x.id]) := by
      cases hm : x.mounted && x.declared <;>
        simp only [struck, List.foldl_cons, List.foldl_nil, hm] <;> rfl
    rw [EngineM.forM_cons, EngineM.run_bind_done hx, ih]
    simp only [tell, Option.map_map, List.map_cons, struck, List.foldl_cons]
    rfl

theorem run_unmount_none {e : Engine} (h : e.document.get? root = none) :
    (unmount root).run e = .failed (.unknownElement root) e := by
  rw [unmount, EngineM.run_bind_failed (run_prune_none h)]

theorem run_unmount {e : Engine} (hd : e.document.Forest) (h : e.document.get? root = some x) :
    (unmount root).run e = .done () (e.removed root) := by
  rw [unmount, EngineM.run_bind_done (run_prune hd h), run_forM_strike]
  rfl

theorem run_markDirty_none {e : Engine} (h : e.document.get? i = none) :
    (markDirty i).run e = .failed (.unknownElement i) e := by
  rw [markDirty, EngineM.run_bind_failed (run_element_none h)]

theorem run_markDirty {e : Engine} (h : e.document.get? i = some x) :
    (markDirty i).run e = .done () { e with document := e.document.modify i (·.markDirty) } := by
  rw [markDirty, EngineM.run_bind_done (run_element_some h)]
  rfl

theorem struck_of_not_mounted (h : ∀ x ∈ elements, x.mounted = false) (index : NameIndex) :
    struck index elements = index := by
  induction elements with
  | nil => rfl
  | cons x rest ih =>
    obtain ⟨hx, hrest⟩ := List.forall_mem_cons.1 h
    rw [struck, List.foldl_cons, hx]
    exact ih hrest

/-- Withdrawing is removing, where nothing is mounted. -/
theorem run_withdraw {e : Engine} (hd : e.document.Forest) (h : e.document.get? root = some x)
    (hm : ∀ y ∈ (e.document.preorder root).filterMap e.document.get?, y.mounted = false) :
    (withdraw root).run e = .done () (e.removed root) := by
  rw [withdraw, EngineM.run_bind_done (run_prune hd h), run_forM_record]
  simp only [removed, struck_of_not_mounted hm]

theorem run_rename_clash {e : Engine} (h : e.document.get? x.id = some x)
    (hn : ¬(x.declared && x.name == name) = true) (hm : x.mounted = true)
    (hc : e.names.check e.settings.namePolicy name x.id = .error error) :
    (rename x.id name).run e = .failed error e := by
  rw [rename, EngineM.run_bind_done (run_element_some h), if_neg hn, if_pos hm]
  rw [EngineM.run_bind_done (EngineM.run_get e), hc]
  rfl

theorem run_rename_same {e : Engine} (h : e.document.get? x.id = some x)
    (hs : (x.declared && x.name == name) = true) : (rename x.id name).run e = .done () e := by
  rw [rename, EngineM.run_bind_done (run_element_some h), if_pos hs, EngineM.run_pure]

theorem check_unregister (hw : NameIndex.WellFormed index)
    (h : index.check policy name i = .ok ()) (other : String) :
    (index.unregister other i).check policy name i = .ok () := by
  rw [NameIndex.check_eq_ok_iff] at h ⊢
  exact fun hp j hj => h hp j (hw.mem_idsOf_unregister.1 hj).1

theorem run_rename {e : Engine} (hw : e.names.WellFormed) (h : e.document.get? x.id = some x)
    (hn : ¬(x.declared && x.name == name) = true)
    (hc : x.mounted = true → e.names.check e.settings.namePolicy name x.id = .ok ()) :
    (rename x.id name).run e = .done () (e.renamed x name) := by
  rw [rename, EngineM.run_bind_done (run_element_some h), if_neg hn]
  cases hm : x.mounted with
  | false =>
    simp only [renamed, hm]
    rfl
  | true =>
    have hc := hc hm
    rw [if_pos rfl, EngineM.run_bind_done (EngineM.run_get e), hc, EngineM.ofExcept_ok,
      EngineM.run_bind_done (EngineM.run_pure _ e)]
    cases hd : x.declared with
    | false =>
      simp only [renamed, hm, hd]
      exact EngineM.run_bind_done (run_register hc) _
    | true =>
      simp only [renamed, hm, hd]
      exact EngineM.run_bind_done (e := { e with names := e.names.unregister x.name x.id })
        (run_register (check_unregister hw hc x.name)) _

theorem run_setAttribute_none {e : Engine} (h : e.document.get? i = none) :
    (setAttribute i key value).run e = .failed (.unknownElement i) e := by
  rw [setAttribute, EngineM.run_bind_failed (run_element_none h)]

theorem run_setAttribute_eq {e : Engine} (h : e.document.get? x.id = some x) :
    (setAttribute x.id key value).run e =
      ((newName? x key (e.catalog.stored x.kind key value)).elim (pure ()) (rename x.id) >>= fun _ =>
        modify (·.written x.id key (e.catalog.stored x.kind key value))).run e := by
  rw [setAttribute, EngineM.run_bind_done (run_element_some h),
    EngineM.run_bind_done (EngineM.run_get e), newName?]
  dsimp only
  split
  · cases Attribute.text? (e.catalog.stored x.kind key value) with
    | none => rfl
    | some name =>
      cases hs : x.declared && x.name == name with
      | false =>
        simp only [Option.filter, hs]
        rfl
      | true =>
        simp only [Option.filter, hs]
        rw [EngineM.run_bind_done (run_rename_same h hs)]
        rfl
  · rfl

theorem key_of_newName? (h : newName? x key value = some name) : key = "name" := by
  by_contra hk
  rw [newName?, if_neg hk] at h
  cases h

theorem newName?_ne (h : newName? x key value = some name) :
    ¬(x.declared && x.name == name) = true := by
  rw [newName?] at h
  split at h
  · have hs := (Option.filter_eq_some_iff.1 h).2
    rwa [Bool.not_eq_true', ← Bool.not_eq_true] at hs
  · cases h

theorem run_setAttribute_clash {e : Engine} (h : e.document.get? x.id = some x)
    (hn : newName? x key (e.catalog.stored x.kind key value) = some name) (hm : x.mounted = true)
    (hc : e.names.check e.settings.namePolicy name x.id = .error error) :
    (setAttribute x.id key value).run e = .failed error e := by
  rw [run_setAttribute_eq h, hn]
  exact EngineM.run_bind_failed (run_rename_clash h (newName?_ne hn) hm hc) _

theorem run_setAttribute {e : Engine} (hw : e.names.WellFormed) (h : e.document.get? x.id = some x)
    (hn : ∀ name, newName? x key (e.catalog.stored x.kind key value) = some name →
      x.mounted = true → e.names.check e.settings.namePolicy name x.id = .ok ()) :
    (setAttribute x.id key value).run e =
      .done () (e.assigned x key (e.catalog.stored x.kind key value)) := by
  rw [run_setAttribute_eq h, assigned]
  cases hs : newName? x key (e.catalog.stored x.kind key value) with
  | none => rfl
  | some name =>
    exact EngineM.run_bind_done (run_rename hw h (newName?_ne hs) (hn name hs)) _

/-- Writing to a live element fails only where clashes are rejected and it gives a name that is taken. -/
theorem run_setAttribute_live {e : Engine} (hc : Coherent e) (h : e.document.get? x.id = some x)
    (key : String) (value : Json) :
    ((setAttribute x.id key value).run e =
        .done () (e.assigned x key (e.catalog.stored x.kind key value)) ∧
      ∀ name, newName? x key (e.catalog.stored x.kind key value) = some name → x.mounted = true →
        e.names.check e.settings.namePolicy name x.id = .ok ()) ∨
      ∃ name, (setAttribute x.id key value).run e = .failed (.duplicateName name) e ∧
        e.settings.namePolicy = .reject ∧ key = "name" := by
  by_cases hn : ∀ name, newName? x key (e.catalog.stored x.kind key value) = some name →
      x.mounted = true → e.names.check e.settings.namePolicy name x.id = .ok ()
  · exact .inl ⟨run_setAttribute hc.names h hn, hn⟩
  · simp only [not_forall] at hn
    obtain ⟨name, hs, hm, hne⟩ := hn
    cases hk : e.names.check e.settings.namePolicy name x.id with
    | ok _ => exact (hne hk).elim
    | error error =>
      obtain ⟨hp, rfl⟩ := NameIndex.of_check_error hk
      exact .inr ⟨name, run_setAttribute_clash h hs hm hk, hp, key_of_newName? hs⟩

/-- Writing is one step, or it fails and nothing has changed. -/
theorem run_setAttribute_cases {e : Engine} (hc : Coherent e) (i : ElementId) (key : String)
    (value : Json) :
    (∃ e', (setAttribute i key value).run e = .done () e' ∧ Act e e') ∨
      ∃ error, (setAttribute i key value).run e = .failed error e ∧
        (error = .unknownElement i ∨ ∃ name, error = .duplicateName name) := by
  cases h : e.document.get? i with
  | none => exact .inr ⟨_, run_setAttribute_none h, .inl rfl⟩
  | some x =>
    cases Document.id_of_get? h
    rcases run_setAttribute_live hc h key value with ⟨hr, hn⟩ | ⟨name, hr, -⟩
    · exact .inl ⟨_, hr, .assign key value h hn⟩
    · exact .inr ⟨_, hr, .inr ⟨name, rfl⟩⟩

end LiveTree.Engine
