import LiveTree.Proofs.Engine.Loading
import LiveTree.Proofs.Engine.UniqueNames

namespace LiveTree.Engine
set_option autoImplicit true

theorem loadAll_preorder {e : Engine} (hd : e.document.Forest) (hr : e.document.get? root = some r) :
    e.loadAll root =
      e.document.mapElements (fun x => if x.id ∈ e.document.preorder root then e.loaded x else x) := by
  simp only [loadAll_eq, hd.mem_postorder hr]

theorem exists_mounted {e : Engine} (root : ElementId) (hx : e.document.get? j = some x) :
    ∃ y, (e.mounted root).document.get? j = some y := by
  simp only [mounted]
  rw [get?_loadAll, hx]
  exact ⟨_, rfl⟩

theorem document_mounted_mounted {e : Engine} (hd : e.document.Forest)
    (h₁ : e.document.get? r₁ = some x₁) (h₂ : e.document.get? r₂ = some x₂) :
    ((e.mounted r₁).mounted r₂).document = e.document.mapElements fun x =>
      if x.id ∈ e.document.preorder r₁ ∨ x.id ∈ e.document.preorder r₂ then e.loaded x else x := by
  obtain ⟨y₂, h₂'⟩ := exists_mounted r₁ h₂
  have hload : (e.mounted r₁).loadAll r₂ = (e.loadAll r₁).mapElements fun x =>
      if x.id ∈ e.document.preorder r₂ then e.loaded x else x := by
    rw [loadAll_preorder (forest_loadAll hd h₁) h₂']
    simp only [mounted, preorder_loadAll]
    rfl
  refine hload.trans ?_
  simp only [loadAll_preorder hd h₁, Document.mapElements, List.map_map]
  congr 2
  funext x
  by_cases hx₁ : x.id ∈ e.document.preorder r₁
  · simp [hx₁, loaded_id, loaded_loaded]
  · simp [hx₁]

theorem mounted_comm {e : Engine} (hc : Coherent e) (ha : Agrees e)
    (h₁ : e.document.get? r₁ = some x₁) (h₂ : e.document.get? r₂ = some x₂) :
    (e.mounted r₁).mounted r₂ = (e.mounted r₂).mounted r₁ := by
  obtain ⟨y₂, h₂'⟩ := exists_mounted r₁ h₂
  obtain ⟨y₁, h₁'⟩ := exists_mounted r₂ h₁
  have hc₁ := hc.mounted h₁
  have hc₂ := hc.mounted h₂
  have ha₁ := agrees_mounted ha hc h₁
  have ha₂ := agrees_mounted ha hc h₂
  have hd : ((e.mounted r₁).mounted r₂).document = ((e.mounted r₂).mounted r₁).document := by
    rw [document_mounted_mounted hc.forest h₁ h₂, document_mounted_mounted hc.forest h₂ h₁]
    simp only [or_comm]
  have hn : ((e.mounted r₁).mounted r₂).names = ((e.mounted r₂).mounted r₁).names :=
    (agrees_mounted ha₂ hc₂ h₁').names_eq (hc₂.mounted h₁') (agrees_mounted ha₁ hc₁ h₂')
      (hc₁.mounted h₂') hd
  calc
    (e.mounted r₁).mounted r₂ = { e with
        document := ((e.mounted r₁).mounted r₂).document
        names := ((e.mounted r₁).mounted r₂).names } := rfl
    _ = (e.mounted r₂).mounted r₁ := by
      rw [hd, hn]
      rfl

theorem mayEnroll_of_single {index : NameIndex} {elements : List Element} (hw : index.WellFormed)
    (hs : (enrolled index elements).Single) (hn : (elements.map (·.id)).Nodup) (policy : NamePolicy) :
    MayEnroll policy index elements := by
  have hin (x : Element) (hx : x ∈ elements) : x.id ∈ (enrolled index elements).idsOf x.name :=
    (mem_idsOf_enrolled hw).2 (.inr ⟨x, hx, rfl, rfl⟩)
  intro _
  constructor
  · intro x hx j hj
    exact hs x.name j x.id ((mem_idsOf_enrolled hw).2 (.inl hj)) (hin x hx)
  · refine (List.pairwise_map.1 hn).imp_of_mem fun hx hy hne he => hne ?_
    exact hs _ _ _ (hin _ hx) (he ▸ hin _ hy)

theorem nodup_ids_pending {d : Document} (hd : d.Forest) (hr : d.get? root = some r) :
    ((pending d root).map (·.id)).Nodup := by
  apply List.pairwise_map.2
  apply List.Pairwise.filter
  refine List.Pairwise.filterMap _ ?_ (hd.nodup_preorder hr)
  intro i j hne x hx y hy he
  rw [Document.id_of_get? hx, Document.id_of_get? hy] at he
  exact hne he

/-- A live element can be mounted if no name stands for two ids afterwards, or if clashes are allowed. -/
theorem run_mount_of_single {e : Engine} (hc : Coherent e) (hr : e.document.get? root = some r)
    (hs : e.settings.namePolicy = .reject → (e.mounted root).names.Single) :
    (mount root).run e = .done () (e.mounted root) := by
  have hnodup : (((pending e.document root).filter (·.declared)).map (·.id)).Nodup :=
    (nodup_ids_pending hc.forest hr).sublist (List.filter_sublist.map _)
  apply run_mount hc.names hr
  apply checkNames_of_mayEnroll
  · intro hp
    exact mayEnroll_of_single hc.names (hs hp) hnodup _ hp
  · intro _ x _
    exact List.not_mem_nil

theorem exclusive_mounted {e : Engine} (hx : Exclusive e) (hc : Coherent e)
    (hr : (mount root).run e = .done () e') : Exclusive e' := by
  rcases run_mount_cases hc root with ⟨e'', hr', hact⟩ | ⟨error, hr', -⟩
  · cases hr'.symm.trans hr
    exact hact.exclusive hc hx
  · cases hr'.symm.trans hr

/-- Mounts may be exchanged: if one order is possible, so is the other, and they come to the same. -/
theorem mount_order (h : Passed stack e) :
    (∀ r₁ r₂ e₁ e₂, (mount r₁).run e = .done () e₁ → (mount r₂).run e₁ = .done () e₂ →
      ∃ e₁', (mount r₂).run e = .done () e₁' ∧ (mount r₁).run e₁' = .done () e₂) ∧
    (e.settings.namePolicy = .firstMatch → ∀ r, e.document.contains r = true →
      ∃ e', (mount r).run e = .done () e') := by
  have hc := (h.level lawful_true).coherent
  constructor
  · intro r₁ r₂ e₁ e₂ hr₁ hr₂
    have hx := exclusive_mounted (h.exclusive lawful_true) hc hr₁
    obtain ⟨⟨x₁, h₁⟩, rfl⟩ := run_mount_done hc hr₁
    have hc₁ := hc.mounted h₁
    have hx₂ := exclusive_mounted hx hc₁ hr₂
    obtain ⟨⟨y₂, h₂'⟩, rfl⟩ := run_mount_done hc₁ hr₂
    simp only [mounted] at h₂'
    rw [get?_loadAll] at h₂'
    obtain ⟨x₂, h₂, -⟩ := Option.map_eq_some_iff.1 h₂'
    rw [mounted_comm hc (h.agrees lawful_true) h₁ h₂] at hx₂ ⊢
    have hc₂ := hc.mounted h₂
    obtain ⟨y₁, h₁'⟩ := exists_mounted r₂ h₁
    refine ⟨e.mounted r₂, run_mount_of_single hc h₂ fun hp => ?_, run_mount_of_single hc₂ h₁' hx₂⟩
    exact (hx₂ hp).of_subset fun n i hi => (mem_idsOf_enrolled hc₂.names).2 (.inl hi)
  · intro hp r hr
    obtain ⟨x, hx⟩ := Document.contains_iff.1 hr
    refine ⟨_, run_mount_of_single hc hx fun hreject => ?_⟩
    rw [hp] at hreject
    cases hreject

def nestedNames (policy : NamePolicy) (taken : String) : Engine :=
  let named (kind name : String) : Tree := (Tree.leaf kind).withProp "name" (.str name)
  after 0 (fresh { namePolicy := policy } .standard (fun owner => some (.str owner)) none)
    [ .renderAndMount (named "Button" taken),
      .render ((named "Card" "card").withChild "body"
        ((named "Row" "row").withChild "items" (named "Button" "save"))) ]

theorem mount_order_nestedNames :
    (∃ e₁ e₁' e₂, (mount 2).run (nestedNames .reject "load") = .done () e₁ ∧
      (mount 1).run e₁ = .done () e₂ ∧ (mount 1).run (nestedNames .reject "load") = .done () e₁' ∧
      (mount 2).run e₁' = .done () e₂) ∧
    ∃ e', (mount 1).run (nestedNames .firstMatch "save") = .done () e' := by
  have h (policy : NamePolicy) (taken : String) : Passed [] (nestedNames policy taken) :=
    visited_after _ _ _ _ _ _
  have hc := ((h .reject "load").level lawful_true).coherent
  have hfine : ((mount 2).run (nestedNames .reject "load")).engine?.map (fun e₁ =>
      (((mount 2).run (nestedNames .reject "load")).error?, ((mount 1).run e₁).error?)) =
      some (none, none) := by decide +kernel
  have hpolicy : (nestedNames .firstMatch "save").settings.namePolicy = .firstMatch := by decide +kernel
  have hlive : (nestedNames .firstMatch "save").document.contains 1 = true := by decide +kernel
  refine ⟨?_, (mount_order (h .firstMatch "save")).2 hpolicy 1 hlive⟩
  rcases run_mount_cases hc 2 with ⟨e₁, hr₁, hact⟩ | ⟨error, hr₁, -⟩
  · rw [hr₁] at hfine
    rcases run_mount_cases (hact.coherent hc) 1 with ⟨e₂, hr₂, -⟩ | ⟨error, hr₂, -⟩
    · obtain ⟨e₁', hr₁', hr₂'⟩ := (mount_order (h .reject "load")).1 2 1 e₁ e₂ hr₁ hr₂
      exact ⟨e₁, e₁', e₂, hr₁, hr₂, hr₁', hr₂'⟩
    · simp [Outcome.engine?, Outcome.error?, hr₂] at hfine
  · rw [hr₁] at hfine
    simp [Outcome.engine?, Outcome.error?] at hfine

end LiveTree.Engine
