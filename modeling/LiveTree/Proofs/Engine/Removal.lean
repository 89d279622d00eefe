import LiveTree.Proofs.Engine.Mirroring
import LiveTree.Proofs.Engine.Naming

namespace LiveTree.Engine
set_option autoImplicit true

/-- Elements are listed under their own names only, so to strike them is to leave out their ids. -/
theorem Agrees.struck_eq {e : Engine} (ha : Agrees e) (hc : Coherent e) (ids : List ElementId) :
    struck e.names (ids.filterMap e.document.get?) = e.names.lacking ids := by
  apply (wellFormed_struck hc.names _).ext (hc.names.lacking ids)
  intro n j
  rw [mem_idsOf_struck hc.names, hc.names.idsOf_lacking, List.mem_filter, decide_eq_true_eq]
  apply and_congr_right
  intro hj
  constructor
  · intro hs hm
    obtain ⟨x, hx, hn⟩ := (ha n j).1 hj
    exact hs x (List.mem_filterMap.2 ⟨j, hm, hx⟩) hn (Document.id_of_get? hx)
  · rintro hm x hx - rfl
    obtain ⟨k, hk, hx⟩ := List.mem_filterMap.1 hx
    exact hm (Document.id_of_get? hx ▸ hk)

theorem Agrees.removed_eq {e : Engine} (ha : Agrees e) (hc : Coherent e)
    (h : e.document.get? root = some x) :
    e.removed root =
      { e with
        document := e.document.without (e.document.preorder root)
        names := e.names.lacking (e.document.preorder root)
        recorder := e.recorder.map fun r =>
          ⟨r.patches ++ (e.document.preorder root).map Patch.remove⟩ } := by
  have hr (ps : List Patch) : (fun r : Recorder => r.replay ps) = fun r => ⟨r.patches ++ ps⟩ :=
    funext fun r => r.replay_eq ps
  rw [removed, ha.struck_eq hc, map_remove_preorder hc.forest h, tell, hr]

theorem elements_without_preorder {d : Document} (hd : d.Forest) (h : d.get? root = some x) :
    (d.without (d.preorder root)).elements =
      (d.elements.filter (·.id ∉ d.preorder root)).map fun y =>
        if x.parent = some y.id then { y with slots := y.slots.mapValues (·.erase root) } else y := by
  rw [hd.without_elements h]
  apply List.map_congr_left
  intro y hy
  rw [hd.dropChild_eq (hd.get?_of_mem (List.mem_filter.1 hy).1)]

/-- Unmounting removes an element with all that is under it, and the index loses the ids that went. -/
theorem unmount_subtree (h : Passed stack e) (root : ElementId) :
    (∀ x, e.document.get? root = some x → ∃ gone,
      gone = e.document.preorder root ∧ gone.Nodup ∧ (∀ i, i ∈ gone ↔ e.document.Under i root) ∧
      (unmount root).run e = .done ()
        { e with
          document :=
            { e.document with
              elements := (e.document.elements.filter (·.id ∉ gone)).map fun y =>
                if x.parent = some y.id then { y with slots := y.slots.mapValues (·.erase root) }
                else y }
          names := e.names.lacking gone
          recorder := e.recorder.map fun r => ⟨r.patches ++ gone.map Patch.remove⟩ } ∧
      ∀ n, (e.names.lacking gone).idsOf n = (e.names.idsOf n).filter (· ∉ gone) ∧
        ((e.names.lacking gone).contains n = true ↔ (e.names.idsOf n).filter (· ∉ gone) ≠ [])) ∧
    (∀ i x, e.document.get? i = some x →
      e.document.preorder i = i :: x.children.flatMap e.document.preorder) ∧
    (e.document.get? root = none → (unmount root).run e = .failed (.unknownElement root) e) := by
  have hc : Coherent e := invariant_passed.coherent h
  have ha : Agrees e := h.agrees lawful_true
  refine ⟨?_, fun i x hx => hc.forest.preorder_eq hx, run_unmount_none⟩
  intro x hx
  refine ⟨_, rfl, hc.forest.nodup_preorder hx, fun i => hc.forest.mem_preorder hx, ?_, ?_⟩
  · rw [run_unmount hc.forest hx, ha.removed_eq hc hx, ← elements_without_preorder hc.forest hx]
    rfl
  · intro n
    have hids := hc.names.idsOf_lacking (e.document.preorder root) n
    exact ⟨hids, hids ▸ (hc.names.lacking _).contains_iff⟩

def partlyMounted : Engine :=
  let button (name : String) : Tree := (Tree.leaf "Button").withProp "name" (.str name)
  let row : Tree := ((Tree.leaf "Row").withChild "items" (button "save")).withChild "items" (button "load")
  after 0 (fresh {} .standard (fun _ => none) (some {}))
    [ .render (((Tree.leaf "Card").withChild "body" row).withChild "foot" (.leaf "Chip")),
      .mount 2,
      .renderAndMount (button "save") ]

theorem unmount_subtree_partlyMounted :
    ∃ e', (unmount 1).run partlyMounted = .done () e' ∧
      partlyMounted.names.entries = [("save", [2, 5])] ∧ e'.names.entries = [("save", [5])] ∧
      e'.document.elements.map (fun x => (x.id, x.slots)) =
        [(0, [("body", []), ("foot", [4])]), (4, []), (5, [])] ∧
      e'.patches = partlyMounted.patches ++ [.remove 1, .remove 2, .remove 3] := by
  have h : Passed [] partlyMounted := visited_after _ _ _ _ _ _
  have hwalk : partlyMounted.document.preorder 1 = [1, 2, 3] := by decide +kernel
  have hparent : (partlyMounted.document.get? 1).map (·.parent) = some (some 0) := by decide +kernel
  have hrecorder : partlyMounted.recorder.isSome = true := by decide +kernel
  obtain ⟨x, hx, hp⟩ := Option.map_eq_some_iff.1 hparent
  obtain ⟨r, hr⟩ := Option.isSome_iff_exists.1 hrecorder
  obtain ⟨gone, hgone, -, -, hrun, -⟩ := (unmount_subtree h 1).1 x hx
  rw [hwalk] at hgone
  subst hgone
  rw [hp] at hrun
  refine ⟨_, hrun, by decide +kernel, by decide +kernel, by decide +kernel, ?_⟩
  simp only [patches, hr]
  rfl

end LiveTree.Engine
