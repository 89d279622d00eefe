import LiveTree.Proofs.Engine.Run
import LiveTree.Proofs.Patch.Mirror

namespace LiveTree
set_option autoImplicit true

namespace Engine

theorem node_loaded (e : Engine) (x : Element) : (e.loaded x).node = x.node := by
  rw [loaded]
  split <;> rfl

theorem node_refresh (catalog : Catalog) (x : Element) : (refresh catalog x).node = x.node := by
  rw [refresh]
  split <;> rfl

theorem nodes_loadAll (e : Engine) (root : ElementId) : (e.loadAll root).nodes = e.document.nodes := by
  rw [loadAll_eq]
  refine e.document.nodes_mapElements fun x => ?_
  split
  · exact e.node_loaded x
  · rfl

theorem nodup_keys_storedProps (profile : Profile) (props : OrderedMap Json) :
    (storedProps profile props).keys.Nodup :=
  OrderedMap.nodup_keys_insertAll (m := []) .nil _

theorem map_remove_filterMap {d : Document} {ids : List ElementId}
    (h : ∀ i ∈ ids, ∃ x, d.get? i = some x) :
    (ids.filterMap d.get?).map (fun (x : Element) => Patch.remove x.id) = ids.map Patch.remove := by
  induction ids with
  | nil => rfl
  | cons i rest ih =>
    obtain ⟨⟨x, hx⟩, hrest⟩ := List.forall_mem_cons.1 h
    rw [List.filterMap_cons_some hx, List.map_cons, List.map_cons, ih hrest,
      Document.id_of_get? hx]

theorem map_remove_preorder {d : Document} (hd : d.Forest) (h : d.get? root = some x) :
    ((d.preorder root).filterMap d.get?).map (fun (x : Element) => Patch.remove x.id) =
      (d.preorder root).map Patch.remove := by
  apply map_remove_filterMap
  intro i hi
  exact Document.Forest.exists_of_under h (hd.under_of_mem_preorder h hi)

/-- Told some patches, a mirror of the first state becomes one of the second. -/
def Followed (e e' : Engine) : Prop :=
  ∃ ps, e'.recorder = (e.tell ps).recorder ∧
    ∀ m : Mirror, m.Shows e.document → ∃ m', m.replay ps = some m' ∧ m'.Shows e'.document

/-- What the host does not see it need not be told. -/
theorem Followed.silent {e e' : Engine} (hr : e'.recorder = e.recorder)
    (hn : e'.document.nodes = e.document.nodes) (hi : e'.document.nextId = e.document.nextId) :
    Followed e e' :=
  ⟨[], hr.trans (congrArg recorder e.tell_nil).symm,
    fun m h => ⟨m, rfl, h.nodes.trans hn.symm, h.used.trans (hi ▸ rfl)⟩⟩

theorem Followed.trans (h : Followed e₁ e₂) (h' : Followed e₂ e₃) : Followed e₁ e₃ := by
  obtain ⟨ps, hr, hm⟩ := h
  obtain ⟨qs, hr', hm'⟩ := h'
  refine ⟨ps ++ qs, ?_, fun m hs => ?_⟩
  · rw [hr', tell_told hr]
  · obtain ⟨m₁, hp, hs⟩ := hm m hs
    obtain ⟨m₂, hq, hs⟩ := hm' m₁ hs
    exact ⟨m₂, by rw [Mirror.replay_append, hp, Option.bind_some, hq], hs⟩

theorem followed_written {e : Engine} (hx : e.document.get? i = some x) (key : String) (value : Json) :
    Followed e (e.written i key value) := by
  refine ⟨[.setAttribute i key value], rfl, fun m hs => ?_⟩
  rw [Mirror.replay_singleton]
  exact hs.setAttribute hx fun _ => rfl

theorem followed_assigned {e : Engine} (hx : e.document.get? x.id = some x) (key : String)
    (value : Json) : Followed e (e.assigned x key value) := by
  rw [assigned]
  cases newName? x key value with
  | none => exact followed_written hx key value
  | some name =>
    have hx' : (e.renamed x name).document.get? x.id = some (x.rename name) :=
      Document.get?_modify_self (f := (·.rename name)) (fun _ => rfl) hx
    have hn : Followed e (e.renamed x name) :=
      .silent rfl (e.document.nodes_modify_self x.id fun _ => rfl) rfl
    exact hn.trans (followed_written hx' key value)

theorem Build.followed (hs : Build e e') (hc : Coherent e) : Followed e e' := by
  cases hs with
  | create props placeName _ =>
    refine ⟨creation e.document.nextId _ props, rfl, fun m hs => ?_⟩
    exact hs.create (x := newElement e.document.nextId _ props placeName) hc.forest rfl rfl rfl
      (nodup_keys_storedProps _ props)
  | adopt slot hp hc _ _ _ =>
    refine ⟨_, rfl, fun m hs => ?_⟩
    rw [Mirror.replay_singleton]
    exact hs.appendToSlot hp hc slot

theorem followed_removed {e : Engine} (hc : Coherent e) (hx : e.document.get? root = some x) :
    Followed e (e.removed root) := by
  refine ⟨_, rfl, fun m hs => ?_⟩
  rw [map_remove_preorder hc.forest hx]
  exact hs.remove hc.forest hx

theorem Act.followed (hs : Act e e') (hc : Coherent e) : Followed e e' := by
  cases hs with
  | mount hr hn =>
    refine .silent rfl (e.nodes_loadAll _) ?_
    simp only [mounted, loadAll_eq, Document.mapElements]
  | remove hr => exact followed_removed hc hr
  | assign key value hx hn => exact followed_assigned hx key _
  | touch _ => exact .silent rfl (e.document.nodes_modify_self _ fun _ => rfl) rfl
  | flush => exact .silent rfl (e.document.nodes_mapElements (node_refresh e.catalog)) rfl
  | call method hx =>
    refine ⟨_, rfl, fun m hs => ⟨m, ?_, hs⟩⟩
    rw [Mirror.replay_singleton]
    exact hs.invokeMethod hx method
  | log line => exact .silent rfl rfl rfl

theorem Edit.followed (hs : Edit e e') (hc : Coherent e) : Followed e e' := by
  cases hs with
  | build hb => exact hb.followed hc
  | act ha => exact ha.followed hc
  | depth n => exact .silent rfl rfl rfl
  | define kind method script => exact .silent rfl rfl rfl

theorem Edits.followed (h : Edits e e') (hc : Coherent e) : Followed e e' := by
  induction h with
  | refl => exact .silent rfl rfl rfl
  | tail hs h ih => exact ih.trans (h.followed (Edits.coherent hs hc))

section Replay

variable {settings : Settings} {catalog : Catalog} {operations : Operations}

/-- What a new engine has recorded can be replayed, whatever the recorder held before. -/
theorem Run.followed (h : Run (fresh settings catalog operations (some r)) e) :
    ∃ ps m, e.recorder = some (r.replay ps) ∧ Mirror.replay {} ps = some m ∧ m.Shows e.document := by
  have hc := coherent_fresh settings catalog operations (some r)
  obtain ⟨ps, hr, hm⟩ := Edits.followed (Run.edits h hc) hc
  obtain ⟨m, hp, hs⟩ := hm {} ⟨rfl, rfl⟩
  exact ⟨ps, m, hr, hp, hs⟩

/-- All that was recorded since an engine was new replays to the nodes of the live elements. -/
theorem replay_patches (h : Run (fresh settings catalog operations (some {})) e) :
    ∃ m, Mirror.replay {} e.patches = some m ∧ m.nodes = e.document.elements.map Element.node := by
  obtain ⟨ps, m, hr, hm, hs⟩ := Run.followed h
  have hp : e.patches = ps := by
    rw [patches, hr, Option.map_some, Option.getD_some, Recorder.patches_replay]
    rfl
  exact ⟨m, hp ▸ hm, hs.nodes⟩

end Replay

def clickedCard : Engine :=
  let save : Tree :=
    ((((Tree.leaf "Button").withProp "name" (.str "save")).withProp "events"
      (.obj [("click", .str "save.hide")])).withProp "listeners"
      (.obj [("hide", .obj [("hidden", .bool true)])]))
  after 4 (fresh {} .standard (fun _ => none) (some {}))
    [ .renderAndMount (((Tree.leaf "Card").withChild "body" save).withChild "body" (.leaf "Button")),
      .invoke 1 "click",
      .setAttribute 7 "label" .null,
      .unmount 2 ]

theorem replay_patches_clickedCard :
    clickedCard.patches.map Patch.label =
        ["create", "create", "set_attribute", "set_attribute", "set_attribute", "append_to_slot",
          "create", "append_to_slot", "invoke_method", "set_attribute", "remove"] ∧
      ∃ m, Mirror.replay {} clickedCard.patches = some m ∧
        m.nodes = clickedCard.document.elements.map Element.node := by
  have hr : Run (fresh {} .standard (fun _ => none) (some {})) clickedCard := run_after _ _ _
  exact ⟨by decide +kernel, replay_patches hr⟩

end Engine

end LiveTree
