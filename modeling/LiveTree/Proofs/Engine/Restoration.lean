import LiveTree.Proofs.Engine.Meaning
import LiveTree.Proofs.Engine.Removal

namespace LiveTree
set_option autoImplicit true

theorem Document.mapElements_append {d d' : Document} {f : Element → Element}
    (h : d'.elements = d.elements ++ added) (hf : ∀ x ∈ d.elements, f x = x) :
    (d'.mapElements f).elements = d.elements ++ added.map f := by
  rw [mapElements, h, List.map_append, List.map_congr_left hf, List.map_id']

theorem Document.Forest.without_added {d d' : Document} (hd : d.Forest)
    (h : d'.elements = d.elements ++ added) (ha : added.map (·.id) = ids)
    (hids : ∀ i ∈ ids, d.nextId ≤ i) : (d'.without ids).elements = d.elements := by
  have hold {i x} (hx : d.get? i = some x) : i ∉ ids := fun hm =>
    Nat.lt_irrefl _ (Nat.lt_of_lt_of_le (hd.bounded hx) (hids i hm))
  have hkept : d.elements.filter (·.id ∉ ids) = d.elements := by
    apply List.filter_eq_self.2
    intro x hx
    exact decide_eq_true (hold (hd.get?_of_mem hx))
  have hgone : added.filter (·.id ∉ ids) = [] := by
    apply List.filter_eq_nil_iff.2
    intro x hx
    have hm : x.id ∈ ids := ha ▸ List.mem_map_of_mem hx
    simpa using hm
  rw [Document.without, h, List.filter_append, hkept, hgone, List.append_nil]
  -- no element lists a child that is younger than the whole document
  refine (List.map_congr_left fun x hx => ?_).trans (List.map_id _)
  apply Element.dropChildren_of_not_mem
  intro c hc
  obtain ⟨b, hb, -⟩ := hd.listed (hd.get?_of_mem hx) hc
  exact hold hb

namespace Engine

/-- What rendering tells: each new id is created once, in order, and nothing is removed. -/
structure Draws (e e' : Engine) (ps : List Patch) : Prop where
  told : e'.recorder = (e.tell ps).recorder
  created : List.range e.document.nextId ++ ps.filterMap Patch.createdId? =
    List.range e'.document.nextId
  kept : ∀ i, .remove i ∉ ps

theorem Draws.refl (e : Engine) : Draws e e [] where
  told := by rw [tell_nil]
  created := List.append_nil _
  kept _ hm := List.not_mem_nil hm

theorem Draws.trans (h : Draws e₁ e₂ ps) (h' : Draws e₂ e₃ qs) : Draws e₁ e₃ (ps ++ qs) where
  told := h'.told.trans (tell_told h.told qs)
  created := by rw [List.filterMap_append, ← List.append_assoc, h.created, h'.created]
  kept i hm := (List.mem_append.1 hm).elim (h.kept i) (h'.kept i)

theorem createdIds_creation (i : ElementId) (profile : Profile) (props : OrderedMap Json) :
    (creation i profile props).filterMap Patch.createdId? = [i] := by
  have hnone : (fun entry : String × Json =>
      Patch.createdId? (.setAttribute i entry.1 entry.2)) = fun _ => none := rfl
  have hfirst : Patch.createdId? (.create i profile.kind profile.tag) = some i := rfl
  rw [creation, List.filterMap_cons_some hfirst, List.filterMap_map, Function.comp_def, hnone,
    List.filterMap_none]

theorem Build.draws (h : Build e e') : ∃ ps, Draws e e' ps := by
  cases h with
  | create props placeName hp =>
    refine ⟨_, rfl, ?_, ?_⟩
    · rw [createdIds_creation]
      exact List.range_succ.symm
    · intro i hm
      rw [creation, List.mem_cons, List.mem_map] at hm
      rcases hm with hm | ⟨entry, -, hm⟩
      · cases hm
      · cases hm
  | adopt slot hp hc hr hlt hm =>
    refine ⟨_, rfl, List.append_nil _, ?_⟩
    intro i hi
    cases List.mem_singleton.1 hi

theorem Builds.draws (h : Builds e e') : ∃ ps, Draws e e' ps := by
  induction h with
  | refl => exact ⟨[], .refl _⟩
  | tail _ h ih =>
    obtain ⟨ps, hps⟩ := ih
    obtain ⟨qs, hqs⟩ := h.draws
    exact ⟨ps ++ qs, hps.trans hqs⟩

/-- An engine has grown by a tree: its elements come last, and the index may list them. -/
structure Grown (e e' : Engine) (ids : List ElementId) (ps : List Patch) : Prop where
  frame : ∃ d index, e' = { e with document := d, names := index, recorder := (e.tell ps).recorder }
  elements : ∃ added, e'.document.elements = e.document.elements ++ added ∧ added.map (·.id) = ids
  nextId : e'.document.nextId = e.document.nextId + ids.length
  younger : ∀ i ∈ ids, e.document.nextId ≤ i
  root : ∃ x, e'.document.get? e.document.nextId = some x
  walk : e'.document.preorder e.document.nextId = ids
  names : e'.names.lacking ids = e.names

theorem Agrees.lacking_younger {e : Engine} (ha : Agrees e) (hc : Coherent e)
    (hids : ∀ i ∈ ids, e.document.nextId ≤ i) : e.names.lacking ids = e.names := by
  apply (hc.names.lacking ids).ext hc.names
  intro n j
  rw [hc.names.idsOf_lacking, List.mem_filter, decide_eq_true_eq]
  apply and_iff_left_of_imp
  intro hj hm
  obtain ⟨x, hx, -⟩ := (ha n j).1 hj
  exact Nat.lt_irrefl _ (Nat.lt_of_lt_of_le (hc.forest.bounded hx) (hids j hm))

theorem grown_render {e e' : Engine} (hc : Coherent e) (ha : Agrees e) (hb : Builds e e')
    (hk : checkKinds e.catalog tree = .ok ()) (hu : tree.Distinct)
    (hd : e'.document =
      { elements := e.document.elements ++ elementsOf e.catalog none placeName e.document.nextId tree
        nextId := e.document.nextId + tree.size })
    (hr : e'.document.get? e.document.nextId = some root) (ht : e'.recorder = (e.tell ps).recorder) :
    Grown e e' (List.range' e.document.nextId tree.size) ps := by
  have helements := congrArg Document.elements hd
  obtain ⟨-, -, -, hwalk⟩ := walk_rendered (hb.coherent hc).forest hk hu helements
  have hyounger : ∀ i ∈ List.range' e.document.nextId tree.size, e.document.nextId ≤ i :=
    fun i hi => (List.mem_range'_1.1 hi).1
  obtain ⟨d, r, rfl⟩ := hb.frame
  constructor
  · exact ⟨d, e.names, by rw [← ht]⟩
  · exact ⟨_, helements, ids_elementsOf tree hk⟩
  · rw [List.length_range']
    exact congrArg Document.nextId hd
  · exact hyounger
  · exact ⟨root, hr⟩
  · exact hwalk
  · exact ha.lacking_younger hc hyounger

theorem Grown.mounted (h : Grown e e' ids ps) (hc : Coherent e) (hc' : Coherent e') :
    Grown e (e'.mounted e.document.nextId) ids ps := by
  obtain ⟨root, hr⟩ := h.root
  have hmem (i : ElementId) : i ∈ e'.document.postorder e.document.nextId ↔ i ∈ ids := by
    rw [hc'.forest.mem_postorder hr, h.walk]
  constructor
  · obtain ⟨d, index, rfl⟩ := h.frame
    exact ⟨_, _, rfl⟩
  · obtain ⟨added, helements, hids⟩ := h.elements
    have hold : ∀ x ∈ e.document.elements,
        (if x.id ∈ e'.document.postorder e.document.nextId then e'.loaded x else x) = x := by
      intro x hx
      have hlt := hc.forest.bounded (hc.forest.get?_of_mem hx)
      exact if_neg fun hm => Nat.not_lt.2 (h.younger _ ((hmem _).1 hm)) hlt
    refine ⟨_, e'.loadAll_eq _ ▸ Document.mapElements_append helements hold, ?_⟩
    simp only [List.map_map, Function.comp_def, e'.id_ite_loaded, hids]
  · simp only [Engine.mounted, loadAll_eq, Document.mapElements, h.nextId]
  · exact h.younger
  · simp only [Engine.mounted]
    rw [get?_loadAll, hr]
    exact ⟨_, rfl⟩
  · exact (e'.preorder_loadAll _ _).trans h.walk
  · rw [← h.names]
    apply ((wellFormed_enrolled hc'.names _).lacking ids).ext (hc'.names.lacking ids)
    intro n j
    rw [(wellFormed_enrolled hc'.names _).idsOf_lacking, hc'.names.idsOf_lacking, List.mem_filter,
      List.mem_filter, decide_eq_true_eq, mem_idsOf_enrolled hc'.names]
    apply and_congr_left
    intro hj
    apply or_iff_left
    rw [exists_pending hc'.forest hr]
    rintro ⟨x, -, hx, -⟩
    exact hj ((hmem j).1 hx)

/-- The engine after ids were handed out and the host was told, as if nothing else had happened. -/
def advanced (e : Engine) (count : Nat) (ps : List Patch) : Engine :=
  { e with
    document := { e.document with nextId := e.document.nextId + count }
    recorder := e.recorder.map fun r => ⟨r.patches ++ ps⟩ }

theorem Grown.removed (h : Grown e e' ids ps) (hc : Coherent e) (hc' : Coherent e')
    (ha' : Agrees e') :
    e'.removed e.document.nextId = e.advanced ids.length (ps ++ ids.map Patch.remove) := by
  obtain ⟨root, hr⟩ := h.root
  obtain ⟨added, helements, hids⟩ := h.elements
  have hd : e'.document.without ids = ⟨e.document.elements, e.document.nextId + ids.length⟩ := by
    rw [← hc.forest.without_added helements hids h.younger, ← h.nextId]
    rfl
  have ht (r : Recorder) : (r.replay ps).patches ++ ids.map Patch.remove =
      r.patches ++ (ps ++ ids.map Patch.remove) := by
    rw [Recorder.patches_replay, List.append_assoc]
  rw [ha'.removed_eq hc' hr, h.walk, hd, h.names]
  obtain ⟨d, index, rfl⟩ := h.frame
  simp only [advanced, tell, Option.map_map, Function.comp_def, ht]

theorem Grown.run_unmount (h : Grown e e' ids ps) (hc : Coherent e) (hc' : Coherent e')
    (ha' : Agrees e') :
    (unmount e.document.nextId).run e' =
      .done () (e.advanced ids.length (ps ++ ids.map Patch.remove)) := by
  obtain ⟨root, hr⟩ := h.root
  rw [Engine.run_unmount hc'.forest hr, h.removed hc hc' ha']

/-- Removal undoes rendering, mounted or not, and the host is told of every new id twice. -/
theorem removal_undoes_rendering (h : Passed stack e)
    (hk : ∀ node ∈ tree.nodes, e.catalog.knows node.component = true) (hu : tree.Distinct) :
    ∃ ids drawn restored, ids = List.range' e.document.nextId tree.size ∧
      drawn.filterMap Patch.createdId? = ids ∧ (∀ i, .remove i ∉ drawn) ∧
      restored = e.advanced tree.size (drawn ++ ids.map Patch.remove) ∧
      (∃ e', (render tree).run e = .done e.document.nextId e' ∧
        e'.document.preorder e.document.nextId = ids ∧
        (unmount e.document.nextId).run e' = .done () restored) ∧
      ((∃ e', (renderAndMount tree).run e = .done e.document.nextId e' ∧
          e'.document.preorder e.document.nextId = ids ∧
          (unmount e.document.nextId).run e' = .done () restored) ∨
        ∃ name, (renderAndMount tree).run e = .failed (.duplicateName name) restored ∧
          e.settings.namePolicy = .reject) := by
  have hc : Coherent e := invariant_passed.coherent h
  have hcheck := checkKinds_of_nodes tree fun node hm => Catalog.named_of_knows (hk node hm)
  obtain ⟨placeName, e', root, hr, hb, hd, hget, hmount⟩ := run_renderAndMount hc hcheck
  have h' : Passed stack e' := invariant_passed.render trivial h hr
  have hc' : Coherent e' := invariant_passed.coherent h'
  obtain ⟨drawn, hdraws⟩ := hb.draws
  have hcreated : drawn.filterMap Patch.createdId? = List.range' e.document.nextId tree.size := by
    have hrange := hdraws.created
    rw [hd, List.range_eq_range', List.range_eq_range', ← List.range'_append_1, Nat.zero_add] at hrange
    exact List.append_cancel_left hrange
  have hgrown := grown_render hc (h.agrees lawful_true) hb hcheck hu hd hget hdraws.told
  have hsize : (List.range' e.document.nextId tree.size).length = tree.size := List.length_range'
  refine ⟨_, drawn, _, rfl, hcreated, hdraws.kept, rfl, ⟨e', hr, hgrown.walk, ?_⟩, ?_⟩
  · rw [hgrown.run_unmount hc hc' (h'.agrees lawful_true), hsize]
  · rcases hmount with ⟨hn, hrun⟩ | ⟨error, hn, hrun⟩
    · have hm : Passed stack (e'.mounted e.document.nextId) := invariant_passed.act h' (.mount hget hn)
      have hgrown' := hgrown.mounted hc hc'
      refine .inl ⟨_, hrun, hgrown'.walk, ?_⟩
      rw [hgrown'.run_unmount hc (invariant_passed.coherent hm) (hm.agrees lawful_true), hsize]
    · obtain ⟨hp, name, rfl⟩ := checkNames_error hn
      refine .inr ⟨name, ?_, ?_⟩
      · rw [hrun, hgrown.removed hc hc' (h'.agrees lawful_true), hsize]
      · obtain ⟨d, r, rfl⟩ := hb.frame
        exact hp

def takenName : Engine :=
  after 0 (fresh { namePolicy := .reject } .standard (fun _ => none) (some {}))
    [.renderAndMount ((Tree.leaf "Button").withProp "name" (.str "save"))]

def buttonCard (first second : String) : Tree :=
  let button (name : String) : Tree := (Tree.leaf "Button").withProp "name" (.str name)
  ((Tree.leaf "Card").withChild "body" ((Tree.leaf "Row").withChild "items" (button first))).withChild
    "body" (button second)

theorem removal_undoes_rendering_takenName :
    (∃ drawn, (renderAndMount (buttonCard "load" "save")).run takenName =
        .failed (.duplicateName "save") (takenName.advanced 4
          (drawn ++ [.remove 1, .remove 2, .remove 3, .remove 4])) ∧
      drawn.filterMap Patch.createdId? = [1, 2, 3, 4]) ∧
    ∃ e' drawn, (renderAndMount (buttonCard "load" "print")).run takenName = .done 1 e' ∧
      (unmount 1).run e' = .done () (takenName.advanced 4
          (drawn ++ [.remove 1, .remove 2, .remove 3, .remove 4])) ∧
      drawn.filterMap Patch.createdId? = [1, 2, 3, 4] := by
  have h : Passed [] takenName := visited_after _ _ _ _ _ _
  have hnext : takenName.document.nextId = 1 := by decide +kernel
  have hclash : ((renderAndMount (buttonCard "load" "save")).run takenName).error? =
      some (.duplicateName "save") := by decide +kernel
  have hfree : ((renderAndMount (buttonCard "load" "print")).run takenName).error? = none := by
    decide +kernel
  constructor
  · have hknown : ∀ node ∈ (buttonCard "load" "save").nodes,
        takenName.catalog.knows node.component = true := by decide +kernel
    have hdistinct : (buttonCard "load" "save").Distinct := by decide +kernel
    obtain ⟨ids, drawn, restored, rfl, hdrawn, -, rfl, -, ⟨e', hrun, -⟩ | ⟨name, hrun, -⟩⟩ :=
      removal_undoes_rendering h hknown hdistinct
    · rw [hrun] at hclash
      cases hclash
    · rw [hrun] at hclash
      cases hclash
      rw [hnext] at hrun hdrawn
      exact ⟨drawn, hrun, hdrawn⟩
  · have hknown : ∀ node ∈ (buttonCard "load" "print").nodes,
        takenName.catalog.knows node.component = true := by decide +kernel
    have hdistinct : (buttonCard "load" "print").Distinct := by decide +kernel
    obtain ⟨ids, drawn, restored, rfl, hdrawn, -, rfl, -, ⟨e', hrun, -, hgone⟩ | ⟨name, hrun, -⟩⟩ :=
      removal_undoes_rendering h hknown hdistinct
    · rw [hnext] at hrun hgone hdrawn
      exact ⟨e', drawn, hrun, hgone, hdrawn⟩
    · rw [hrun] at hfree
      cases hfree

end Engine

end LiveTree
