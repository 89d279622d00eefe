import LiveTree.Proofs.Engine.Mirroring

namespace LiveTree
set_option autoImplicit true

namespace Document

theorem Forest.nodup_children (hd : Forest d) : (d.elements.flatMap (·.children)).Nodup := by
  rw [List.nodup_flatMap]
  refine ⟨fun a ha => hd.once (hd.get?_of_mem ha), ?_⟩
  refine (List.pairwise_map.1 hd.ascending).imp_of_mem ?_
  intro a b ha hb hlt c hc hc'
  obtain ⟨x, hx, hp⟩ := hd.listed (hd.get?_of_mem ha) hc
  obtain ⟨y, hy, hq⟩ := hd.listed (hd.get?_of_mem hb) hc'
  cases hx.symm.trans hy
  exact Nat.ne_of_lt hlt (Option.some.inj (hp.symm.trans hq))

theorem Forest.count_children (hd : Forest d) (h : d.get? p = some a) (hc : c ∈ a.children) :
    (d.elements.flatMap (·.children)).count c = 1 :=
  List.count_eq_one_of_mem hd.nodup_children (List.mem_flatMap.2 ⟨a, mem_of_get? h, hc⟩)

theorem Forest.lt_of_transGen (hd : Forest d) (h : Relation.TransGen d.ParentOf c p) : p < c := by
  induction h with
  | single h =>
    obtain ⟨b, hb, hp⟩ := h
    exact hd.older hb hp
  | tail _ h ih =>
    obtain ⟨b, hb, hp⟩ := h
    exact Nat.lt_trans (hd.older hb hp) ih

end Document

namespace Engine

theorem shows_nodes (d : Document) :
    Mirror.Shows { nodes := d.nodes, used := List.range d.nextId } d :=
  ⟨rfl, rfl⟩

theorem Followed.later (h : Followed e e') :
    e.document.nextId ≤ e'.document.nextId ∧
      ∀ i, e'.document.contains i = true → i < e.document.nextId → e.document.contains i = true := by
  obtain ⟨ps, -, hm⟩ := h
  have hs := shows_nodes e.document
  obtain ⟨m', hp, hs'⟩ := hm _ hs
  obtain ⟨hu, hl⟩ := Mirror.replay_ids hp
  rw [hs'.used] at hu
  refine ⟨?_, fun i hi hlt => ?_⟩
  · have hlen := congrArg List.length hu
    simp only [List.length_append, List.length_range] at hlen
    exact Nat.le.intro hlen.symm
  · rcases hl i (hs'.isLive i ▸ hi) with hi | hi
    · exact hs.isLive i ▸ hi
    · exact (hi (List.mem_range.2 hlt)).elim

theorem Edit.issued (hs : Edit e e') (hc : Coherent e) (h : i < e.document.nextId) :
    i < e'.document.nextId :=
  Nat.lt_of_lt_of_le h (hs.followed hc).later.1

section Runs

variable {settings : Settings} {catalog : Catalog} {operations : Operations}
  {recorder : Option Recorder}

/-- The ids that a run has handed out, in order: it counts from zero. -/
theorem Run.createdIds (h : Run (fresh settings catalog operations (some r)) e) :
    ∃ ps, e.recorder = some (r.replay ps) ∧
      ps.filterMap Patch.createdId? = List.range e.document.nextId := by
  obtain ⟨ps, m, hr, hm, hs⟩ := Run.followed h
  exact ⟨ps, hr, (Mirror.replay_ids hm).1.symm.trans hs.used⟩

/-- The live document is a forest, ids are handed out once, and mounted subtrees are mounted whole. -/
theorem live_forest (h : Run (fresh settings catalog operations recorder) e) :
    (∀ p a c, e.document.get? p = some a →
      (c ∈ a.children ↔ ∃ b, e.document.get? c = some b ∧ b.parent = some p)) ∧
    (∀ p a c, e.document.get? p = some a → c ∈ a.children →
      (e.document.elements.flatMap (·.children)).count c = 1) ∧
    (∀ p a c, e.document.get? p = some a → c ∈ a.children → e.document.contains c = true) ∧
    (∀ c b p, e.document.get? c = some b → b.parent = some p →
      e.document.contains p = true ∧ p < c) ∧
    (∀ c, ¬Relation.TransGen e.document.ParentOf c c) ∧
    (∀ i, e.document.contains i = true → i < e.document.nextId) ∧
    (∀ e', Run e e' → e.document.nextId ≤ e'.document.nextId ∧
      ∀ i, e'.document.contains i = true → i < e.document.nextId → e.document.contains i = true) ∧
    (∀ r, recorder = some r → ∃ ps, e.recorder = some (r.replay ps) ∧
      ps.filterMap Patch.createdId? = List.range e.document.nextId) ∧
    (∀ p a c b, e.document.get? p = some a → a.mounted = true → c ∈ a.children →
      e.document.get? c = some b → b.mounted = true) := by
  have hc : Coherent e := Reachable.coherent ⟨_, _, _, _, h⟩
  have hd := hc.forest
  refine ⟨?_, ?_, ?_, ?_, ?_, ?_, ?_, ?_, ?_⟩
  · exact fun p a c hp => (hd.parentOf_iff hp).symm
  · exact fun p a c hp hm => hd.count_children hp hm
  · intro p a c hp hm
    obtain ⟨b, hb, -⟩ := hd.listed hp hm
    exact Document.contains_iff.2 ⟨b, hb⟩
  · intro c b p hb hp
    obtain ⟨a, ha, -⟩ := hd.linked hb hp
    exact ⟨Document.contains_iff.2 ⟨a, ha⟩, hd.older hb hp⟩
  · exact fun c hcc => Nat.lt_irrefl c (hd.lt_of_transGen hcc)
  · intro i hi
    obtain ⟨x, hx⟩ := Document.contains_iff.1 hi
    exact hd.bounded hx
  · exact fun e' he => (Edits.followed (Run.edits he hc) hc).later
  · rintro r rfl
    exact Run.createdIds h
  · exact fun p a c b hp ha hm hb => hd.settled hp ha hm hb

end Runs

def replacedButton : Engine :=
  let button (name : String) : Tree := (Tree.leaf "Button").withProp "name" (.str name)
  after 0 (fresh { namePolicy := .reject } .standard (fun _ => none) (some {}))
    [ .renderAndMount (((Tree.leaf "Card").withChild "body" (button "save")).withChild "body"
        (button "load")),
      .renderAndMount (button "save"),
      .unmount 1,
      .renderAndMount (button "save") ]

theorem live_forest_replacedButton :
    replacedButton.document.elements.map (·.id) = [0, 2, 4] ∧
      replacedButton.document.nextId = 5 ∧
      (replacedButton.document.elements.flatMap (·.children)).count 2 = 1 ∧
      ∃ ps, replacedButton.recorder = some (Recorder.replay {} ps) ∧
        ps.filterMap Patch.createdId? = List.range 5 := by
  have hr : Run (fresh { namePolicy := .reject } .standard (fun _ => none) (some {}))
    replacedButton := run_after _ _ _
  have hids : replacedButton.document.elements.map (·.id) = [0, 2, 4] := by decide +kernel
  have hnext : replacedButton.document.nextId = 5 := by decide +kernel
  have hlist : ((replacedButton.document.get? 0).map (·.children)) = some [2] := by decide +kernel
  obtain ⟨a, ha, hc⟩ := Option.map_eq_some_iff.1 hlist
  obtain ⟨-, hcount, -, -, -, -, -, hlog, -⟩ := live_forest hr
  refine ⟨hids, hnext, hcount 0 a 2 ha (hc ▸ List.mem_singleton_self 2), ?_⟩
  rw [← hnext]
  exact hlog {} rfl

end Engine

end LiveTree
