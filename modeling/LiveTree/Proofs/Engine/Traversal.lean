import Mathlib.Data.List.Perm.Basic
import LiveTree.Proofs.Document.Order
import LiveTree.Proofs.Engine.LiveForest
import LiveTree.Proofs.Engine.Visit

namespace LiveTree
set_option autoImplicit true

namespace Document

/-- A stack is worked off from its top, with the ids that are listed before and after. -/
inductive WorksOff (d : Document) : List ElementId → List ElementId → List ElementId → Prop
  | done : WorksOff d [] listed listed
  | live (h : d.get? j = some e)
    (hr : WorksOff d (e.children.reverse.foldl (fun stack child => child :: stack) rest)
      (listed ++ [j]) out) : WorksOff d (j :: rest) listed out
  | gone (h : d.get? j = none) (hr : WorksOff d rest listed out) : WorksOff d (j :: rest) listed out

/-- Ids are visited in turn, with the ids that are listed before and after. -/
inductive Collects (d : Document) : List ElementId → List ElementId → List ElementId → Prop
  | done : Collects d [] listed listed
  | live (h : d.get? j = some e) (hc : Collects d e.children listed below)
    (hr : Collects d rest (below ++ [j]) out) : Collects d (j :: rest) listed out
  | gone (h : d.get? j = none) (hr : Collects d rest listed out) : Collects d (j :: rest) listed out

theorem foldl_push (ids stack : List ElementId) :
    ids.reverse.foldl (fun stack child => child :: stack) stack = ids ++ stack := by
  rw [List.foldl_flip_cons_eq_append', List.reverse_reverse]

theorem preorder_none {d : Document} (h : d.get? j = none) : d.preorder j = [] :=
  preorderWithin_none h d.size

theorem postorder_none {d : Document} (h : d.get? j = none) : d.postorder j = [] := by
  rw [postorder]
  cases d.size with
  | zero => rfl
  | succ n => rw [postorderWithin, h]

section Visits

variable {visits : List ElementId → List ElementId → List ElementId → Prop}
  {walk : ElementId → List ElementId} {ids listed : List ElementId}

theorem visits_append
    (hids : ∀ c ∈ ids, ∀ rest listed out, visits rest (listed ++ walk c) out →
      visits (c :: rest) listed out)
    (h : visits rest (listed ++ ids.flatMap walk) out) : visits (ids ++ rest) listed out := by
  induction ids generalizing listed with
  | nil => rwa [List.flatMap_nil, List.append_nil] at h
  | cons c ids ih =>
    obtain ⟨hc, hids⟩ := List.forall_mem_cons.1 hids
    rw [List.flatMap_cons, ← List.append_assoc] at h
    exact hc _ _ _ (ih hids h)

theorem visits_all (hdone : ∀ listed, visits [] listed listed)
    (hids : ∀ c ∈ ids, ∀ rest listed out, visits rest (listed ++ walk c) out →
      visits (c :: rest) listed out) : visits ids listed (listed ++ ids.flatMap walk) := by
  have h := visits_append hids (hdone (listed ++ ids.flatMap walk))
  rwa [List.append_nil] at h

end Visits

namespace Forest

theorem eq_of_worksOff {listed : List ElementId} (hd : Forest d) (h : WorksOff d stack listed out) :
    out = listed ++ stack.flatMap d.preorder := by
  induction h with
  | done => rw [List.flatMap_nil, List.append_nil]
  | live h _ ih =>
    rw [ih, foldl_push, List.flatMap_append, List.flatMap_cons, hd.preorder_eq h, List.append_assoc,
      List.singleton_append, List.cons_append]
  | gone h _ ih => rw [ih, List.flatMap_cons, preorder_none h, List.nil_append]

theorem eq_of_collects {listed : List ElementId} (hd : Forest d) (h : Collects d ids listed out) :
    out = listed ++ ids.flatMap d.postorder := by
  induction h with
  | done => rw [List.flatMap_nil, List.append_nil]
  | live h _ _ ihc ihr =>
    rw [ihr, ihc, List.flatMap_cons, hd.postorder_eq h, ← List.append_assoc, ← List.append_assoc]
  | gone h _ ih => rw [ih, List.flatMap_cons, postorder_none h, List.nil_append]

/-- What holds of ids that are gone, and of an element if it holds of its children, holds of every id. -/
theorem induct_ids (hd : Forest d) {P : ElementId → Prop} (gone : ∀ j, d.get? j = none → P j)
    (live : ∀ j e, d.get? j = some e → (∀ c ∈ e.children, P c) → P j) (j : ElementId) : P j := by
  cases hj : d.get? j with
  | none => exact gone j hj
  | some e =>
    refine hd.induct (P := fun j _ => P j) ?_ hj
    intro j e hj ih
    apply live j e hj
    intro c hc
    obtain ⟨b, hb, -⟩ := hd.listed hj hc
    exact ih c b hc hb

theorem worksOff_cons (hd : Forest d) (j : ElementId) : ∀ rest listed out,
    WorksOff d rest (listed ++ d.preorder j) out → WorksOff d (j :: rest) listed out := by
  induction j using hd.induct_ids with
  | gone j hj =>
    intro rest listed out h
    rw [preorder_none hj, List.append_nil] at h
    exact .gone hj h
  | live j e hj ih =>
    intro rest listed out h
    rw [hd.preorder_eq hj, List.append_cons] at h
    apply WorksOff.live hj
    rw [foldl_push]
    exact visits_append ih h

theorem collects_cons (hd : Forest d) (j : ElementId) : ∀ rest listed out,
    Collects d rest (listed ++ d.postorder j) out → Collects d (j :: rest) listed out := by
  induction j using hd.induct_ids with
  | gone j hj =>
    intro rest listed out h
    rw [postorder_none hj, List.append_nil] at h
    exact .gone hj h
  | live j e hj ih =>
    intro rest listed out h
    rw [hd.postorder_eq hj, ← List.append_assoc] at h
    exact .live hj (visits_all (fun _ => .done) ih) h

theorem worksOff_iff {listed : List ElementId} (hd : Forest d) :
    WorksOff d stack listed out ↔ out = listed ++ stack.flatMap d.preorder := by
  constructor
  · exact hd.eq_of_worksOff
  · rintro rfl
    exact visits_all (fun _ => .done) fun c _ => hd.worksOff_cons c

theorem collects_iff {listed : List ElementId} (hd : Forest d) :
    Collects d ids listed out ↔ out = listed ++ ids.flatMap d.postorder := by
  constructor
  · exact hd.eq_of_collects
  · rintro rfl
    exact visits_all (fun _ => .done) fun c _ => hd.collects_cons c

theorem postorder_perm (hd : Forest d) (r : ElementId) : (d.postorder r).Perm (d.preorder r) := by
  induction r using hd.induct_ids with
  | gone j hj => rw [postorder_none hj, preorder_none hj]
  | live j e hj ih =>
    have hc : (e.children.flatMap d.postorder).Perm (e.children.flatMap d.preorder) :=
      List.Perm.flatMap_left _ ih
    rw [hd.postorder_eq hj, hd.preorder_eq hj]
    exact (List.perm_append_singleton j _).trans (hc.cons j)

section Walks

variable {walk : ElementId → List ElementId}

/-- The walk of a subtree is a stretch of the walk of the whole tree. -/
theorem infix_walk (hd : Forest d)
    (hw : ∀ {p a}, d.get? p = some a → a.children.flatMap walk <:+: walk p) (h : d.Under x r) :
    walk x <:+: walk r := by
  induction h using Relation.ReflTransGen.head_induction_on with
  | refl => exact List.infix_rfl
  | head hp _ ih =>
    obtain ⟨b, hb, hparent⟩ := hp
    obtain ⟨a, ha, hc⟩ := hd.linked hb hparent
    have hstretch := List.infix_flatMap_of_mem hc walk
    exact (hstretch.trans (hw ha)).trans ih

theorem sublist_walk (hd : Forest d)
    (hw : ∀ {p a}, d.get? p = some a → a.children.flatMap walk <:+: walk p)
    (hp : d.get? p = some a) (hc : [c, c'].Sublist a.children) (h : d.Under p r) :
    (walk c ++ walk c').Sublist (walk r) := by
  have hpair : (walk c ++ walk c').Sublist (a.children.flatMap walk) := by
    simpa using hc.flatMap walk
  exact hpair.trans ((hw hp).trans (hd.infix_walk hw h)).sublist

end Walks

theorem children_infix_preorder (hd : Forest d) (h : d.get? p = some a) :
    a.children.flatMap d.preorder <:+: d.preorder p := by
  rw [hd.preorder_eq h]
  exact (List.suffix_cons p _).isInfix

theorem children_infix_postorder (hd : Forest d) (h : d.get? p = some a) :
    a.children.flatMap d.postorder <:+: d.postorder p := by
  rw [hd.postorder_eq h]
  exact (List.prefix_append _ _).isInfix

theorem exists_child (hd : Forest d) (h : Relation.TransGen d.ParentOf y x) :
    ∃ a, d.get? x = some a ∧ ∃ c ∈ a.children, d.Under y c := by
  obtain ⟨c, hu, hp⟩ := Relation.TransGen.tail'_iff.1 h
  obtain ⟨b, hb, hparent⟩ := hp
  obtain ⟨a, ha, hc⟩ := hd.linked hb hparent
  exact ⟨a, ha, c, hc, hu⟩

theorem parent_first (hd : Forest d) (hx : d.Under x r) (hy : Relation.TransGen d.ParentOf y x) :
    [x, y].Sublist (d.preorder r) := by
  obtain ⟨a, ha, c, hc, hu⟩ := hd.exists_child hy
  obtain ⟨b, hb, -⟩ := hd.listed ha hc
  have hmem : y ∈ a.children.flatMap d.preorder :=
    List.mem_flatMap.2 ⟨c, hc, (hd.mem_preorder hb).2 hu⟩
  have hpair : [x, y].Sublist (d.preorder x) := by
    rw [hd.preorder_eq ha]
    exact (List.singleton_sublist.2 hmem).cons_cons x
  exact hpair.trans (hd.infix_walk hd.children_infix_preorder hx).sublist

theorem parent_last (hd : Forest d) (hx : d.Under x r) (hy : Relation.TransGen d.ParentOf y x) :
    [y, x].Sublist (d.postorder r) := by
  obtain ⟨a, ha, c, hc, hu⟩ := hd.exists_child hy
  obtain ⟨b, hb, -⟩ := hd.listed ha hc
  have hmem : y ∈ a.children.flatMap d.postorder :=
    List.mem_flatMap.2 ⟨c, hc, (hd.mem_postorder hb).2 ((hd.mem_preorder hb).2 hu)⟩
  have hpair : [y, x].Sublist (d.postorder x) := by
    rw [hd.postorder_eq ha]
    exact (List.singleton_sublist.2 hmem).append_right [x]
  exact hpair.trans (hd.infix_walk hd.children_infix_postorder hx).sublist

end Forest

end Document

namespace Engine

/-- Both walks end, list each element once, and take every subtree in one stretch, child by child. -/
theorem traversals_agree (h : Passed stack e) (hr : e.document.get? r = some root) :
    (∀ i out, e.document.WorksOff [i] [] out ↔ out = e.document.preorder i) ∧
    (∀ i out, e.document.Collects [i] [] out ↔ out = e.document.postorder i) ∧
    (∀ x, x ∈ e.document.preorder r ↔ e.document.Under x r) ∧
    (e.document.preorder r).Nodup ∧
    (e.document.postorder r).Perm (e.document.preorder r) ∧
    (∀ x y, e.document.Under x r → Relation.TransGen e.document.ParentOf y x →
      [x, y].Sublist (e.document.preorder r) ∧ [y, x].Sublist (e.document.postorder r)) ∧
    (∀ x a, e.document.Under x r → e.document.get? x = some a →
      x :: a.children.flatMap e.document.preorder <:+: e.document.preorder r ∧
      a.children.flatMap e.document.postorder ++ [x] <:+: e.document.postorder r) ∧
    (∀ p a c c', e.document.Under p r → e.document.get? p = some a → [c, c'].Sublist a.children →
      (e.document.preorder c ++ e.document.preorder c').Sublist (e.document.preorder r) ∧
      (e.document.postorder c ++ e.document.postorder c').Sublist (e.document.postorder r)) := by
  have hd : e.document.Forest := (invariant_passed.coherent h).forest
  refine ⟨?_, ?_, ?_, ?_, ?_, ?_, ?_, ?_⟩
  · intro i out
    rw [hd.worksOff_iff, List.nil_append, List.flatMap_singleton]
  · intro i out
    rw [hd.collects_iff, List.nil_append, List.flatMap_singleton]
  · exact fun x => hd.mem_preorder hr
  · exact hd.nodup_preorder hr
  · exact hd.postorder_perm r
  · exact fun x y hx hy => ⟨hd.parent_first hx hy, hd.parent_last hx hy⟩
  · intro x a hx ha
    rw [← hd.preorder_eq ha, ← hd.postorder_eq ha]
    exact ⟨hd.infix_walk hd.children_infix_preorder hx, hd.infix_walk hd.children_infix_postorder hx⟩
  · intro p a c c' hp ha hc
    exact ⟨hd.sublist_walk hd.children_infix_preorder ha hc hp,
      hd.sublist_walk hd.children_infix_postorder ha hc hp⟩

def trimmedRow : Engine :=
  let card : Tree := ((Tree.leaf "Card").withChild "icon" (Tree.leaf "Text")).withChild "body"
    (Tree.leaf "Button")
  let chip : Tree := Tree.leaf "Chip"
  after 0 (fresh {} .standard (fun _ => none) none)
    [ .render ((((Tree.leaf "Row").withChild "head" chip).withChild "body" card).withChild "head" chip),
      .unmount 1 ]

theorem traversals_agree_trimmedRow :
    trimmedRow.document.WorksOff [0] [] [0, 2, 3, 4, 5] ∧
      trimmedRow.document.Collects [0] [] [2, 4, 5, 3, 0] ∧
      (trimmedRow.document.postorder 0).Perm (trimmedRow.document.preorder 0) ∧
      trimmedRow.document.Under 5 0 ∧ ¬trimmedRow.document.Under 1 0 ∧
      (trimmedRow.document.preorder 2 ++ trimmedRow.document.preorder 3).Sublist [0, 2, 3, 4, 5] := by
  have h : Passed [] trimmedRow := visited_after _ _ _ _ _ _
  have hpre : trimmedRow.document.preorder 0 = [0, 2, 3, 4, 5] := by decide +kernel
  have hpost : trimmedRow.document.postorder 0 = [2, 4, 5, 3, 0] := by decide +kernel
  have hrow : (trimmedRow.document.get? 0).map (·.children) = some [2, 3] := by decide +kernel
  obtain ⟨row, hr, hc⟩ := Option.map_eq_some_iff.1 hrow
  obtain ⟨hloop, hcalls, hmem, -, hperm, -, -, hsiblings⟩ := traversals_agree h hr
  have hpair : [2, 3].Sublist row.children := by rw [hc]
  refine ⟨?_, ?_, hperm, ?_, ?_, ?_⟩
  · exact (hloop 0 _).2 hpre.symm
  · exact (hcalls 0 _).2 hpost.symm
  · rw [← hmem 5, hpre]
    decide
  · rw [← hmem 1, hpre]
    decide
  · rw [← hpre]
    exact (hsiblings 0 row 2 3 .refl hr hpair).1

end Engine

end LiveTree
