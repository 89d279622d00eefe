import Mathlib.Data.List.Flatten
import LiveTree.Proofs.Document.Walk

namespace LiveTree.Document
set_option autoImplicit true

/-- Every walk counts up. -/
def Ordered (d : Document) : Prop :=
  ∀ r, (d.preorder r).Pairwise (· < ·)

theorem preorderWithin_none {d : Document} (h : d.get? r = none) (n : Nat) :
    d.preorderWithin n r = [] := by
  cases n with
  | zero => rfl
  | succ n => rw [preorderWithin, h]

def Thinned (d d' : Document) : Prop :=
  ∀ j x', d'.get? j = some x' → ∃ x, d.get? j = some x ∧ x'.children.Sublist x.children

theorem Thinned.preorderWithin (h : Thinned d d') (hn : n ≤ m) (r : ElementId) :
    (d'.preorderWithin n r).Sublist (d.preorderWithin m r) := by
  -- the thinner document may be smaller, so its walk goes less deep
  induction n generalizing m r with
  | zero => exact List.nil_sublist _
  | succ n ih =>
    obtain ⟨m, rfl⟩ : ∃ k, m = k + 1 := Nat.exists_eq_add_one.2 (by omega)
    have hn' : n ≤ m := by omega
    cases hx : d'.get? r with
    | none =>
      rw [preorderWithin_none hx]
      exact List.nil_sublist _
    | some x' =>
      obtain ⟨x, hx', hs⟩ := h r x' hx
      rw [Document.preorderWithin, Document.preorderWithin, hx, hx']
      apply List.Sublist.cons_cons
      have hleft := hs.flatMap (d'.preorderWithin n)
      have hright := List.Sublist.flatMap_right x.children fun c _ => ih hn' c
      exact hleft.trans hright

theorem Ordered.thinned (h : Ordered d) (ht : Thinned d d') (hs : d'.size ≤ d.size) : Ordered d' := by
  intro r
  exact (h r).sublist (ht.preorderWithin hs r)

theorem ordered_empty : Ordered {} := by
  intro r
  exact .nil

theorem Ordered.mapElements {f : Element → Element} (h : Ordered d)
    (hf : ∀ x, (f x).id = x.id ∧ (f x).slots = x.slots) : Ordered (d.mapElements f) := by
  intro r
  rw [preorder_mapElements d hf]
  exact h r

theorem Ordered.modify {f : Element → Element} (h : Ordered d) (i : ElementId)
    (hf : ∀ x, (f x).id = x.id ∧ (f x).slots = x.slots) : Ordered (d.modify i f) := by
  rw [modify_eq_mapElements]
  apply h.mapElements
  intro x
  split
  · exact hf x
  · exact ⟨rfl, rfl⟩

theorem Ordered.without (h : Ordered d) (ids : List ElementId) : Ordered (d.without ids) := by
  apply h.thinned
  · intro j x' hx'
    rw [get?_without] at hx'
    split at hx'
    · cases hx'
    · obtain ⟨x, hx, rfl⟩ := Option.map_eq_some_iff.1 hx'
      refine ⟨x, hx, ?_⟩
      rw [Element.children_dropChildren]
      exact List.filter_sublist
  · rw [size, size, Document.without, List.length_map]
    exact List.length_filter_le _ _

namespace Forest

/-- A walk from an element is part of every walk that meets it. -/
theorem preorder_sublist (hd : Forest d) (h : d.get? r = some x) (hi : i ∈ d.preorder r) :
    (d.preorder i).Sublist (d.preorder r) := by
  refine hd.induct (P := fun r _ => i ∈ d.preorder r → (d.preorder i).Sublist (d.preorder r)) ?_ h hi
  intro r x hx ih hi
  rw [hd.preorder_eq hx] at hi ⊢
  rcases List.mem_cons.1 hi with rfl | hi
  · rw [hd.preorder_eq hx]
  · obtain ⟨c, hc, hi⟩ := List.mem_flatMap.1 hi
    obtain ⟨b, hb, -⟩ := hd.listed hx hc
    have hpart := (List.singleton_sublist.2 hc).flatMap d.preorder
    rw [List.flatMap_singleton] at hpart
    exact ((ih c b hc hb hi).trans hpart).cons r

theorem preorder_grown (hd : Forest d) (hd' : Forest d')
    (hold : ∀ j x, d.get? j = some x → d'.get? j = some x) (h : d.get? r = some x) :
    d'.preorder r = d.preorder r := by
  refine hd.induct (P := fun r _ => d'.preorder r = d.preorder r) ?_ h
  intro r x hx ih
  rw [hd.preorder_eq hx, hd'.preorder_eq (hold r x hx)]
  have hc : ∀ c ∈ x.children, d'.preorder c = d.preorder c := by
    intro c hc
    obtain ⟨b, hb, -⟩ := hd.listed hx hc
    exact ih c b hc hb
  rw [List.flatMap, List.map_congr_left hc, ← List.flatMap]

/-- Order stays where what is new is one tree and a walk of it counts up. -/
theorem ordered_grown (hd : Forest d) (hd' : Forest d') (h : Ordered d)
    (hold : ∀ j x, d.get? j = some x → d'.get? j = some x) (hroot : d'.get? root = some x)
    (hnew : ∀ j y, d'.get? j = some y → d.get? j = none → j ∈ d'.preorder root)
    (hup : (d'.preorder root).Pairwise (· < ·)) : Ordered d' := by
  intro r
  cases hr : d.get? r with
  | some y =>
    rw [hd.preorder_grown hd' hold hr]
    exact h r
  | none =>
    cases hr' : d'.get? r with
    | none =>
      rw [preorder, preorderWithin_none hr']
      exact .nil
    | some y => exact hup.sublist (hd'.preorder_sublist hroot (hnew r y hr' hr))

end Forest

end LiveTree.Document
