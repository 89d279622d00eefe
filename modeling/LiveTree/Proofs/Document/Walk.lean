import LiveTree.Proofs.Document.Forest

namespace LiveTree.Document
set_option autoImplicit true

/-- The number of elements that are not older than an id. It falls from parents to children. -/
def above (d : Document) (j : ElementId) : Nat :=
  d.elements.countP (j ≤ ·.id)

theorem above_le_size (d : Document) (j : ElementId) : d.above j ≤ d.size :=
  List.countP_le_length

theorem above_pos {d : Document} (h : d.get? j = some e) : 0 < d.above j :=
  List.countP_pos_iff.2 ⟨e, mem_of_get? h, by simp [id_of_get? h]⟩

theorem above_lt {d : Document} (h : d.get? p = some a) (hlt : p < c) : d.above c < d.above p := by
  have hm := mem_of_get? h
  have he := id_of_get? h
  simp only [above]
  generalize d.elements = elements at hm
  induction elements with
  | nil => cases hm
  | cons b rest ih =>
    have hle : rest.countP (c ≤ ·.id) ≤ rest.countP (p ≤ ·.id) := by
      apply List.countP_mono_left
      intro x _ hx
      simp only [decide_eq_true_eq] at hx ⊢
      exact Nat.le_trans (Nat.le_of_lt hlt) hx
    rcases List.mem_cons.1 hm with rfl | hm
    · rw [List.countP_cons_of_neg (by simpa [he] using hlt), List.countP_cons_of_pos (by simp [he])]
      exact Nat.lt_succ_of_le hle
    · have ih := ih hm
      simp only [List.countP_cons, decide_eq_true_eq]
      split <;> split <;> lia

theorem preorderWithin_mapElements (d : Document) {f : Element → Element}
    (hf : ∀ x, (f x).id = x.id ∧ (f x).slots = x.slots) (n : Nat) (r : ElementId) :
    (d.mapElements f).preorderWithin n r = d.preorderWithin n r := by
  induction n generalizing r with
  | zero => rfl
  | succ n ih =>
    rw [preorderWithin, preorderWithin, get?_mapElements d fun x => (hf x).1]
    cases d.get? r with
    | none => rfl
    | some x =>
      have hc : (f x).children = x.children := by rw [Element.children, (hf x).2, Element.children]
      simp only [Option.map_some, hc, funext ih]

theorem preorder_mapElements (d : Document) {f : Element → Element}
    (hf : ∀ x, (f x).id = x.id ∧ (f x).slots = x.slots) (r : ElementId) :
    (d.mapElements f).preorder r = d.preorder r := by
  have hs : (d.mapElements f).size = d.size := List.length_map f
  rw [preorder, hs, preorderWithin_mapElements d hf, preorder]

def ParentOf (d : Document) (c p : ElementId) : Prop :=
  ∃ b, d.get? c = some b ∧ b.parent = some p

/-- An element is another one or descends from it. -/
def Under (d : Document) (x root : ElementId) : Prop :=
  Relation.ReflTransGen d.ParentOf x root

namespace Forest

/-- A walk that looks at the children only gives the same with any fuel that is enough. -/
theorem walk_stable {α : Type} (hd : Forest d) {f : Nat → ElementId → α} {stop : α}
    (hz : ∀ j, f 0 j = stop) (hn : ∀ n j, d.get? j = none → f (n + 1) j = stop)
    (hs : ∀ n m j e, d.get? j = some e → (∀ c ∈ e.children, f n c = f m c) →
      f (n + 1) j = f (m + 1) j)
    (h : d.above j ≤ n) (h' : d.above j ≤ m) : f n j = f m j := by
  -- both fuels bound `above`, which falls with every generation, so neither runs out first
  induction n generalizing m j with
  | zero =>
    cases hj : d.get? j with
    | none =>
      cases m with
      | zero => rfl
      | succ m => rw [hz, hn m j hj]
    | some e =>
      have := above_pos hj
      omega
  | succ n ih =>
    cases hj : d.get? j with
    | none =>
      cases m with
      | zero => rw [hz, hn n j hj]
      | succ m => rw [hn n j hj, hn m j hj]
    | some e =>
      have hpos := above_pos hj
      obtain ⟨m, rfl⟩ : ∃ k, m = k + 1 := ⟨m - 1, by omega⟩
      apply hs n m j e hj
      intro c hc
      have hlt := above_lt hj (hd.lt_of_mem_children hj hc)
      exact ih (by omega) (by omega)

theorem preorder_eq (hd : Forest d) (h : d.get? j = some e) :
    d.preorder j = j :: e.children.flatMap d.preorder := by
  have hs : d.preorderWithin d.size j = d.preorderWithin (d.size + 1) j := by
    have hle := d.above_le_size j
    refine hd.walk_stable (f := d.preorderWithin) (fun _ => rfl) ?_ ?_ hle (by omega)
    · intro n j hj
      simp only [preorderWithin, hj]
    · intro n m j e hj hc
      simp only [preorderWithin, hj, List.flatMap, List.map_congr_left hc]
  rw [preorder, hs, preorderWithin, h]
  rfl

theorem postorder_eq (hd : Forest d) (h : d.get? j = some e) :
    d.postorder j = e.children.flatMap d.postorder ++ [j] := by
  have hs : d.postorderWithin d.size j = d.postorderWithin (d.size + 1) j := by
    have hle := d.above_le_size j
    refine hd.walk_stable (f := d.postorderWithin) (fun _ => rfl) ?_ ?_ hle (by omega)
    · intro n j hj
      simp only [postorderWithin, hj]
    · intro n m j e hj hc
      simp only [postorderWithin, hj, List.flatMap, List.map_congr_left hc]
  rw [postorder, hs, postorderWithin, h]
  rfl

/-- Induction from the children of an element to the element. -/
theorem induct (hd : Forest d) {P : ElementId → Element → Prop}
    (step : ∀ j e, d.get? j = some e → (∀ c b, c ∈ e.children → d.get? c = some b → P c b) → P j e)
    (h : d.get? j = some e) : P j e := by
  generalize hn : d.nextId - j = n
  induction n using Nat.strongRecOn generalizing j e with
  | ind n ih =>
    apply step j e h
    intro c b hc hb
    have hlt := hd.lt_of_mem_children h hc
    have hj := hd.bounded h
    exact ih (d.nextId - c) (by lia) hb rfl

theorem parentOf_iff (hd : Forest d) (h : d.get? p = some a) : d.ParentOf c p ↔ c ∈ a.children := by
  constructor
  · rintro ⟨b, hb, hp⟩
    obtain ⟨a', ha', hc⟩ := hd.linked hb hp
    cases h.symm.trans ha'
    exact hc
  · exact hd.listed h

theorem self_mem_preorder (hd : Forest d) (h : d.get? j = some e) : j ∈ d.preorder j :=
  hd.preorder_eq h ▸ List.mem_cons_self

theorem preorder_closed (hd : Forest d) (h : d.get? r = some e) (hx : x ∈ d.preorder r)
    (hp : d.ParentOf c x) : c ∈ d.preorder r := by
  refine hd.induct (P := fun r _ => x ∈ d.preorder r → c ∈ d.preorder r) ?_ h hx
  intro j e hj ih hx
  rw [hd.preorder_eq hj] at hx ⊢
  rcases List.mem_cons.1 hx with rfl | hx
  · have hc := (hd.parentOf_iff hj).1 hp
    obtain ⟨b, hb, -⟩ := hp
    exact List.mem_cons_of_mem _ (List.mem_flatMap.2 ⟨c, hc, hd.self_mem_preorder hb⟩)
  · obtain ⟨k, hk, hx⟩ := List.mem_flatMap.1 hx
    obtain ⟨b, hb, -⟩ := hd.listed hj hk
    exact List.mem_cons_of_mem _ (List.mem_flatMap.2 ⟨k, hk, ih k b hk hb hx⟩)

theorem under_of_mem_preorder (hd : Forest d) (h : d.get? r = some e) (hx : x ∈ d.preorder r) :
    d.Under x r := by
  refine hd.induct (P := fun r _ => x ∈ d.preorder r → d.Under x r) ?_ h hx
  intro j e hj ih hx
  rw [hd.preorder_eq hj] at hx
  rcases List.mem_cons.1 hx with rfl | hx
  · exact .refl
  · obtain ⟨k, hk, hx⟩ := List.mem_flatMap.1 hx
    obtain ⟨b, hb, hp⟩ := hd.listed hj hk
    exact (ih k b hk hb hx).tail ⟨b, hb, hp⟩

theorem mem_preorder (hd : Forest d) (h : d.get? r = some e) : x ∈ d.preorder r ↔ d.Under x r := by
  constructor
  · exact hd.under_of_mem_preorder h
  · intro hx
    induction hx using Relation.ReflTransGen.head_induction_on with
    | refl => exact hd.self_mem_preorder h
    | head hp _ ih => exact hd.preorder_closed h ih hp

theorem mem_postorder (hd : Forest d) (h : d.get? r = some e) :
    x ∈ d.postorder r ↔ x ∈ d.preorder r := by
  refine hd.induct (P := fun r _ => x ∈ d.postorder r ↔ x ∈ d.preorder r) ?_ h
  intro j e hj ih
  have hc : x ∈ e.children.flatMap d.postorder ↔ x ∈ e.children.flatMap d.preorder := by
    simp only [List.mem_flatMap]
    refine exists_congr fun k => and_congr_right fun hk => ?_
    obtain ⟨b, hb, -⟩ := hd.listed hj hk
    exact ih k b hk hb
  rw [hd.postorder_eq hj, hd.preorder_eq hj, List.mem_append, List.mem_singleton, List.mem_cons, hc,
    or_comm]

theorem exists_of_under (h : d.get? r = some e) (hx : Under d x r) : ∃ b, d.get? x = some b := by
  rcases Relation.ReflTransGen.cases_head hx with rfl | ⟨p, ⟨b, hb, -⟩, -⟩
  · exact ⟨e, h⟩
  · exact ⟨b, hb⟩

theorem le_of_under (hd : Forest d) (hx : d.Under x r) : r ≤ x := by
  induction hx using Relation.ReflTransGen.head_induction_on with
  | refl => exact Nat.le_refl _
  | head hp _ ih =>
    obtain ⟨b, hb, hp⟩ := hp
    exact Nat.le_of_lt (Nat.lt_of_le_of_lt ih (hd.older hb hp))

theorem parentOf_unique (hb : ParentOf d c p) (hb' : ParentOf d c p') : p = p' := by
  obtain ⟨b, hb, hp⟩ := hb
  obtain ⟨b', hb', hp'⟩ := hb'
  cases hb.symm.trans hb'
  exact Option.some.inj (hp.symm.trans hp')

theorem not_under_sibling (hd : Forest d) (hc : d.ParentOf c p) (hc' : d.ParentOf c' p)
    (h : d.Under c c') : c = c' := by
  rcases Relation.ReflTransGen.cases_head h with he | ⟨q, hq, hu⟩
  · exact he
  · cases parentOf_unique hc hq
    obtain ⟨b, hb, hp⟩ := hc'
    exact (Nat.lt_irrefl _ (Nat.lt_of_lt_of_le (hd.older hb hp) (hd.le_of_under hu))).elim

theorem eq_of_under_siblings (hd : Forest d) (hc : d.ParentOf c p) (hc' : d.ParentOf c' p)
    (h : d.Under x c) (h' : d.Under x c') : c = c' := by
  have hu : Relator.RightUnique d.ParentOf := fun _ _ _ => parentOf_unique
  rcases Relation.ReflTransGen.total_of_right_unique hu h h' with hu | hu
  · exact hd.not_under_sibling hc hc' hu
  · exact (hd.not_under_sibling hc' hc hu).symm

theorem nodup_preorder (hd : Forest d) (h : d.get? r = some e) : (d.preorder r).Nodup := by
  refine hd.induct (P := fun r _ => (d.preorder r).Nodup) ?_ h
  intro j e hj ih
  rw [hd.preorder_eq hj, List.nodup_cons, List.nodup_flatMap]
  refine ⟨?_, ?_, ?_⟩
  · intro hm
    obtain ⟨c, hc, hm⟩ := List.mem_flatMap.1 hm
    obtain ⟨b, hb, hp⟩ := hd.listed hj hc
    have hle := hd.le_of_under (hd.under_of_mem_preorder hb hm)
    exact Nat.lt_irrefl _ (Nat.lt_of_lt_of_le (hd.older hb hp) hle)
  · intro c hc
    obtain ⟨b, hb, -⟩ := hd.listed hj hc
    exact ih c b hc hb
  · refine (hd.once hj).imp_of_mem ?_
    intro c c' hc hc' hne x hx hx'
    obtain ⟨b, hb, hp⟩ := hd.listed hj hc
    obtain ⟨b', hb', hp'⟩ := hd.listed hj hc'
    exact hne (hd.eq_of_under_siblings ⟨b, hb, hp⟩ ⟨b', hb', hp'⟩
      (hd.under_of_mem_preorder hb hx) (hd.under_of_mem_preorder hb' hx'))

end Forest

end LiveTree.Document
