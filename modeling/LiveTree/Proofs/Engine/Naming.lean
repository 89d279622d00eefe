import Mathlib.Data.List.Sort
import LiveTree.Proofs.Engine.Visit

namespace LiveTree
set_option autoImplicit true

/-- A mounted element holds the name it declares. -/
def Element.holds (x : Element) (name : String) : Bool :=
  x.mounted && x.declared && x.name == name

def Document.idsNamed (d : Document) (name : String) : List ElementId :=
  (d.elements.filter (·.holds name)).map (·.id)

namespace Engine

/-- Under each name stand the elements that hold it. -/
def Agrees (e : Engine) : Prop :=
  ∀ n j, j ∈ e.names.idsOf n ↔ ∃ x, e.document.get? j = some x ∧ x.holds n = true

theorem Agrees.find?_eq {e : Engine} (h : Agrees e) (n : String) :
    e.find? n = (e.names.idsOf n).head? := by
  rw [find?, NameIndex.find?]
  cases hi : (e.names.idsOf n).head? with
  | none => rfl
  | some i =>
    obtain ⟨x, hx, -⟩ := (h n i).1 (List.mem_of_head? hi)
    rw [Option.filter_some, if_pos (Document.contains_iff.2 ⟨x, hx⟩)]

/-- The index of names follows from the document. -/
theorem Agrees.names_eq {e e' : Engine} (h : Agrees e) (hc : Coherent e) (h' : Agrees e')
    (hc' : Coherent e') (hd : e'.document = e.document) : e'.names = e.names := by
  apply hc'.names.ext hc.names
  intro n j
  rw [h' n j, h n j, hd]

theorem Agrees.of_map {e e' : Engine} (h : Agrees e) (hn : e'.names = e.names)
    {f : ElementId → Element → Element}
    (hd : ∀ j, e'.document.get? j = (e.document.get? j).map (f j))
    (hf : ∀ j x n, (f j x).holds n = x.holds n) : Agrees e' := by
  intro n j
  rw [hn, h n j, hd]
  cases e.document.get? j with
  | none => simp
  | some x => simp [hf]

theorem Agrees.mapElements {e e' : Engine} (h : Agrees e) (hn : e'.names = e.names)
    {f : Element → Element} (hd : e'.document = e.document.mapElements f)
    (hf : ∀ x, (f x).id = x.id ∧ ∀ n, (f x).holds n = x.holds n) : Agrees e' :=
  h.of_map hn (fun j => hd ▸ e.document.get?_mapElements (fun x => (hf x).1) j)
    fun _ x n => (hf x).2 n

theorem Agrees.modify {e e' : Engine} (h : Agrees e) (hn : e'.names = e.names)
    {f : Element → Element} (hd : e'.document = e.document.modify i f)
    (hf : ∀ x, (f x).id = x.id ∧ ∀ n, (f x).holds n = x.holds n) : Agrees e' := by
  refine h.mapElements hn (hd.trans (e.document.modify_eq_mapElements i f)) fun x => ?_
  split
  · exact hf x
  · exact ⟨rfl, fun _ => rfl⟩

theorem holds_attachedAt (p : ElementId) (slot : String) (c j : ElementId) (x : Element)
    (n : String) : (Document.attachedAt p slot c j x).holds n = x.holds n := by
  rw [Document.attachedAt]
  split
  · rfl
  · split <;> rfl

theorem agrees_created (h : Agrees e) (profile : Profile)
    (props : OrderedMap Json) (placeName : String) : Agrees (e.created profile props placeName) := by
  intro n j
  refine (h n j).trans ⟨?_, ?_⟩
  · rintro ⟨x, hx, hn⟩
    exact ⟨x, Document.get?_push_of_some hx _, hn⟩
  · rintro ⟨x, hx, hn⟩
    rcases Document.get?_push_eq_some hx with hx | ⟨-, rfl⟩
    · exact ⟨x, hx, hn⟩
    · cases hn

theorem mem_idsOf_enrolled (h : NameIndex.WellFormed index) :
    j ∈ (enrolled index elements).idsOf n ↔
      j ∈ index.idsOf n ∨ ∃ x ∈ elements, x.name = n ∧ x.id = j := by
  induction elements generalizing index with
  | nil => simp [enrolled]
  | cons x rest ih =>
    rw [enrolled, List.foldl_cons]
    refine (ih (h.insert x.name x.id)).trans ?_
    rw [h.mem_idsOf_insert, List.exists_mem_cons_iff, or_assoc, or_left_comm, eq_comm (a := n),
      eq_comm (a := j)]

theorem mem_idsOf_struck (h : NameIndex.WellFormed index) :
    j ∈ (struck index elements).idsOf n ↔
      j ∈ index.idsOf n ∧ ∀ x ∈ elements, x.holds n = true → x.id ≠ j := by
  induction elements generalizing index with
  | nil => simp [struck]
  | cons x rest ih =>
    rw [struck, List.foldl_cons, List.forall_mem_cons, ← and_assoc]
    cases hx : x.mounted && x.declared with
    | false =>
      refine (ih h).trans (and_congr_left' ?_)
      simp [Element.holds, hx]
    | true =>
      refine (ih (h.unregister x.name x.id)).trans (and_congr_left' ?_)
      rw [h.mem_idsOf_unregister]
      simp only [Element.holds, hx, Bool.true_and, beq_iff_eq, not_and, ne_eq, @eq_comm _ n,
        @eq_comm _ j]

theorem mem_pending {d : Document} (hd : d.Forest) (hr : d.get? root = some r) :
    x ∈ pending d root ↔ d.get? x.id = some x ∧ x.id ∈ d.postorder root ∧ x.mounted = false := by
  rw [pending, List.mem_filter, List.mem_filterMap, hd.mem_postorder hr]
  constructor
  · rintro ⟨⟨j, hj, hx⟩, hm⟩
    cases Document.id_of_get? hx
    exact ⟨hx, hj, by simpa using hm⟩
  · rintro ⟨hx, hj, hm⟩
    exact ⟨⟨x.id, hj, hx⟩, by simpa using hm⟩

theorem holds_loaded (e : Engine) (x : Element) (n : String) :
    (e.loaded x).holds n = (x.declared && x.name == n) := by
  rw [loaded]
  split
  · rename_i hm
    rw [Element.holds, hm, Bool.true_and]
  · rfl

theorem exists_pending {d : Document} (hd : d.Forest) (hr : d.get? root = some r) :
    (∃ x ∈ (pending d root).filter (·.declared), x.name = n ∧ x.id = j) ↔
      ∃ x, d.get? j = some x ∧ j ∈ d.postorder root ∧ x.mounted = false ∧ x.declared = true ∧
        x.name = n := by
  simp only [List.mem_filter, mem_pending hd hr]
  constructor
  · rintro ⟨x, ⟨⟨hx, hp, hm⟩, hd⟩, hn, rfl⟩
    exact ⟨x, hx, hp, hm, hd, hn⟩
  · rintro ⟨x, hx, hp, hm, hd, hn⟩
    cases Document.id_of_get? hx
    exact ⟨x, ⟨⟨hx, hp, hm⟩, hd⟩, hn, rfl⟩

theorem agrees_mounted {e : Engine} (h : Agrees e) (hc : Coherent e)
    (hr : e.document.get? root = some r) : Agrees (e.mounted root) := by
  intro n j
  simp only [mounted]
  rw [mem_idsOf_enrolled hc.names, h n j, exists_pending hc.forest hr, get?_loadAll]
  cases hx : e.document.get? j with
  | none => simp
  | some x =>
    cases Document.id_of_get? hx
    by_cases hp : x.id ∈ e.document.postorder root
    · simp only [Option.map_some, if_pos hp, Option.some.injEq, exists_eq_left', holds_loaded]
      cases hm : x.mounted <;> simp [Element.holds, hp, hm]
    · simp [hp]

theorem agrees_removed {e : Engine} (h : Agrees e) (hc : Coherent e) (root : ElementId) :
    Agrees (e.removed root) := by
  intro n j
  simp only [removed, tell]
  rw [mem_idsOf_struck hc.names, h n j, Document.get?_without]
  constructor
  · rintro ⟨⟨x, hx, hn⟩, hs⟩
    have hj : j ∉ e.document.preorder root := fun hj =>
      hs x (List.mem_filterMap.2 ⟨j, hj, hx⟩) hn (Document.id_of_get? hx)
    rw [if_neg hj, hx]
    exact ⟨_, rfl, hn⟩
  · rintro ⟨y, hy, hn⟩
    split at hy
    · cases hy
    · rename_i hj
      obtain ⟨x, hx, rfl⟩ := Option.map_eq_some_iff.1 hy
      refine ⟨⟨x, hx, hn⟩, fun z hz _ he => hj ?_⟩
      obtain ⟨k, hk, hz⟩ := List.mem_filterMap.1 hz
      rwa [← he, Document.id_of_get? hz]

theorem mem_idsOf_renamed {e : Engine} (hw : e.names.WellFormed) (hm : x.mounted = true) :
    j ∈ (e.renamed x name).names.idsOf n ↔
      n = name ∧ j = x.id ∨
        j ∈ e.names.idsOf n ∧ ¬(x.declared = true ∧ n = x.name ∧ j = x.id) := by
  simp only [renamed, hm, if_true]
  cases hd : x.declared with
  | false => simp [hw.mem_idsOf_insert]
  | true => simp [(hw.unregister _ _).mem_idsOf_insert, hw.mem_idsOf_unregister]

theorem holds_iff {x : Element} :
    x.holds n = true ↔ x.mounted = true ∧ x.declared = true ∧ x.name = n := by
  simp [Element.holds, and_assoc]

theorem agrees_renamed {e : Engine} (h : Agrees e) (hc : Coherent e)
    (hx : e.document.get? x.id = some x) (name : String) : Agrees (e.renamed x name) := by
  -- the index hears of a new name only if the element is mounted
  cases hm : x.mounted with
  | false =>
    intro n j
    simp only [renamed, hm]
    rw [if_neg (by simp), h n j, Document.get?_modify (f := (·.rename name)) _ (fun _ => rfl)]
    split
    · rename_i hj
      cases hj
      simp [hx, holds_iff, Element.rename, hm]
    · rfl
  | true =>
    intro n j
    rw [mem_idsOf_renamed hc.names hm, h n j]
    simp only [renamed]
    rw [Document.get?_modify (f := (·.rename name)) _ (fun _ => rfl)]
    split
    · rename_i hj
      cases hj
      simp only [hx, Option.map_some, Option.some.injEq, exists_eq_left', holds_iff, and_true]
      constructor
      · rintro (rfl | ⟨⟨-, hd, hn⟩, hne⟩)
        · exact ⟨hm, rfl, rfl⟩
        · exact (hne ⟨hd, hn.symm⟩).elim
      · rintro ⟨-, -, hn⟩
        exact .inl hn.symm
    · rename_i hj
      simp [hj]

theorem agrees_written {e : Engine} (h : Agrees e) (i : ElementId) (key : String) (value : Json) :
    Agrees (e.written i key value) :=
  h.modify rfl rfl fun _ => ⟨rfl, fun _ => rfl⟩

theorem Build.agrees (hs : Build e e') (h : Agrees e) : Agrees e' := by
  cases hs with
  | create props placeName _ => exact agrees_created h _ props placeName
  | adopt slot hp hc hr hlt hm =>
    exact h.of_map rfl (Document.get?_attached _ (Nat.ne_of_lt hlt) slot)
      fun j x n => holds_attachedAt _ slot _ j x n

theorem agrees_assigned (h : Agrees e) (hc : Coherent e) (hx : e.document.get? x.id = some x)
    (key : String) (value : Json) : Agrees (e.assigned x key value) :=
  assigned_keep h (agrees_renamed h hc hx) fun h => agrees_written h x.id key value

theorem Act.agrees (hs : Act e e') (hc : Coherent e) (h : Agrees e) : Agrees e' := by
  cases hs with
  | mount hr hn => exact agrees_mounted h hc hr
  | remove hr => exact agrees_removed h hc _
  | assign key value hx hn => exact agrees_assigned h hc hx key _
  | touch _ => exact h.modify rfl rfl fun _ => ⟨rfl, fun _ => rfl⟩
  | flush =>
    refine h.mapElements rfl rfl fun x => ?_
    rw [refresh]
    split <;> exact ⟨rfl, fun _ => rfl⟩
  | call method hx => exact h
  | log line => exact h

theorem Edit.agrees (hs : Edit e e') (hc : Coherent e) (h : Agrees e) : Agrees e' := by
  cases hs with
  | build hb => exact hb.agrees h
  | act ha => exact ha.agrees hc h
  | depth n => exact h
  | define kind method script => exact h

theorem agrees_fresh (settings : Settings) (catalog : Catalog) (operations : Operations)
    (recorder : Option Recorder) : Agrees (fresh settings catalog operations recorder) := by
  intro n j
  simp [fresh, NameIndex.idsOf, Document.get?]

theorem Reachable.agrees (h : Reachable e) : Agrees e :=
  h.keep (P := Agrees) agrees_fresh fun hc ha hs => hs.agrees hc ha

theorem Visited.agrees {allowed : Action → Prop} {exchange : Catalog → Catalog → Prop}
    (hl : Lawful True allowed) (h : Visited allowed exchange stack e) : Agrees e :=
  (h.keep_edit hl (P := Agrees) agrees_fresh (fun hc h hs => hs.agrees hc h) fun _ _ h _ => h).2

theorem mem_idsNamed {d : Document} (hd : d.Forest) :
    j ∈ d.idsNamed n ↔ ∃ x, d.get? j = some x ∧ x.holds n = true := by
  simp only [Document.idsNamed, List.mem_map, List.mem_filter, hd.get?_eq_some, and_assoc, and_comm]

theorem pairwise_idsNamed {d : Document} (hd : d.Forest) (n : String) :
    (d.idsNamed n).Pairwise (· < ·) :=
  hd.ascending.sublist (List.filter_sublist.map _)

/-- The ids under a name are those of the mounted elements that declare it, and it stands for the least. -/
theorem idsOf_eq_idsNamed (h : Reachable e) (n : String) :
    e.names.idsOf n = e.document.idsNamed n ∧ (e.names.idsOf n).Pairwise (· < ·) ∧
      (e.names.contains n = true ↔ e.document.idsNamed n ≠ []) ∧
      e.find? n = (e.document.idsNamed n).min? ∧ e.find? n = e.names.find? n := by
  have hc := h.coherent
  have hmem (j : ElementId) : j ∈ e.names.idsOf n ↔ j ∈ e.document.idsNamed n :=
    (h.agrees n j).trans (mem_idsNamed hc.forest).symm
  have heq : e.names.idsOf n = e.document.idsNamed n :=
    (hc.names.pairwise_idsOf n).eq_of_mem_iff (pairwise_idsNamed hc.forest n) hmem
  have hlive : e.find? n = e.names.find? n := by
    rw [find?]
    cases hf : e.names.find? n with
    | none => rfl
    | some i =>
      obtain ⟨x, hx, -⟩ := (h.agrees n i).1 (List.mem_of_head? hf)
      rw [Option.filter_some, if_pos (Document.contains_iff.2 ⟨x, hx⟩)]
  refine ⟨heq, hc.names.pairwise_idsOf n, heq ▸ hc.names.contains_iff, ?_, hlive⟩
  rw [hlive, NameIndex.find?, heq, List.min?_eq_head?]
  exact (pairwise_idsNamed hc.forest n).imp fun hlt => Nat.min_eq_left (Nat.le_of_lt hlt)

def threeOfOneName : Engine :=
  let button : Tree := (Tree.leaf "Button").withProp "name" (.str "save")
  after 0 (fresh {} .standard (fun _ => none) none)
    [ .renderAndMount button,
      .renderAndMount ((Tree.leaf "Card").withChild "body" button),
      .renderAndMount ((Tree.leaf "Button").withProp "name" (.str "load")),
      .setAttribute 3 "name" (.str "save"),
      .unmount 0 ]

theorem idsOf_eq_idsNamed_threeOfOneName :
    Reachable threeOfOneName ∧ threeOfOneName.names.idsOf "save" = [2, 3] ∧
      threeOfOneName.names.idsOf "save" = threeOfOneName.document.idsNamed "save" ∧
      threeOfOneName.find? "save" = some 2 ∧ threeOfOneName.names.contains "load" = false := by
  have hr : Reachable threeOfOneName := ⟨_, _, _, _, run_after _ _ _⟩
  have hids : threeOfOneName.names.idsOf "save" = [2, 3] := by decide +kernel
  have hn : threeOfOneName.names.contains "load" = false := by decide +kernel
  obtain ⟨heq, -, -, hf, -⟩ := idsOf_eq_idsNamed hr "save"
  refine ⟨hr, hids, heq, ?_, hn⟩
  rw [hf, ← heq, hids]
  rfl

end Engine

end LiveTree
