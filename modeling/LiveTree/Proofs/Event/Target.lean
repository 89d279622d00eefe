import Mathlib.Data.List.TakeWhile
import LiveTree.Event.Target

namespace LiveTree.Target
set_option autoImplicit true

def segment (text : String) : String :=
  .ofList (text.toList.takeWhile (· != '.'))

theorem ne_dot_of_not_mem {text : String} (h : '.' ∉ text.toList) :
    ∀ c ∈ text.toList, (c != '.') = true := by
  intro c hm
  rw [bne_iff_ne]
  rintro rfl
  exact h hm

theorem toList_dotted (text rest : String) :
    (text ++ "." ++ rest).toList = text.toList ++ '.' :: rest.toList := by
  simp

theorem not_mem_segment (text : String) : '.' ∉ (segment text).toList := by
  rw [segment, String.toList_ofList]
  intro hm
  simpa using List.mem_takeWhile_imp hm

theorem segment_plain {text : String} (h : '.' ∉ text.toList) : segment text = text := by
  rw [segment, List.takeWhile_eq_self_iff.2 (ne_dot_of_not_mem h), String.ofList_toList]

theorem segment_dotted {text : String} (h : '.' ∉ text.toList) (rest : String) :
    segment (text ++ "." ++ rest) = text := by
  rw [segment, toList_dotted, List.takeWhile_append_of_pos (ne_dot_of_not_mem h)]
  simp

theorem parse_plain {component : String} (h : '.' ∉ component.toList) :
    parse component = ⟨component, none⟩ := by
  have hrest : component.toList.dropWhile (· != '.') = [] :=
    List.dropWhile_eq_nil_iff.2 (ne_dot_of_not_mem h)
  simp only [parse, hrest, List.takeWhile_eq_self_iff.2 (ne_dot_of_not_mem h), String.ofList_toList]
  rfl

theorem parse_split {component : String} (h : '.' ∉ component.toList) (rest : String) :
    parse (component ++ "." ++ rest) =
      ⟨component, if segment rest = "" then none else some (segment rest)⟩ := by
  simp only [parse, toList_dotted, List.takeWhile_append_of_pos (ne_dot_of_not_mem h),
    List.dropWhile_append_of_pos (ne_dot_of_not_mem h)]
  simp [segment]

/-- A component and a listener without dots are read back from between the dots. -/
theorem parse_dotted {component listener : String} (hc : '.' ∉ component.toList)
    (hl : '.' ∉ listener.toList) (hne : listener ≠ "") :
    parse (component ++ "." ++ listener) = ⟨component, some listener⟩ := by
  rw [parse_split hc, segment_plain hl, if_neg hne]

theorem parse_surplus {component listener : String} (hc : '.' ∉ component.toList)
    (hl : '.' ∉ listener.toList) (hne : listener ≠ "") (rest : String) :
    parse (component ++ "." ++ listener ++ "." ++ rest) = ⟨component, some listener⟩ := by
  have hassoc : component ++ "." ++ listener ++ "." ++ rest =
      component ++ "." ++ (listener ++ "." ++ rest) := by
    simp only [String.append_assoc]
  rw [hassoc, parse_split hc, segment_dotted hl, if_neg hne]

/-- A text has no dot, or it goes on after the first one. -/
theorem exists_split (raw : String) :
    '.' ∉ raw.toList ∨
      ∃ component rest, '.' ∉ component.toList ∧ raw = component ++ "." ++ rest := by
  rw [Classical.or_iff_not_imp_left, Classical.not_not]
  intro h
  obtain ⟨before, after, hraw, hb⟩ := List.eq_append_cons_of_mem h
  refine ⟨.ofList before, .ofList after, by rwa [String.toList_ofList], ?_⟩
  rw [← String.toList_inj, toList_dotted, String.toList_ofList, String.toList_ofList, hraw]

/-- No dot stands in a component or in a listener, and no listener is empty. -/
structure Plain (target : Target) : Prop where
  component : '.' ∉ target.component.toList
  listener : ∀ listener, target.listener = some listener → '.' ∉ listener.toList ∧ listener ≠ ""

theorem plain_parse (raw : String) : (parse raw).Plain := by
  rcases exists_split raw with h | ⟨component, rest, h, rfl⟩
  · rw [parse_plain h]
    exact ⟨h, fun _ hl => by cases hl⟩
  · rw [parse_split h]
    refine ⟨h, fun listener hl => ?_⟩
    split at hl
    · cases hl
    · rename_i hne
      cases hl
      exact ⟨not_mem_segment rest, hne⟩

theorem Plain.parse_display (h : Plain target) : parse target.display = target := by
  obtain ⟨component, listener⟩ := target
  cases listener with
  | none => exact parse_plain h.component
  | some listener =>
    obtain ⟨hl, hne⟩ := h.listener listener rfl
    exact parse_dotted h.component hl hne

theorem exists_parse_iff {component listener : String} :
    (∃ raw, parse raw = ⟨component, some listener⟩) ↔
      '.' ∉ component.toList ∧ '.' ∉ listener.toList ∧ listener ≠ "" := by
  constructor
  · rintro ⟨raw, hraw⟩
    have h := plain_parse raw
    rw [hraw] at h
    exact ⟨h.component, h.listener listener rfl⟩
  · rintro ⟨hc, hl, hne⟩
    exact ⟨_, parse_dotted hc hl hne⟩

end LiveTree.Target
