import LiveTree.Proofs.Json.Decoding
import LiveTree.Tree

namespace LiveTree.Tree
set_option autoImplicit true

open Reader (Takes)

variable {component : String} {props : List (String × Json)} {slots : List (String × List Tree)}

theorem childrenJson_eq (children : List Tree) : childrenJson children = children.map toJson := by
  induction children with
  | nil => rw [childrenJson, List.map_nil]
  | cons child rest ih => rw [childrenJson, List.map_cons, ih]

theorem slotsJson_eq (slots : List (String × List Tree)) :
    slotsJson slots = slots.map fun entry => (entry.1, .arr (entry.2.map toJson)) := by
  induction slots with
  | nil => rw [slotsJson, List.map_nil]
  | cons entry rest ih => rw [slotsJson, List.map_cons, ih, childrenJson_eq]

theorem takes_props (hr : Json.Readable depth (.obj props)) (he : (Json.obj props).isExact = true) :
    Takes (Decoder.map Reader.value depth) (.obj props) props := by
  cases depth with
  | zero => exact hr.elim
  | succ depth =>
    rw [Json.isExact, Json.fieldsExact_eq_true] at he
    apply Decoder.takes_map _ hr.1
    apply List.forall₂_same.2
    intro entry hm
    exact ⟨rfl, Reader.takes_value (hr.2 entry hm) (he entry hm)⟩

section Generations

variable {child : Decoder Tree}

theorem takes_children (hr : Json.Readable depth (.arr (children.map toJson)))
    (he : (Json.arr (children.map toJson)).isExact = true)
    (h : ∀ d < depth, ∀ t : Tree, t.toJson.Readable d → t.toJson.isExact = true →
      Takes (child d) t.toJson t) :
    Takes (Decoder.list child depth) (.arr (children.map toJson)) children := by
  cases depth with
  | zero => exact hr.elim
  | succ depth =>
    rw [Json.isExact, Json.itemsExact_eq_true] at he
    apply Decoder.takes_list _ he
    apply List.forall₂_map_left_iff.2
    apply List.forall₂_same.2
    intro t ht
    have hm : t.toJson ∈ children.map toJson := List.mem_map_of_mem ht
    exact h depth (Nat.lt_succ_self depth) t (hr _ hm) (he _ hm)

theorem takes_slots (hr : Json.Readable depth (.obj (slotsJson slots)))
    (he : (Json.obj (slotsJson slots)).isExact = true)
    (h : ∀ d < depth, ∀ t : Tree, t.toJson.Readable d → t.toJson.isExact = true →
      Takes (child d) t.toJson t) :
    Takes (Decoder.map (.list child) depth) (.obj (slotsJson slots)) slots := by
  cases depth with
  | zero => exact hr.elim
  | succ depth =>
    rw [Json.isExact, Json.fieldsExact_eq_true] at he
    obtain ⟨hkeys, hr⟩ := hr
    rw [slotsJson_eq] at hkeys hr he ⊢
    have hk : OrderedMap.keys slots = OrderedMap.keys
        (slots.map fun entry => (entry.1, Json.arr (entry.2.map toJson))) := by
      rw [OrderedMap.keys, OrderedMap.keys, List.map_map]
      rfl
    apply Decoder.takes_map _ (hk ▸ hkeys)
    apply List.forall₂_map_left_iff.2
    apply List.forall₂_same.2
    intro entry hm
    have hm' := List.mem_map_of_mem (f := fun entry : String × List Tree =>
      (entry.1, Json.arr (entry.2.map toJson))) hm
    refine ⟨rfl, takes_children (hr _ hm') (he _ hm') ?_⟩
    intro d hd
    exact h d (Nat.lt_succ_of_lt hd)

theorem takes_component (hp : Takes (Decoder.map Reader.value depth) (.obj props) props)
    (hs : Takes (Decoder.map (.list child) depth) (.obj (slotsJson slots)) slots) :
    Takes (Decoder.record (fields child) {} Draft.finish? (depth + 1))
      (toJson ⟨component, props, slots⟩) ⟨component, props, slots⟩ := by
  rw [toJson]
  apply Decoder.takes_record
  · apply Decoder.Gathers.field rfl rfl ((Decoder.takes_text component depth).map _)
    apply Decoder.Gathers.field rfl rfl (hp.map _)
    apply Decoder.Gathers.field rfl rfl (hs.map _)
    exact .nil
  · rfl

end Generations

/-- A tree reads back, as long as there are more generations allowed than levels. -/
theorem takes_decoderWithin {t : Tree} (hr : t.toJson.Readable depth) (he : t.toJson.isExact = true)
    (hn : depth < n) : Takes (decoderWithin n depth) t.toJson t := by
  induction n generalizing depth t with
  | zero => exact (Nat.not_lt_zero depth hn).elim
  | succ n ih =>
    obtain ⟨component, props, slots⟩ := t
    cases depth with
    | zero =>
      rw [toJson] at hr
      exact hr.elim
    | succ depth =>
      rw [toJson] at hr he
      rw [Json.isExact, Json.fieldsExact_eq_true] at he
      have hprops : ("props", Json.obj props) ∈ [("component", Json.str component),
          ("props", .obj props), ("slots", .obj (slotsJson slots))] := by simp
      have hslots : ("slots", Json.obj (slotsJson slots)) ∈ [("component", Json.str component),
          ("props", .obj props), ("slots", .obj (slotsJson slots))] := by simp
      apply takes_component
      · exact takes_props (hr.2 _ hprops) (he _ hprops)
      · apply takes_slots (hr.2 _ hslots) (he _ hslots)
        -- a child nests deeper, so there are generations left for it
        intro d hd t hr he
        exact ih hr he (by omega)

/-- A tree is read back from its compact text, with all its keys in their order. -/
theorem parse_text {t : Tree} (hk : t.toJson.isDistinct = true) (he : t.toJson.isExact = true)
    (hl : t.toJson.levels ≤ 127) : parse t.toJson.text = .ok t := by
  have hr : t.toJson.Readable Json.maxDepth := Json.readable_of_levels _ hl hk
  exact (takes_decoderWithin hr he (Nat.lt_succ_self _)).run

def nestedCards : Tree :=
  let limits : Json :=
    .obj [("a\"b\n", .num (.int ⟨-0x8000000000000000, by decide⟩)), ("", .ofNat 0xffffffffffffffff)]
  let chip : Tree := ((leaf "Chip").withProp "z" (.arr [limits, .null])).withProp "name" (.str "π\x00")
  Nat.repeat (fun t => ((leaf "Card").withChild "body" t).withChild "foot" (leaf "Text")) 41 chip

theorem parse_text_nestedCards :
    nestedCards.toJson.levels = 127 ∧ parse nestedCards.toJson.text = .ok nestedCards := by
  have hl : nestedCards.toJson.levels = 127 := by decide +kernel
  constructor
  · exact hl
  · apply parse_text
    · decide +kernel
    · decide +kernel
    · exact Nat.le_of_eq hl

end LiveTree.Tree
