import LiveTree.Patch.Decoder
import LiveTree.Proofs.Engine.Outcome
import LiveTree.Proofs.Json.Decoding
import LiveTree.Proofs.Patch.MessagePack

namespace LiveTree.Patch
set_option autoImplicit true

open Reader (Takes)
open Decoder (takes_text takes_nat takes_choice takes_tagged takes_record)

/-- What a patch is about nests two levels less than the patch. -/
theorem readable_fields {p : Patch} (h : p.toJson.Readable depth) :
    ∃ d, depth = d + 2 ∧ ∀ field ∈ p.fields, field.2.Readable d := by
  cases depth with
  | zero => exact h.elim
  | succ depth =>
    have hfields : Json.Readable depth (.obj p.fields) := h.2 _ List.mem_cons_self
    cases depth with
    | zero => exact hfields.elim
    | succ d => exact ⟨d, rfl, hfields.2⟩

theorem isExact_fields {p : Patch} (h : p.toJson.isExact = true) :
    ∀ field ∈ p.fields, field.2.isExact = true := by
  rw [toJson, Json.isExact, Json.fieldsExact_eq_true] at h
  have hfields : (Json.obj p.fields).isExact = true := h _ List.mem_cons_self
  rwa [Json.isExact, Json.fieldsExact_eq_true] at hfields

theorem takes_decoder {p : Patch} (hs : p.Sound) (hr : p.toJson.Readable depth)
    (he : p.toJson.isExact = true) : Takes (decoder depth) p.toJson p := by
  obtain ⟨depth, rfl, hreadable⟩ := readable_fields hr
  have hexact := isExact_fields he
  cases p with
  | create id kind tag =>
    have hid := hs id List.mem_cons_self
    apply takes_tagged rfl
    apply takes_record
    · apply Decoder.Gathers.field rfl rfl ((takes_nat hid depth).map _)
      apply Decoder.Gathers.field rfl rfl ((takes_choice (Kind.ofName?_name kind) depth).map _)
      apply Decoder.Gathers.field rfl rfl ((takes_text tag depth).map _)
      exact .nil
    · rfl
  | setAttribute id name value =>
    have hid := hs id List.mem_cons_self
    have hvalue : ("value", value) ∈ (setAttribute id name value).fields := by simp [fields]
    apply takes_tagged rfl
    apply takes_record
    · apply Decoder.Gathers.field rfl rfl ((takes_nat hid depth).map _)
      apply Decoder.Gathers.field rfl rfl ((takes_text name depth).map _)
      apply Decoder.Gathers.field rfl rfl ((Reader.takes_value (hreadable _ hvalue) (hexact _ hvalue)).map _)
      exact .nil
    · rfl
  | appendToSlot parent slot child =>
    have hparent := hs parent List.mem_cons_self
    have hchild := hs child (List.mem_cons_of_mem _ List.mem_cons_self)
    apply takes_tagged rfl
    apply takes_record
    · apply Decoder.Gathers.field rfl rfl ((takes_nat hparent depth).map _)
      apply Decoder.Gathers.field rfl rfl ((takes_text slot depth).map _)
      apply Decoder.Gathers.field rfl rfl ((takes_nat hchild depth).map _)
      exact .nil
    · rfl
  | invokeMethod id method =>
    have hid := hs id List.mem_cons_self
    apply takes_tagged rfl
    apply takes_record
    · apply Decoder.Gathers.field rfl rfl ((takes_nat hid depth).map _)
      apply Decoder.Gathers.field rfl rfl ((takes_text method depth).map _)
      exact .nil
    · rfl
  | remove id =>
    have hid := hs id List.mem_cons_self
    apply takes_tagged rfl
    apply takes_record
    · apply Decoder.Gathers.field rfl rfl ((takes_nat hid depth).map _)
      exact .nil
    · rfl

theorem takes_listJson {ps : List Patch} (hs : ∀ p ∈ ps, p.Sound)
    (hr : (listJson ps).Readable (depth + 1)) (he : (listJson ps).isExact = true) :
    Takes (Decoder.list decoder (depth + 1)) (listJson ps) ps := by
  rw [listJson, Json.isExact, Json.itemsExact_eq_true] at he
  apply Decoder.takes_list _ he
  apply List.forall₂_map_left_iff.2
  apply List.forall₂_same.2
  intro p hp
  have hm : p.toJson ∈ ps.map toJson := List.mem_map_of_mem hp
  exact takes_decoder (hs p hp) (hr _ hm) (he _ hm)

/-- Patches are read back from their compact text, and a recorder that is told them keeps them. -/
theorem parseList_text {ps : List Patch} (hs : ∀ p ∈ ps, p.Sound)
    (hk : (listJson ps).isDistinct = true) (he : (listJson ps).isExact = true)
    (hl : (listJson ps).levels ≤ 127) :
    parseList (listJson ps).text = .ok ps ∧ (Recorder.replay {} ps).patches = ps := by
  have hr : (listJson ps).Readable Json.maxDepth := Json.readable_of_levels _ hl hk
  constructor
  · exact (takes_listJson hs hr he).run
  · exact Recorder.patches_replay {} ps

def oneOfEach : List Patch :=
  let last : ElementId := 0xffffffffffffffff
  let least : Json := (WordInt.ofInt? (-0x8000000000000000)).elim .null (.num ∘ .int)
  [ .create last .chip "a\"b\\c",
    .setAttribute 0 "" (Nat.repeat (fun v => .obj [("\n", .arr [v, .null]), ("k", .bool true)]) 62 least),
    .appendToSlot 0 "π\x00" last, .invokeMethod last "hide", .remove 0 ]

theorem parseList_text_oneOfEach :
    (listJson oneOfEach).levels = 127 ∧ parseList (listJson oneOfEach).text = .ok oneOfEach ∧
      (Recorder.replay {} oneOfEach).patches = oneOfEach := by
  have hl : (listJson oneOfEach).levels = 127 := by decide +kernel
  have hs : ∀ p ∈ oneOfEach, p.Sound := by
    simp [oneOfEach, Sound, ids]
  constructor
  · exact hl
  · apply parseList_text hs
    · decide +kernel
    · decide +kernel
    · exact Nat.le_of_eq hl

end LiveTree.Patch
