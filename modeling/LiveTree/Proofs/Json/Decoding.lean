import LiveTree.Proofs.Json.Reading

namespace LiveTree
set_option autoImplicit true

theorem Reader.Takes.map {α β : Type} {r : Reader α} {a : α} (h : Takes r v a) (f : α → β) :
    Takes (f <$> r) v (f a) := by
  intro rest hs
  exact map_ok (h rest hs) f

namespace Decoder

open Reader

variable {α σ : Type}

theorem takes_text (s : String) (depth : Nat) : Takes (text depth) (.str s) s := by
  intro rest _
  have hquote : Json.quote s ++ rest = '"' :: (s.toList.flatMap Json.escape ++ ['"'] ++ rest) := rfl
  rw [Json.chars, hquote, text, bind_ok (peekToken_cons rfl _), if_pos rfl, ← hquote,
    text_quote s rest]

theorem takes_int (n : WordInt) (h : least ≤ n.value ∧ n.value ≤ greatest) (depth : Nat) :
    Takes (int least greatest depth) (.num (.int n)) n.value := by
  intro rest hs
  obtain ⟨c, s, hcons, hc⟩ := n.chars_eq_cons
  have hread := number_chars n hs
  rw [Json.chars, Number.chars]
  rw [hcons, List.cons_append] at hread ⊢
  rw [int, bind_ok (peekToken_cons (isBlank_of_startsNumber hc) _), if_pos hc, bind_ok hread]
  dsimp only
  rw [if_pos h]
  rfl

theorem takes_nat (h : n < 0x10000000000000000) (depth : Nat) : Takes (nat depth) (.ofNat n) n := by
  have hvalue : (WordInt.ofNat n).value = n := congrArg Nat.cast (Nat.mod_eq_of_lt h)
  have hint : Takes (int 0 0xffffffffffffffff depth) (.ofNat n) (WordInt.ofNat n).value :=
    takes_int (WordInt.ofNat n) (by omega) depth
  have hread : Takes (nat depth) (.ofNat n) (WordInt.ofNat n).value.toNat := hint.map Int.toNat
  rw [hvalue, Int.toNat_natCast] at hread
  exact hread

theorem takes_list {item : Decoder α} (h : List.Forall₂ (Takes (item depth)) vs as)
    (he : ∀ v ∈ vs, v.isExact = true) : Takes (list item (depth + 1)) (.arr vs) as := by
  intro rest hs
  have hread := Reader.takes_list h he rest hs
  rw [Json.chars, List.cons_append] at hread ⊢
  rw [list, bind_ok (peekToken_cons rfl _), if_pos rfl, nested, hread]

theorem takes_map {value : Decoder α} {entries : OrderedMap α}
    (h : List.Forall₂ (fun field entry => field.1 = entry.1 ∧ Takes (value depth) field.2 entry.2)
      fields entries) (hk : entries.keys.Nodup) :
    Takes (map value (depth + 1)) (.obj fields) entries := by
  intro rest hs
  have hread := takes_object (gathers_entry (m := []) h hk) rest hs
  rw [Json.chars, List.cons_append] at hread ⊢
  rw [map, bind_ok (peekToken_cons rfl _), if_pos rfl, nested, hread]
  rfl

section Records

variable {fields : List (Field σ)} {f : Field σ} {key : String} {draft draft' start final : σ}

/-- A field that is not set yet is read by its own decoder. -/
theorem member_field (hf : fields.find? (·.name = key) = some f) (hs : f.isSet draft = false)
    (h : Takes (f.read draft depth) v draft') (hrest : Stops rest) :
    member fields depth draft key (':' :: (v.chars ++ rest)) = .ok (draft', rest) := by
  rw [member, hf]
  dsimp only
  rw [hs, if_neg (by decide), bind_ok (punctuation_cons rfl _), h rest hrest]

theorem Gathers.field (hf : fields.find? (·.name = key) = some f) (hs : f.isSet draft = false)
    (h : Takes (f.read draft depth) v draft') (hg : Gathers (member fields depth) entries draft' final) :
    Gathers (member fields depth) ((key, v) :: entries) draft final :=
  .cons (fun _ hrest => member_field hf hs h hrest) hg

theorem takes_record {finish : σ → Option α} (h : Gathers (member fields depth) entries start final)
    (hf : finish final = some a) : Takes (record fields start finish (depth + 1)) (.obj entries) a := by
  intro rest hs
  have hread := takes_object h rest hs
  rw [Json.chars, List.cons_append] at hread ⊢
  rw [record, bind_ok (peekToken_cons rfl _), if_pos rfl, nested, bind_ok hread, hf]
  rfl

end Records

/-- A value under the name of its variant reads back by the decoder of the variant. -/
theorem takes_tagged {payload : String → Option (Decoder α)} {bare : String → Option α}
    {value : Decoder α} (hp : payload label = some value) (h : Takes (value depth) v a) :
    Takes (tagged payload bare (depth + 1)) (.obj [(label, v)]) a := by
  intro rest _
  have hclose : Stops ('}' :: rest) := stops_cons rfl rest
  rw [Json.chars, Json.fieldChars_first, Json.fieldChars, List.cons_append, List.append_assoc,
    List.cons_append, List.append_assoc, List.singleton_append, tagged,
    bind_ok (peekToken_cons rfl _), if_pos rfl, nested, bind_ok (drop_one_cons _ _),
    bind_ok (key_quote _ _), hp, accept, pure_bind, bind_ok (punctuation_cons rfl _),
    bind_ok (h _ hclose), bind_ok (punctuation_cons rfl _)]
  rfl

theorem takes_choice {ofName? : String → Option α} (h : ofName? name = some a) (depth : Nat) :
    Takes (choice ofName? depth) (.str name) a := by
  intro rest _
  have hquote : Json.quote name ++ rest = '"' :: (name.toList.flatMap Json.escape ++ ['"'] ++ rest) :=
    rfl
  rw [Json.chars, hquote, choice, tagged, bind_ok (peekToken_cons rfl _), if_neg (by decide),
    if_pos rfl, ← hquote, bind_ok (text_quote name rest), h]
  rfl

end Decoder

end LiveTree
