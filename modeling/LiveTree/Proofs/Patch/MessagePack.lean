import LiveTree.Patch.MessagePack
import LiveTree.Proofs.Kind

namespace LiveTree
set_option autoImplicit true

namespace MessagePack

def ofBytes : List UInt8 → Nat
  | [] => 0
  | byte :: rest => byte.toNat * Nat.pow 256 rest.length + ofBytes rest

theorem length_bigEndian (width n : Nat) : (bigEndian width n).length = width := by
  induction width with
  | zero => rfl
  | succ width ih => rw [bigEndian, List.length_cons, ih]

theorem ofBytes_bigEndian (width n : Nat) : ofBytes (bigEndian width n) = n % Nat.pow 256 width := by
  induction width with
  | zero => exact (Nat.mod_one n).symm
  | succ width ih =>
    have hp : Nat.pow 256 (width + 1) = Nat.pow 256 width * 256 := rfl
    rw [bigEndian, ofBytes, length_bigEndian, ih, UInt8.toNat_ofNat', hp, Nat.mod_mul, Nat.add_comm,
      Nat.mul_comm]

/-- What the first bytes of a value say. -/
inductive Head where
  | null
  | bool (value : Bool)
  | int (value : Int)
  | double (bits : Nat)
  | text (size : Nat)
  | list (length : Nat)
  | map (length : Nat)

def width (lead : Nat) : Nat :=
  if lead ∈ [0xcc, 0xd0, 0xd9] then 1
  else if lead ∈ [0xcd, 0xd1, 0xda, 0xdc, 0xde] then 2
  else if lead ∈ [0xce, 0xd2, 0xdb, 0xdd, 0xdf] then 4
  else if lead ∈ [0xcb, 0xcf, 0xd3] then 8
  else 0

def Head.marked? (lead n : Nat) : Option Head :=
  match lead with
  | 0xc0 => some .null
  | 0xc2 => some (.bool false)
  | 0xc3 => some (.bool true)
  | 0xcb => some (.double n)
  | 0xcc | 0xcd | 0xce | 0xcf => some (.int n)
  | 0xd0 => some (.int (n - 0x100))
  | 0xd1 => some (.int (n - 0x10000))
  | 0xd2 => some (.int (n - 0x100000000))
  | 0xd3 => some (.int (n - 0x10000000000000000))
  | 0xd9 | 0xda | 0xdb => some (.text n)
  | 0xdc | 0xdd => some (.list n)
  | 0xde | 0xdf => some (.map n)
  | _ => none

def Head.of? (lead n : Nat) : Option Head :=
  if lead < 0x80 then some (.int lead)
  else if lead < 0x90 then some (.map (lead - 0x80))
  else if lead < 0xa0 then some (.list (lead - 0x90))
  else if lead < 0xc0 then some (.text (lead - 0xa0))
  else if 0xe0 ≤ lead then some (.int (lead - 0x100))
  else marked? lead n

/-- Read a head, and leave what follows it. -/
def readHead : List UInt8 → Option (Head × List UInt8)
  | [] => none
  | lead :: rest =>
    let size := width lead.toNat
    (Head.of? lead.toNat (ofBytes (rest.take size))).map fun head => (head, rest.drop size)

theorem width_eq_zero (h : lead < 0xcb ∨ 0xe0 ≤ lead) : width lead = 0 := by
  simp only [width, List.mem_cons, List.not_mem_nil, or_false]
  repeat rw [if_neg (by omega)]

theorem readHead_byte (hb : b < 0x100) (hw : b < 0xcb ∨ 0xe0 ≤ b) (h : Head.of? b 0 = some head)
    (rest : List UInt8) : readHead (UInt8.ofNat b :: rest) = some (head, rest) := by
  have hn : (UInt8.ofNat b).toNat = b := by
    rw [UInt8.toNat_ofNat']
    exact Nat.mod_eq_of_lt hb
  simp only [readHead, hn, width_eq_zero hw, List.take_zero, List.drop_zero, ofBytes, h, Option.map_some]

theorem readHead_wide (lead : UInt8) (hn : n < Nat.pow 256 (width lead.toNat))
    (h : Head.of? lead.toNat n = some head) (rest : List UInt8) :
    readHead (lead :: (bigEndian (width lead.toNat) n ++ rest)) = some (head, rest) := by
  have hl := length_bigEndian (width lead.toNat) n
  simp only [readHead, List.take_left' hl, List.drop_left' hl, ofBytes_bigEndian, Nat.mod_eq_of_lt hn, h,
    Option.map_some]

theorem readHead_nat (h : n < 0x10000000000000000) (rest : List UInt8) :
    readHead (nat n ++ rest) = some (.int n, rest) := by
  rw [nat]
  split
  · rename_i hn
    exact readHead_byte (by omega) (.inl (by omega)) (if_pos hn) rest
  split
  · exact readHead_wide 0xcc ‹_› rfl rest
  split
  · exact readHead_wide 0xcd ‹_› rfl rest
  split
  · exact readHead_wide 0xce ‹_› rfl rest
  · exact readHead_wide 0xcf h rfl rest

theorem Head.of?_negative (h : k < 0x20) : Head.of? (0xff - k) 0 = some (.int (.negSucc k)) := by
  have he : ((0xff - k : Nat) : Int) - 0x100 = .negSucc k := by omega
  rw [of?, if_neg (by omega), if_neg (by omega), if_neg (by omega), if_neg (by omega),
    if_pos (by omega), he]

theorem readHead_negative (h : k < 0x8000000000000000) (rest : List UInt8) :
    readHead (negative k ++ rest) = some (.int (.negSucc k), rest) := by
  have hint (size : Nat) (hk : k < size) :
      some (Head.int ((size - 1 - k : Nat) - size)) = some (.int (.negSucc k)) := by
    congr 2
    omega
  rw [negative]
  split
  · exact readHead_byte (by omega) (.inr (by omega)) (Head.of?_negative ‹_›) rest
  split
  · exact readHead_wide 0xd0 (Nat.lt_of_le_of_lt (Nat.sub_le _ _) (by decide))
      (hint 0x100 (by omega)) rest
  split
  · exact readHead_wide 0xd1 (Nat.lt_of_le_of_lt (Nat.sub_le _ _) (by decide))
      (hint 0x10000 (by omega)) rest
  split
  · exact readHead_wide 0xd2 (Nat.lt_of_le_of_lt (Nat.sub_le _ _) (by decide))
      (hint 0x100000000 (by omega)) rest
  · exact readHead_wide 0xd3 (Nat.lt_of_le_of_lt (Nat.sub_le _ _) (by decide))
      (hint 0x10000000000000000 (by omega)) rest

theorem readHead_int (n : WordInt) (rest : List UInt8) :
    readHead (int n.value ++ rest) = some (.int n.value, rest) := by
  obtain ⟨value, hmin, hmax⟩ := n
  cases value with
  | ofNat n => exact readHead_nat (Int.ofNat_lt.1 hmax) rest
  | negSucc k => exact readHead_negative (by omega) rest

theorem readHead_double (x : Double) (rest : List UInt8) :
    readHead (0xcb :: (bigEndian 8 x.bits ++ rest)) = some (.double x.bits, rest) := by
  have hb : x.bits < 0x10000000000000000 := by
    have he := x.exponent.isLt
    have hf := x.fraction.isLt
    rw [Double.bits]
    split <;> omega
  exact readHead_wide 0xcb hb rfl rest

theorem readHead_textHead (h : n < 0x100000000) (rest : List UInt8) :
    readHead (textHead n ++ rest) = some (.text n, rest) := by
  rw [textHead]
  split
  · have ho : Head.of? (0xa0 + n) 0 = some (.text n) := by
      rw [Head.of?, if_neg (by omega), if_neg (by omega), if_neg (by omega), if_pos (by omega),
        Nat.add_sub_cancel_left]
    exact readHead_byte (by omega) (.inl (by omega)) ho rest
  split
  · exact readHead_wide 0xd9 ‹_› rfl rest
  split
  · exact readHead_wide 0xda ‹_› rfl rest
  · exact readHead_wide 0xdb h rfl rest

theorem readHead_listHead (h : n < 0x100000000) (rest : List UInt8) :
    readHead (listHead n ++ rest) = some (.list n, rest) := by
  rw [listHead]
  split
  · have ho : Head.of? (0x90 + n) 0 = some (.list n) := by
      rw [Head.of?, if_neg (by omega), if_neg (by omega), if_pos (by omega), Nat.add_sub_cancel_left]
    exact readHead_byte (by omega) (.inl (by omega)) ho rest
  split
  · exact readHead_wide 0xdc ‹_› rfl rest
  · exact readHead_wide 0xdd h rfl rest

theorem readHead_mapHead (h : n < 0x100000000) (rest : List UInt8) :
    readHead (mapHead n ++ rest) = some (.map n, rest) := by
  rw [mapHead]
  split
  · have ho : Head.of? (0x80 + n) 0 = some (.map n) := by
      rw [Head.of?, if_neg (by omega), if_pos (by omega), Nat.add_sub_cancel_left]
    exact readHead_byte (by omega) (.inl (by omega)) ho rest
  split
  · exact readHead_wide 0xde ‹_› rfl rest
  · exact readHead_wide 0xdf h rfl rest

theorem toList_loop (bytes : ByteArray) (i : Nat) (read : List UInt8) :
    ByteArray.toList.loop bytes i read = read.reverse ++ bytes.data.toList.drop i := by
  fun_induction ByteArray.toList.loop bytes i read with
  | case1 i read h ih =>
    have hi : i < bytes.data.toList.length := h
    rw [ih, List.drop_eq_getElem_cons hi, List.reverse_cons, List.append_assoc, List.singleton_append]
    congr 2
    exact getElem!_pos bytes.data i h
  | case2 i read h =>
    rw [List.drop_of_length_le (Nat.le_of_not_lt h), List.append_nil]

theorem toList_eq_data (bytes : ByteArray) : bytes.toList = bytes.data.toList := by
  rw [ByteArray.toList, toList_loop, List.reverse_nil, List.nil_append, List.drop_zero]

theorem length_bytes (s : String) : s.toUTF8.toList.length = s.utf8ByteSize := by
  rw [toList_eq_data]
  rfl

theorem eq_of_bytes {s t : String} (h : s.toUTF8.toList = t.toUTF8.toList) : s = t := by
  rw [toList_eq_data, toList_eq_data] at h
  exact String.toByteArray_inj.1 (ByteArray.ext (Array.toList_inj.1 h))

theorem text_inj {s t : String} (hs : s.utf8ByteSize < 0x100000000) (ht : t.utf8ByteSize < 0x100000000)
    (h : text s ++ r = text t ++ r') : s = t ∧ r = r' := by
  rw [text, text, List.append_assoc, List.append_assoc] at h
  have hread := congrArg readHead h
  rw [readHead_textHead hs, readHead_textHead ht, Option.some.injEq, Prod.mk.injEq] at hread
  obtain ⟨hsize, hrest⟩ := hread
  have hlen : s.toUTF8.toList.length = t.toUTF8.toList.length := by
    rw [length_bytes, length_bytes]
    exact Head.text.inj hsize
  obtain ⟨hbytes, hrest⟩ := List.append_inj hrest hlen
  exact ⟨eq_of_bytes hbytes, hrest⟩

def headOf : Json → Head
  | .null => .null
  | .bool b => .bool b
  | .num (.int n) => .int n.value
  | .num (.double x) => .double x.bits
  | .str s => .text s.utf8ByteSize
  | .arr items => .list items.length
  | .obj fields => .map fields.length

def bodyOf : Json → List UInt8
  | .str s => s.toUTF8.toList
  | .arr items => encodeItems items
  | .obj fields => encodeFields fields
  | _ => []

end MessagePack

namespace Json

mutual

/-- Every text in a value takes less than `2 ^ 32` bytes, and every list and object has fewer entries. -/
def short : Json → Bool
  | .str s => decide (s.utf8ByteSize < 0x100000000)
  | .arr items => decide (items.length < 0x100000000) && shortItems items
  | .obj fields => decide (fields.length < 0x100000000) && shortFields fields
  | _ => true

def shortItems : List Json → Bool
  | [] => true
  | item :: rest => item.short && shortItems rest

def shortFields : List (String × Json) → Bool
  | [] => true
  | (key, value) :: rest =>
    decide (key.utf8ByteSize < 0x100000000) && value.short && shortFields rest

end

end Json

theorem Double.eq_of_bits {x y : Double} (h : x.bits = y.bits) : x = y := by
  obtain ⟨sign, exponent, fraction⟩ := x
  obtain ⟨sign', exponent', fraction'⟩ := y
  have he := exponent.isLt
  have he' := exponent'.isLt
  have hf := fraction.isLt
  have hf' := fraction'.isLt
  have hfields : sign = sign' ∧ exponent.val = exponent'.val ∧ fraction.val = fraction'.val := by
    cases sign <;> cases sign' <;>
      simp only [bits, if_true, Bool.false_eq_true, if_false, true_and, reduceCtorEq, false_and] at h ⊢ <;>
      omega
  obtain ⟨rfl, he, hf⟩ := hfields
  rw [Fin.ext he, Fin.ext hf]

namespace MessagePack

theorem readHead_encode {v : Json} (h : v.short = true) (rest : List UInt8) :
    readHead (encode v ++ rest) = some (headOf v, bodyOf v ++ rest) := by
  cases v with
  | null => rw [encode]; rfl
  | bool b => cases b <;> (rw [encode]; rfl)
  | num n =>
    rw [encode]
    cases n with
    | int n => exact readHead_int n rest
    | double x => exact readHead_double x rest
  | str s =>
    rw [Json.short, decide_eq_true_eq] at h
    rw [encode, text, List.append_assoc, readHead_textHead h]
    rfl
  | arr items =>
    rw [Json.short, Bool.and_eq_true, decide_eq_true_eq] at h
    rw [encode, List.append_assoc, readHead_listHead h.1]
    rfl
  | obj fields =>
    rw [Json.short, Bool.and_eq_true, decide_eq_true_eq] at h
    rw [encode, List.append_assoc, readHead_mapHead h.1]
    rfl

/-- Values with the same head: atoms are the same, and the others are as long. -/
inductive SameHead : Json → Json → Prop
  | null : SameHead .null .null
  | bool (b : Bool) : SameHead (.bool b) (.bool b)
  | num (n : Number) : SameHead (.num n) (.num n)
  | str (h : s.utf8ByteSize = t.utf8ByteSize) : SameHead (.str s) (.str t)
  | arr (h : items.length = items'.length) : SameHead (.arr items) (.arr items')
  | obj (h : fields.length = fields'.length) : SameHead (.obj fields) (.obj fields')

theorem sameHead_num {n n' : Number} (h : headOf (.num n) = headOf (.num n')) :
    SameHead (.num n) (.num n') := by
  have hn : n = n' := by
    cases n with
    | int x =>
      cases n' with
      | int y =>
        obtain ⟨x, hx⟩ := x
        cases Head.int.inj h
        rfl
      | double y => cases h
    | double x =>
      cases n' with
      | int y => cases h
      | double y => rw [Double.eq_of_bits (Head.double.inj h)]
  rw [hn]
  exact .num n'

theorem sameHead {v w : Json} (h : headOf v = headOf w) : SameHead v w := by
  cases v with
  | null => cases w with
    | null => exact .null
    | num n => cases n <;> cases h
    | _ => cases h
  | bool b => cases w with
    | bool b' => cases h; exact .bool b
    | num n => cases n <;> cases h
    | _ => cases h
  | num n => cases w with
    | num n' => exact sameHead_num h
    | _ => cases n <;> cases h
  | str s => cases w with
    | str t => exact .str (Head.text.inj h)
    | num n => cases n <;> cases h
    | _ => cases h
  | arr items => cases w with
    | arr items' => exact .arr (Head.list.inj h)
    | num n => cases n <;> cases h
    | _ => cases h
  | obj fields => cases w with
    | obj fields' => exact .obj (Head.map.inj h)
    | num n => cases n <;> cases h
    | _ => cases h

mutual

/-- No value is the beginning of another, and bytes tell values apart. -/
theorem encode_inj (v w : Json) (hv : v.short = true) (hw : w.short = true)
    (h : encode v ++ r = encode w ++ r') : v = w ∧ r = r' := by
  have hread := congrArg readHead h
  rw [readHead_encode hv, readHead_encode hw, Option.some.injEq, Prod.mk.injEq] at hread
  obtain ⟨hhead, hbody⟩ := hread
  match v with
  | .null | .bool _ | .num _ =>
    cases sameHead hhead
    exact ⟨rfl, hbody⟩
  | .str s =>
    cases sameHead hhead with
    | str hl =>
      rw [Json.short, decide_eq_true_eq] at hv hw
      rw [encode, encode] at h
      obtain ⟨hs, hr⟩ := text_inj hv hw h
      exact ⟨congrArg Json.str hs, hr⟩
  | .arr items =>
    cases sameHead hhead with
    | arr hl =>
      rw [Json.short, Bool.and_eq_true] at hv hw
      obtain ⟨hi, hr⟩ := encodeItems_inj items _ hl hv.2 hw.2 hbody
      exact ⟨congrArg Json.arr hi, hr⟩
  | .obj fields =>
    cases sameHead hhead with
    | obj hl =>
      rw [Json.short, Bool.and_eq_true] at hv hw
      obtain ⟨hf, hr⟩ := encodeFields_inj fields _ hl hv.2 hw.2 hbody
      exact ⟨congrArg Json.obj hf, hr⟩

theorem encodeItems_inj (items items' : List Json) (hl : items.length = items'.length)
    (hv : Json.shortItems items = true) (hw : Json.shortItems items' = true)
    (h : encodeItems items ++ r = encodeItems items' ++ r') : items = items' ∧ r = r' := by
  match items, items' with
  | [], [] => exact ⟨rfl, h⟩
  | item :: rest, item' :: rest' =>
    rw [Json.shortItems, Bool.and_eq_true] at hv hw
    rw [encodeItems, encodeItems, List.append_assoc, List.append_assoc] at h
    obtain ⟨hi, h⟩ := encode_inj item item' hv.1 hw.1 h
    obtain ⟨hs, hr⟩ := encodeItems_inj rest rest' (Nat.succ.inj hl) hv.2 hw.2 h
    exact ⟨by rw [hi, hs], hr⟩

theorem encodeFields_inj (fields fields' : List (String × Json)) (hl : fields.length = fields'.length)
    (hv : Json.shortFields fields = true) (hw : Json.shortFields fields' = true)
    (h : encodeFields fields ++ r = encodeFields fields' ++ r') : fields = fields' ∧ r = r' := by
  match fields, fields' with
  | [], [] => exact ⟨rfl, h⟩
  | (key, value) :: rest, (key', value') :: rest' =>
    rw [Json.shortFields, Bool.and_eq_true, Bool.and_eq_true, decide_eq_true_eq] at hv hw
    rw [encodeFields, encodeFields, List.append_assoc, List.append_assoc, List.append_assoc,
      List.append_assoc] at h
    obtain ⟨hk, h⟩ := text_inj hv.1.1 hw.1.1 h
    obtain ⟨hi, h⟩ := encode_inj value value' hv.1.2 hw.1.2 h
    obtain ⟨hs, hr⟩ := encodeFields_inj rest rest' (Nat.succ.inj hl) hv.2 hw.2 h
    exact ⟨by rw [hk, hi, hs], hr⟩

end

end MessagePack

theorem Json.ofNat_inj (hi : i < 0x10000000000000000) (hj : j < 0x10000000000000000)
    (h : ofNat i = ofNat j) : i = j := by
  injection h with h
  injection h with h
  have hv : ((i % 0x10000000000000000 : Nat) : Int) = (j % 0x10000000000000000 : Nat) :=
    congrArg WordInt.value h
  omega

namespace Patch

def ids : Patch → List ElementId
  | .create id _ _ => [id]
  | .setAttribute id _ _ => [id]
  | .appendToSlot parent _ child => [parent, child]
  | .invokeMethod id _ => [id]
  | .remove id => [id]

def Sound (p : Patch) : Prop :=
  ∀ i ∈ p.ids, i < 0x10000000000000000

/-- Patches that the format has room for. -/
structure Packable (ps : List Patch) : Prop where
  short : (listJson ps).short = true
  sound : ∀ p ∈ ps, p.Sound

theorem toJson_inj {p q : Patch} (hp : p.Sound) (hq : q.Sound) (h : p.toJson = q.toJson) : p = q := by
  have hj : [(p.label, Json.obj p.fields)] = [(q.label, Json.obj q.fields)] := Json.obj.inj h
  simp only [List.cons.injEq, Prod.mk.injEq, Json.obj.injEq, and_true] at hj
  obtain ⟨hlabel, hfields⟩ := hj
  cases p <;> cases q <;>
    simp only [label, String.reduceEq] at hlabel <;>
    simp only [fields, List.cons.injEq, Prod.mk.injEq, Json.str.injEq, true_and, and_true] at hfields <;>
    simp only [Sound, ids, List.mem_cons, List.not_mem_nil, or_false, forall_eq_or_imp, forall_eq] at hp hq
  case create.create => rw [Json.ofNat_inj hp hq hfields.1, Kind.name_inj hfields.2.1, hfields.2.2]
  case setAttribute.setAttribute => rw [Json.ofNat_inj hp hq hfields.1, hfields.2.1, hfields.2.2]
  case appendToSlot.appendToSlot =>
    rw [Json.ofNat_inj hp.1 hq.1 hfields.1, hfields.2.1, Json.ofNat_inj hp.2 hq.2 hfields.2.2]
  case invokeMethod.invokeMethod => rw [Json.ofNat_inj hp hq hfields.1, hfields.2]
  case remove.remove => rw [Json.ofNat_inj hp hq hfields]

theorem listJson_inj {ps qs : List Patch} (hp : ∀ p ∈ ps, p.Sound) (hq : ∀ q ∈ qs, q.Sound)
    (h : listJson ps = listJson qs) : ps = qs := by
  replace h : ps.map toJson = qs.map toJson := Json.arr.inj h
  induction ps generalizing qs with
  | nil => exact (List.map_eq_nil_iff.1 h.symm).symm
  | cons p ps ih =>
    cases qs with
    | nil => cases h
    | cons q qs =>
      obtain ⟨hp, hps⟩ := List.forall_mem_cons.1 hp
      obtain ⟨hq, hqs⟩ := List.forall_mem_cons.1 hq
      obtain ⟨hhead, htail⟩ := List.cons.inj h
      rw [toJson_inj hp hq hhead, ih hps hqs htail]

/-- The bytes of a list of patches tell it apart from all others, whatever follows them. -/
theorem pack_inj {ps qs : List Patch} (hp : Packable ps) (hq : Packable qs)
    (h : pack ps ++ r = pack qs ++ r') : ps = qs ∧ r = r' := by
  obtain ⟨hj, hr⟩ := MessagePack.encode_inj _ _ hp.short hq.short h
  exact ⟨listJson_inj hp.sound hq.sound hj, hr⟩

end Patch

end LiveTree
