import Mathlib.Data.List.Forall2
import LiveTree.Proofs.Json.Scalars
import LiveTree.Proofs.Json.Yields

namespace LiveTree
set_option autoImplicit true

namespace Json

mutual

/-- Whether no double occurs in a value. -/
def isExact : Json → Bool
  | .num (.double _) => false
  | .arr items => itemsExact items
  | .obj fields => fieldsExact fields
  | _ => true

def itemsExact : List Json → Bool
  | [] => true
  | item :: rest => isExact item && itemsExact rest

def fieldsExact : List (String × Json) → Bool
  | [] => true
  | (_, value) :: rest => isExact value && fieldsExact rest

end

theorem itemsExact_eq_true {items : List Json} :
    itemsExact items = true ↔ ∀ item ∈ items, item.isExact = true := by
  induction items with
  | nil => simp [itemsExact]
  | cons item rest ih => rw [itemsExact, Bool.and_eq_true, ih, List.forall_mem_cons]

theorem fieldsExact_eq_true {fields : List (String × Json)} :
    fieldsExact fields = true ↔ ∀ entry ∈ fields, entry.2.isExact = true := by
  induction fields with
  | nil => simp [fieldsExact]
  | cons entry rest ih => rw [fieldsExact, Bool.and_eq_true, ih, List.forall_mem_cons]

/-- Lists and objects nest at most so many levels, and no object gives a key twice. -/
def Readable : Nat → Json → Prop
  | depth + 1, .arr items => ∀ item ∈ items, Readable depth item
  | depth + 1, .obj fields =>
    (OrderedMap.keys fields).Nodup ∧ ∀ entry ∈ fields, Readable depth entry.2
  | 0, .arr _ => False
  | 0, .obj _ => False
  | _, _ => True

theorem Readable.succ (h : Readable depth v) : Readable (depth + 1) v := by
  induction depth generalizing v with
  | zero =>
    cases v with
    | arr items => exact h.elim
    | obj fields => exact h.elim
    | _ => trivial
  | succ depth ih =>
    cases v with
    | arr items => exact fun item hm => ih (h item hm)
    | obj fields => exact ⟨h.1, fun entry hm => ih (h.2 entry hm)⟩
    | _ => trivial

theorem Readable.mono (h : Readable depth v) (hle : depth ≤ depth') : Readable depth' v := by
  induction hle with
  | refl => exact h
  | step _ ih => exact ih.succ

mutual

def levels : Json → Nat
  | .arr items => itemLevels items + 1
  | .obj fields => fieldLevels fields + 1
  | _ => 0

def itemLevels : List Json → Nat
  | [] => 0
  | item :: rest => max (levels item) (itemLevels rest)

def fieldLevels : List (String × Json) → Nat
  | [] => 0
  | (_, value) :: rest => max (levels value) (fieldLevels rest)

end

mutual

def isDistinct : Json → Bool
  | .arr items => itemsDistinct items
  | .obj fields => decide (OrderedMap.keys fields).Nodup && fieldsDistinct fields
  | _ => true

def itemsDistinct : List Json → Bool
  | [] => true
  | item :: rest => isDistinct item && itemsDistinct rest

def fieldsDistinct : List (String × Json) → Bool
  | [] => true
  | (_, value) :: rest => isDistinct value && fieldsDistinct rest

end

mutual

theorem readable_of_levels (v : Json) (hl : v.levels ≤ depth) (hd : v.isDistinct = true) :
    Readable depth v := by
  match v with
  | .arr items =>
    rw [levels] at hl
    obtain ⟨depth, rfl⟩ := Nat.exists_eq_add_of_le' (Nat.le_of_add_left_le hl)
    rw [isDistinct] at hd
    exact readable_of_itemLevels items (Nat.le_of_succ_le_succ hl) hd
  | .obj fields =>
    rw [levels] at hl
    obtain ⟨depth, rfl⟩ := Nat.exists_eq_add_of_le' (Nat.le_of_add_left_le hl)
    rw [isDistinct, Bool.and_eq_true, decide_eq_true_eq] at hd
    exact ⟨hd.1, readable_of_fieldLevels fields (Nat.le_of_succ_le_succ hl) hd.2⟩
  | .null | .bool _ | .num _ | .str _ => cases depth <;> trivial

theorem readable_of_itemLevels (items : List Json) (hl : itemLevels items ≤ depth)
    (hd : itemsDistinct items = true) : ∀ item ∈ items, Readable depth item := by
  match items with
  | [] => exact fun _ hm => (List.not_mem_nil hm).elim
  | item :: rest =>
    rw [itemLevels, Nat.max_le] at hl
    rw [itemsDistinct, Bool.and_eq_true] at hd
    have hitem := readable_of_levels item hl.1 hd.1
    exact List.forall_mem_cons.2 ⟨hitem, readable_of_itemLevels rest hl.2 hd.2⟩

theorem readable_of_fieldLevels (fields : List (String × Json)) (hl : fieldLevels fields ≤ depth)
    (hd : fieldsDistinct fields = true) : ∀ entry ∈ fields, Readable depth entry.2 := by
  match fields with
  | [] => exact fun _ hm => (List.not_mem_nil hm).elim
  | (_, value) :: rest =>
    rw [fieldLevels, Nat.max_le] at hl
    rw [fieldsDistinct, Bool.and_eq_true] at hd
    have hvalue := readable_of_levels value hl.1 hd.1
    exact List.forall_mem_cons.2 ⟨hvalue, readable_of_fieldLevels rest hl.2 hd.2⟩

end

/-- The first character of a value is no blank, and it closes no list. -/
theorem chars_eq_cons (h : isExact v = true) :
    ∃ c s, v.chars = c :: s ∧ Reader.isBlank c = false ∧ c ≠ ']' := by
  cases v with
  | null => exact ⟨'n', _, rfl, rfl, by decide⟩
  | bool b =>
    cases b with
    | true => exact ⟨'t', _, rfl, rfl, by decide⟩
    | false => exact ⟨'f', _, rfl, rfl, by decide⟩
  | num n =>
    cases n with
    | int n =>
      obtain ⟨c, s, hcons, hc⟩ := n.chars_eq_cons
      refine ⟨c, s, ?_, Reader.isBlank_of_startsNumber hc, ?_⟩
      · rw [chars, Number.chars, hcons]
      · rintro rfl
        cases hc
    | double x => cases h
  | str s => exact ⟨'"', _, rfl, rfl, by decide⟩
  | arr items => exact ⟨'[', _, by rw [chars], rfl, by decide⟩
  | obj fields => exact ⟨'{', _, by rw [chars], rfl, by decide⟩

theorem itemChars_first (v : Json) (vs : List Json) :
    itemChars true (v :: vs) = v.chars ++ itemChars false vs := by
  rw [itemChars, if_pos rfl, List.nil_append]

theorem itemChars_next (v : Json) (vs : List Json) :
    itemChars false (v :: vs) = ',' :: (v.chars ++ itemChars false vs) := by
  rw [itemChars, if_neg (by decide), List.singleton_append]

theorem fieldChars_first (key : String) (v : Json) (fields : List (String × Json)) :
    fieldChars true ((key, v) :: fields) =
      quote key ++ ':' :: (v.chars ++ fieldChars false fields) := by
  rw [fieldChars, if_pos rfl, List.nil_append]

theorem fieldChars_next (key : String) (v : Json) (fields : List (String × Json)) :
    fieldChars false ((key, v) :: fields) =
      ',' :: (quote key ++ ':' :: (v.chars ++ fieldChars false fields)) := by
  rw [fieldChars, if_neg (by decide), List.singleton_append]

theorem length_itemChars (h : ∀ item ∈ items, isExact item = true) (first : Bool) :
    items.length < (itemChars first items).length := by
  induction items generalizing first with
  | nil =>
    rw [itemChars]
    exact Nat.one_pos
  | cons item rest ih =>
    obtain ⟨hi, hrest⟩ := List.forall_mem_cons.1 h
    obtain ⟨c, s, hcons, -⟩ := chars_eq_cons hi
    have := ih hrest false
    rw [itemChars, hcons, List.length_append, List.length_append, List.length_cons, List.length_cons]
    omega

theorem length_fieldChars (fields : List (String × Json)) (first : Bool) :
    fields.length < (fieldChars first fields).length := by
  induction fields generalizing first with
  | nil =>
    rw [fieldChars]
    exact Nat.one_pos
  | cons entry rest ih =>
    have := ih false
    simp only [fieldChars, List.length_append, List.length_cons]
    omega

end Json

namespace Reader

variable {α σ : Type}

theorem stops_itemChars (items : List Json) (rest : List Char) :
    Stops (Json.itemChars false items ++ rest) := by
  cases items with
  | nil =>
    rw [Json.itemChars]
    exact stops_cons rfl _
  | cons item items =>
    rw [Json.itemChars]
    exact stops_cons rfl _

theorem stops_fieldChars (fields : List (String × Json)) (rest : List Char) :
    Stops (Json.fieldChars false fields ++ rest) := by
  cases fields with
  | nil =>
    rw [Json.fieldChars]
    exact stops_cons rfl _
  | cons entry fields =>
    rw [Json.fieldChars]
    exact stops_cons rfl _

/-- A reader takes the text of a value off, and answers `a`. -/
def Takes (r : Reader α) (v : Json) (a : α) : Prop :=
  ∀ rest, Stops rest → r (v.chars ++ rest) = .ok (a, rest)

theorem items_itemChars {item : Reader α} (h : List.Forall₂ (Takes item) vs as)
    (he : ∀ v ∈ vs, v.isExact = true) (first : Bool) {bound : List Char}
    (hb : vs.length < bound.length) (rest : List Char) :
    items item first bound (Json.itemChars first vs ++ rest) = .ok (as, rest) := by
  induction h generalizing first bound with
  | nil =>
    obtain ⟨b, bound, rfl⟩ := List.exists_cons_of_length_pos hb
    rw [Json.itemChars, items, List.singleton_append, bind_ok (peekToken_cons rfl _), if_pos rfl]
    rfl
  | cons hv _ ih =>
    rename_i v a vs as _
    obtain ⟨b, bound, rfl⟩ := List.exists_cons_of_length_pos (Nat.zero_lt_of_lt hb)
    obtain ⟨hev, hevs⟩ := List.forall_mem_cons.1 he
    obtain ⟨c, s, hcons, hblank, hclose⟩ := Json.chars_eq_cons hev
    have hhead := hv _ (stops_itemChars vs rest)
    have htail := ih hevs false (Nat.lt_of_succ_lt_succ hb)
    have hrest : (do
        let head ← item
        let tail ← items item false bound
        pure (head :: tail) : Reader (List α)) (v.chars ++ (Json.itemChars false vs ++ rest)) =
          .ok (a :: as, rest) := by
      rw [bind_ok hhead, bind_ok htail]
      rfl
    rw [hcons, List.cons_append] at hrest
    cases first with
    | true =>
      rw [Json.itemChars_first, List.append_assoc, hcons, List.cons_append, items,
        bind_ok (peekToken_cons hblank _), if_neg hclose]
      exact hrest
    | false =>
      rw [Json.itemChars_next, List.cons_append, List.append_assoc, hcons, List.cons_append, items,
        bind_ok (peekToken_cons rfl _), if_neg (by decide), Bool.not_false, if_pos rfl,
        bind_ok (punctuation_cons rfl _)]
      dsimp only
      rw [bind_ok (peekToken_cons hblank _), if_neg hclose]
      exact hrest

theorem takes_list {item : Reader α} (h : List.Forall₂ (Takes item) vs as)
    (he : ∀ v ∈ vs, v.isExact = true) : Takes (list item) (.arr vs) as := by
  intro rest _
  have hlen := Json.length_itemChars he true
  have hb : vs.length < (Json.itemChars true vs ++ rest).length := by
    rw [List.length_append]
    omega
  rw [Json.chars, List.cons_append, list, bind_ok (punctuation_cons rfl _), bind_ok (get_eq _),
    items_itemChars h he true hb rest]

/-- Reading members one after the other takes what was gathered from one state to another. -/
inductive Gathers (member : σ → String → Reader σ) : List (String × Json) → σ → σ → Prop
  | nil {gathered : σ} : Gathers member [] gathered gathered
  | cons {gathered gathered' final : σ} : (∀ rest, Stops rest →
        member gathered name (':' :: (v.chars ++ rest)) = .ok (gathered', rest)) →
      Gathers member fields gathered' final →
      Gathers member ((name, v) :: fields) gathered final

theorem key_quote (s : String) (rest : List Char) :
    key text (Json.quote s ++ rest) = .ok (s, rest) := by
  have hquote : Json.quote s ++ rest = '"' :: (s.toList.flatMap Json.escape ++ ['"'] ++ rest) := rfl
  rw [key, hquote, bind_ok (peekToken_cons rfl _), ← hquote]
  exact text_quote s rest

theorem members_fieldChars {member : σ → String → Reader σ} (h : Gathers member fields gathered final)
    (first : Bool) {bound : List Char} (hb : fields.length < bound.length) (rest : List Char) :
    members text member first gathered bound (Json.fieldChars first fields ++ rest) =
      .ok (final, rest) := by
  induction h generalizing first bound with
  | nil =>
    obtain ⟨b, bound, rfl⟩ := List.exists_cons_of_length_pos hb
    rw [Json.fieldChars, members, List.singleton_append, bind_ok (peekToken_cons rfl _), if_pos rfl]
    rfl
  | cons hmember _ ih =>
    rename_i name fields v gathered gathered' final _
    obtain ⟨b, bound, rfl⟩ := List.exists_cons_of_length_pos (Nat.zero_lt_of_lt hb)
    have hhead := hmember _ (stops_fieldChars fields rest)
    have htail := ih false (Nat.lt_of_succ_lt_succ hb)
    have hrest : (do
        let gathered ← member gathered (← key text)
        members text member false gathered bound : Reader σ)
          (Json.quote name ++ ':' :: (v.chars ++ (Json.fieldChars false fields ++ rest))) =
            .ok (final, rest) := by
      rw [bind_ok (key_quote _ _), bind_ok hhead, htail]
    cases first with
    | true =>
      rw [Json.fieldChars_first, List.append_assoc, List.cons_append, List.append_assoc, members,
        Json.quote, List.cons_append, List.cons_append, bind_ok (peekToken_cons rfl _),
        if_neg (by decide)]
      exact hrest
    | false =>
      rw [Json.fieldChars_next, List.cons_append, List.append_assoc, List.cons_append,
        List.append_assoc, members, bind_ok (peekToken_cons rfl _), if_neg (by decide), Bool.not_false,
        if_pos rfl, bind_ok (punctuation_cons rfl _)]
      exact hrest

theorem takes_object {member : σ → String → Reader σ} (h : Gathers member fields start final) :
    Takes (object text member start) (.obj fields) final := by
  intro rest _
  have hlen := Json.length_fieldChars fields true
  have hb : fields.length < (Json.fieldChars true fields ++ rest).length := by
    rw [List.length_append]
    omega
  rw [Json.chars, List.cons_append, object, bind_ok (punctuation_cons rfl _), bind_ok (get_eq _),
    members_fieldChars h true hb rest]

theorem gathers_entry {value : Reader α} {m : OrderedMap α}
    (h : List.Forall₂ (fun field entry => field.1 = entry.1 ∧ Takes value field.2 entry.2) fields entries)
    (hk : (m ++ entries).keys.Nodup) : Gathers (entry value) fields m (m ++ entries) := by
  induction h generalizing m with
  | nil =>
    rw [List.append_nil]
    exact .nil
  | cons hfield _ ih =>
    rename_i field added fields entries _
    obtain ⟨key, v⟩ := field
    obtain ⟨rfl, hv⟩ := hfield
    have hinsert := OrderedMap.insert_of_nodup hk
    rw [List.append_cons] at hk ⊢
    apply Gathers.cons _ (ih hk)
    intro rest hs
    rw [entry, bind_ok (punctuation_cons rfl _), bind_ok (hv rest hs), hinsert]
    rfl

theorem value_scalar (hb : isBlank c = false) (hl : c ≠ '[') (ho : c ≠ '{') (depth : Nat)
    (s : List Char) : value depth (c :: s) = scalar c (c :: s) := by
  cases depth with
  | zero => rw [value, bind_ok (peekToken_cons hb s)]
  | succ depth => rw [value, bind_ok (peekToken_cons hb s), if_neg hl, if_neg ho]

theorem takes_number (n : WordInt) (depth : Nat) :
    Takes (value depth) (.num (.int n)) (.num (.int n)) := by
  intro rest hs
  obtain ⟨c, s, hcons, hc⟩ := n.chars_eq_cons
  have hne {c' : Char} (h : startsNumber c' = false) : c ≠ c' := by
    rintro rfl
    rw [hc] at h
    cases h
  have hread := number_chars n hs
  rw [Json.chars, Number.chars]
  rw [hcons, List.cons_append] at hread ⊢
  rw [value_scalar (isBlank_of_startsNumber hc) (hne rfl) (hne rfl), scalar, if_neg (hne rfl),
    if_neg (hne rfl), if_neg (hne rfl), if_neg (hne rfl), if_pos hc, map_ok hread]

theorem takes_text (t : String) (depth : Nat) : Takes (value depth) (.str t) (.str t) := by
  intro rest _
  have hquote : Json.quote t ++ rest = '"' :: (t.toList.flatMap Json.escape ++ ['"'] ++ rest) := rfl
  rw [Json.chars, hquote, value_scalar rfl (by decide) (by decide), scalar, if_neg (by decide),
    if_neg (by decide), if_neg (by decide), if_pos rfl, ← hquote, map_ok (text_quote t rest)]

theorem takes_scalar (h : Json.Readable 0 v) (he : v.isExact = true) (depth : Nat) :
    Takes (value depth) v v := by
  have hword (w rest : List Char) (hw : value depth (w ++ rest) =
      (do word w; pure v : Reader Json) (w ++ rest)) : value depth (w ++ rest) = .ok (v, rest) := by
    rw [hw, bind_ok (word_append w rest)]
    rfl
  cases v with
  | null =>
    intro rest _
    exact hword "null".toList rest (value_scalar rfl (by decide) (by decide) depth _)
  | bool b =>
    intro rest _
    cases b with
    | true => exact hword "true".toList rest (value_scalar rfl (by decide) (by decide) depth _)
    | false => exact hword "false".toList rest (value_scalar rfl (by decide) (by decide) depth _)
  | num n =>
    cases n with
    | int n => exact takes_number n depth
    | double x => cases he
  | str t => exact takes_text t depth
  | arr items => exact h.elim
  | obj fields => exact h.elim

/-- A value without doubles reads back from its text. -/
theorem takes_value (h : Json.Readable depth v) (he : v.isExact = true) :
    Takes (value depth) v v := by
  induction depth generalizing v with
  | zero => exact takes_scalar h he 0
  | succ depth ih =>
    cases v with
    | arr items =>
      rw [Json.isExact, Json.itemsExact_eq_true] at he
      have hitems : List.Forall₂ (Takes (value depth)) items items :=
        List.forall₂_same.2 fun item hm => ih (h item hm) (he item hm)
      intro rest hs
      have hread := takes_list hitems he rest hs
      rw [Json.chars, List.cons_append] at hread ⊢
      rw [value, bind_ok (peekToken_cons rfl _), if_pos rfl, map_ok hread]
    | obj fields =>
      rw [Json.isExact, Json.fieldsExact_eq_true] at he
      have hfields : List.Forall₂ (fun field entry =>
          field.1 = entry.1 ∧ Takes (value depth) field.2 entry.2) fields fields :=
        List.forall₂_same.2 fun field hm => ⟨rfl, ih (h.2 field hm) (he field hm)⟩
      intro rest hs
      have hread := takes_object (gathers_entry (m := []) hfields h.1) rest hs
      rw [Json.chars, List.cons_append] at hread ⊢
      rw [value, bind_ok (peekToken_cons rfl _), if_neg (by decide), if_pos rfl, map_ok hread]
      rfl
    | _ =>
      apply takes_scalar _ he
      trivial

theorem Takes.run {r : Reader α} (h : Takes r v a) : r.run v.text = .ok a := by
  have hread := h [] stops_nil
  rw [List.append_nil] at hread
  rw [Reader.run, Json.text, String.toList_ofList, hread]
  rfl

theorem yields_scalar (c : Char) (depth : Nat) : Yields (scalar c) (Json.Readable depth) := by
  have hplain {v : Json} (h : Json.Readable 0 v) : Json.Readable depth v := h.mono (Nat.zero_le _)
  rw [scalar]
  split
  · exact .after fun _ => .pure (hplain trivial)
  split
  · exact .after fun _ => .pure (hplain trivial)
  split
  · exact .after fun _ => .pure (hplain trivial)
  split
  · exact .map (P := fun _ => True) (fun _ _ _ _ => trivial) fun _ _ => hplain trivial
  split
  · exact .map (P := fun _ => True) (fun _ _ _ _ => trivial) fun _ _ => hplain trivial
  · exact .fail _

/-- What is read nests no deeper than allowed, and gives no key of an object twice. -/
theorem yields_value (depth : Nat) : Yields (value depth) (Json.Readable depth) := by
  induction depth with
  | zero => exact .after fun c => yields_scalar c 0
  | succ depth ih =>
    rw [value]
    refine .after fun c => ?_
    split
    · exact .map (.list ih) fun items hitems => hitems
    · split
      · exact .map (.entries ih) fun fields hfields => hfields
      · exact yields_scalar c _

end Reader

end LiveTree
