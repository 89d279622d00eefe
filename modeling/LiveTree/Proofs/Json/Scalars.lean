import Mathlib.Data.List.Basic
import LiveTree.Json.Printer
import LiveTree.Json.Reader.Value

namespace LiveTree
set_option autoImplicit true

theorem WordInt.ofInt?_value (n : WordInt) : WordInt.ofInt? n.value = some n :=
  dif_pos n.fits

theorem WordInt.chars_eq_cons (n : WordInt) :
    ∃ c s, n.chars = c :: s ∧ Reader.startsNumber c = true := by
  rw [WordInt.chars]
  split
  · exact ⟨_, _, rfl, rfl⟩
  · obtain ⟨c, s, hcons⟩ := List.exists_cons_of_ne_nil
      (Nat.toDigits_ne_nil : Nat.toDigits 10 n.value.natAbs ≠ [])
    have hc : c.isDigit = true := by
      apply Nat.isDigit_of_mem_toDigits (b := 10) (n := n.value.natAbs) (by decide) (by decide)
      rw [hcons]
      exact List.mem_cons_self
    exact ⟨c, s, hcons, by rw [Reader.startsNumber, hc, Bool.or_true]⟩

namespace Reader

variable {α β : Type}

theorem bind_ok {x : Reader α} (h : x s = .ok (a, s')) (f : α → Reader β) : (x >>= f) s = f a s' := by
  simp only [Bind.bind, StateT.bind, h]
  rfl

theorem next_cons (c : Char) (s : List Char) : next (c :: s) = .ok (c, s) :=
  rfl

theorem peek?_eq (s : List Char) : peek? s = .ok (s.head?, s) :=
  rfl

theorem drop_one_cons (c : Char) (s : List Char) : drop 1 (c :: s) = .ok ((), s) :=
  rfl

theorem get_eq (s : List Char) : (get : Reader (List Char)) s = .ok (s, s) :=
  rfl

theorem map_ok {x : Reader α} (h : x s = .ok (a, s')) (f : α → β) : (f <$> x) s = .ok (f a, s') := by
  simp only [Functor.map, StateT.map, h]
  rfl

/-- Whether a number may go on with this character. -/
def continuesNumber (c : Char) : Bool :=
  c.isDigit || c == '.' || c == 'e' || c == 'E'

/-- A text in front of which a number ends. -/
def Stops (s : List Char) : Prop :=
  ∀ c ∈ s.head?, continuesNumber c = false

theorem stops_nil : Stops [] := by
  intro c hc
  cases hc

theorem stops_cons (h : continuesNumber c = false) (s : List Char) : Stops (c :: s) := by
  intro c' hc
  cases hc
  exact h

theorem peekToken_cons (h : isBlank c = false) (s : List Char) :
    peekToken (c :: s) = .ok (c, c :: s) := by
  have hb : blanks (c :: s) = .ok ((), c :: s) := by
    rw [blanks, List.dropWhile_cons_of_neg (by simp [h])]
  rw [peekToken, bind_ok hb]
  rfl

theorem punctuation_cons (h : isBlank c = false) (s : List Char) :
    punctuation c (c :: s) = .ok ((), s) := by
  rw [punctuation, bind_ok (peekToken_cons h s), if_pos rfl]
  rfl

theorem word_append (w rest : List Char) : word w (w ++ rest) = .ok ((), rest) := by
  induction w with
  | nil => rfl
  | cons c w ih =>
    rw [word, List.cons_append, bind_ok (next_cons _ _), if_pos rfl, ih]

theorem hexDigit?_digitChar (h : n < 16) : hexDigit? (Nat.digitChar n) = some n := by
  revert n
  decide

theorem hex4_cons (ha : hexDigit? a = some i) (hb : hexDigit? b = some j) (hc : hexDigit? c = some k)
    (hd : hexDigit? d = some l) (rest : List Char) :
    hex4 (a :: b :: c :: d :: rest) = .ok (((i * 16 + j) * 16 + k) * 16 + l, rest) := by
  have hsize : ¬[a, b, c, d].foldl (fun n c => n + c.utf8Size) 0 < 4 := by
    have := a.utf8Size_pos
    have := b.utf8Size_pos
    have := c.utf8Size_pos
    have := d.utf8Size_pos
    simp only [List.foldl_cons, List.foldl_nil]
    omega
  have hmap : [a, b, c, d].mapM hexDigit? = some [i, j, k, l] := by
    simp [ha, hb, hc, hd]
  have htake : (a :: b :: c :: d :: rest).take 4 = [a, b, c, d] := rfl
  rw [hex4, bind_ok (get_eq _)]
  simp only [htake, if_neg hsize, hmap]
  rfl

theorem unicodeEscape_control (h : n < 32) (rest : List Char) :
    unicodeEscape ('0' :: '0' :: Nat.digitChar (n / 16) :: Nat.digitChar (n % 16) :: rest) =
      .ok (Char.ofNat n, rest) := by
  have hz : hexDigit? '0' = some 0 := rfl
  have hunit : ((0 * 16 + 0) * 16 + n / 16) * 16 + n % 16 = n := by omega
  have hread := hex4_cons hz hz (hexDigit?_digitChar (by omega : n / 16 < 16))
    (hexDigit?_digitChar (by omega : n % 16 < 16)) rest
  rw [hunit] at hread
  have ht : isTrailing n = false := by simp [isTrailing]; omega
  have hl : isLeading n = false := by simp [isLeading]; omega
  rw [unicodeEscape, bind_ok hread, ht, hl]
  rfl

theorem escape_short (h : shortEscape? e = some c) (hu : e ≠ 'u') (unicode : Reader Char)
    (s : List Char) : escape unicode (e :: s) = .ok (c, s) := by
  rw [escape, bind_ok (next_cons _ _), if_neg hu, h]
  rfl

theorem escape_control (h : n < 32) (s : List Char) :
    escape unicodeEscape ('u' :: '0' :: '0' :: Nat.digitChar (n / 16) :: Nat.digitChar (n % 16) :: s) =
      .ok (Char.ofNat n, s) := by
  rw [escape, bind_ok (next_cons _ _), if_pos rfl, unicodeEscape_control h]

/-- The escape of a character is read as the character, and reading goes on. -/
theorem quoted_escape (c b : Char) (bound s : List Char) :
    quoted unicodeEscape (b :: bound) (Json.escape c ++ s) =
      (do let rest ← quoted unicodeEscape bound; pure (c :: rest) : Reader (List Char)) s := by
  have hslash {e : List Char} (he : escape unicodeEscape (e ++ s) = .ok (c, s)) :
      quoted unicodeEscape (b :: bound) ('\\' :: e ++ s) =
        (do let rest ← quoted unicodeEscape bound; pure (c :: rest) : Reader (List Char)) s := by
    rw [quoted, List.cons_append, bind_ok (next_cons _ _), if_neg (by decide), if_pos rfl, bind_ok he]
  have hshort {e : Char} {n : Nat} (hc : shortEscape? e = some (Char.ofNat n)) (hu : e ≠ 'u')
      (hn : c.toNat = n) : quoted unicodeEscape (b :: bound) (['\\', e] ++ s) =
        (do let rest ← quoted unicodeEscape bound; pure (c :: rest) : Reader (List Char)) s := by
    rw [← hn, Char.ofNat_toNat] at hc
    exact hslash (escape_short hc hu _ s)
  rw [Json.escape]
  split
  · rename_i hc
    subst hc
    exact hslash (escape_short rfl (by decide) _ s)
  split
  · rename_i hc
    subst hc
    exact hslash (escape_short rfl (by decide) _ s)
  split
  · rename_i hquote hback hc
    rw [quoted, List.singleton_append, bind_ok (next_cons _ _), if_neg hquote, if_neg hback,
      if_neg (by omega)]
  · rename_i hc
    split
    · rename_i hn
      exact hshort rfl (by decide) hn
    · rename_i hn
      exact hshort rfl (by decide) hn
    · rename_i hn
      exact hshort rfl (by decide) hn
    · rename_i hn
      exact hshort rfl (by decide) hn
    · rename_i hn
      exact hshort rfl (by decide) hn
    · have hread := escape_control (Nat.lt_of_not_le hc) s
      rw [Char.ofNat_toNat] at hread
      exact hslash hread

theorem quoted_flatMap (cs rest : List Char) {bound : List Char} (h : cs.length < bound.length) :
    quoted unicodeEscape bound (cs.flatMap Json.escape ++ '"' :: rest) = .ok (cs, rest) := by
  induction cs generalizing bound with
  | nil =>
    obtain ⟨b, bound, rfl⟩ := List.exists_cons_of_length_pos h
    rfl
  | cons c cs ih =>
    obtain ⟨b, bound, rfl⟩ := List.exists_cons_of_length_pos (Nat.zero_lt_of_lt h)
    rw [List.flatMap_cons, List.append_assoc, quoted_escape, bind_ok (ih (Nat.lt_of_succ_lt_succ h))]
    rfl

theorem escape_ne_nil (c : Char) : Json.escape c ≠ [] := by
  rw [Json.escape]
  repeat' split
  all_goals exact List.cons_ne_nil _ _

theorem length_flatMap_escape (cs : List Char) : cs.length ≤ (cs.flatMap Json.escape).length := by
  induction cs with
  | nil => exact Nat.le_refl _
  | cons c cs ih =>
    have hpos := List.length_pos_iff.2 (escape_ne_nil c)
    rw [List.flatMap_cons, List.length_append, List.length_cons]
    omega

theorem text_quote (s : String) (rest : List Char) : text (Json.quote s ++ rest) = .ok (s, rest) := by
  have hlen : s.toList.length < (s.toList.flatMap Json.escape ++ '"' :: rest).length := by
    have hle := length_flatMap_escape s.toList
    rw [List.length_append, List.length_cons]
    omega
  have hquote : Json.quote s ++ rest = '"' :: (s.toList.flatMap Json.escape ++ '"' :: rest) := by
    simp [Json.quote]
  rw [hquote, text, textWith, bind_ok (drop_one_cons _ _), bind_ok (get_eq _),
    bind_ok (quoted_flatMap _ rest hlen), String.ofList_toList]
  rfl

section Numbers

variable {ds rest : List Char}

theorem someDigits_append (hd : ∀ c ∈ ds, c.isDigit = true) (hne : ds ≠ []) (hs : Stops rest)
    (atEnd : Fault) : someDigits atEnd (ds ++ rest) = .ok (ds, rest) := by
  obtain ⟨c, ds, rfl⟩ := List.exists_cons_of_ne_nil hne
  have hrest : rest.takeWhile Char.isDigit = [] ∧ rest.dropWhile Char.isDigit = rest := by
    cases rest with
    | nil => exact ⟨rfl, rfl⟩
    | cons c' rest =>
      have hc : ¬c'.isDigit = true := by
        intro hc
        have hstop := hs c' rfl
        simp [continuesNumber, hc] at hstop
      exact ⟨List.takeWhile_cons_of_neg hc, List.dropWhile_cons_of_neg hc⟩
  rw [someDigits, bind_ok (peek?_eq _), List.cons_append, List.head?_cons]
  dsimp only
  rw [if_pos (hd c List.mem_cons_self), digits, ← List.cons_append, List.takeWhile_append_of_pos hd,
    List.dropWhile_append_of_pos hd, hrest.1, hrest.2, List.append_nil]

theorem fractionPart_stops (hs : Stops rest) (atEnd : Fault) :
    fractionPart atEnd rest = .ok (none, rest) := by
  have hne : rest.head? ≠ some '.' := by
    intro hc
    cases hs '.' hc
  rw [fractionPart, bind_ok (peek?_eq _), if_neg hne]
  rfl

theorem exponentPart_stops (hs : Stops rest) (atEnd : Fault) :
    exponentPart atEnd rest = .ok (none, rest) := by
  rw [exponentPart, bind_ok (peek?_eq _)]
  refine congrFun (?_ : _ = (pure none : Reader (Option (Bool × List Char)))) rest
  split
  · rename_i hc
    cases hs 'e' hc
  · rename_i hc
    cases hs 'E' hc
  · rfl

/-- Digits with or without a sign, and no zero in front of others. -/
theorem literal_digits (hd : ∀ c ∈ ds, c.isDigit = true) (hne : ds ≠ [])
    (hz : ds.head? = some '0' → ds.length = 1) (hs : Stops rest) (negative : Bool) (atEnd : Fault) :
    literal atEnd ((if negative then '-' :: ds else ds) ++ rest) =
      .ok (⟨negative, ds, none, none⟩, rest) := by
  have hzero : ¬(ds.head? = some '0' ∧ ds.length ≠ 1) := fun h => h.2 (hz h.1)
  have hbody (negative : Bool) : (do
      let whole ← someDigits atEnd
      if whole.head? = some '0' ∧ whole.length ≠ 1 then fail .malformed
      let fraction ← fractionPart atEnd
      let exponent ← exponentPart atEnd
      pure (Literal.mk negative whole fraction exponent) : Reader Literal) (ds ++ rest) =
        .ok (⟨negative, ds, none, none⟩, rest) := by
    rw [bind_ok (someDigits_append hd hne hs atEnd)]
    dsimp only
    rw [if_neg hzero, bind_ok (fractionPart_stops hs atEnd), bind_ok (exponentPart_stops hs atEnd)]
    rfl
  cases negative with
  | true =>
    rw [if_pos rfl, literal, List.cons_append, bind_ok (peek?_eq _), List.head?_cons, if_pos rfl,
      bind_ok (drop_one_cons _ _)]
    exact hbody true
  | false =>
    have hsign : (ds ++ rest).head? ≠ some '-' := by
      obtain ⟨c, ds, rfl⟩ := List.exists_cons_of_ne_nil hne
      intro hc
      cases hc
      cases hd '-' List.mem_cons_self
    rw [if_neg (by decide), literal, bind_ok (peek?_eq _), if_neg hsign]
    simp only [hsign, decide_false]
    exact hbody false

theorem digitsValue_toDigits (n : Nat) : digitsValue (Nat.toDigits 10 n) = n := by
  have h := Nat.ofDigitChars_ten_toDigits (n := n)
  rw [Nat.ofDigitChars_eq_foldl] at h
  simp only [digitsValue, Nat.mul_comm _ 10]
  exact h

theorem eq_zero_of_head?_toDigits (h : (Nat.toDigits 10 n).head? = some '0') : n = 0 := by
  induction n using Nat.strongRecOn with
  | ind n ih =>
    by_cases hn : n < 10
    · rw [Nat.toDigits_of_lt_base hn, List.head?_cons, Option.some.injEq] at h
      exact Nat.digitChar_eq_zero.1 h
    · rw [Nat.toDigits_of_base_le (by decide) (Nat.le_of_not_lt hn),
        List.head?_append_of_ne_nil _ Nat.toDigits_ne_nil] at h
      have := ih (n / 10) (by omega) h
      omega

theorem number_chars (n : WordInt) (hs : Stops rest) :
    number (n.chars ++ rest) = .ok (.int n, rest) := by
  have hd : ∀ c ∈ Nat.toDigits 10 n.value.natAbs, c.isDigit = true :=
    fun c hc => Nat.isDigit_of_mem_toDigits (by decide) (by decide) hc
  have hz : (Nat.toDigits 10 n.value.natAbs).head? = some '0' →
      (Nat.toDigits 10 n.value.natAbs).length = 1 := by
    intro h
    rw [eq_zero_of_head?_toDigits h]
    rfl
  have hread := literal_digits hd Nat.toDigits_ne_nil hz hs (decide (n.value < 0)) .truncated
  have hint : (Literal.mk (decide (n.value < 0)) (Nat.toDigits 10 n.value.natAbs) none none).int? =
      some n := by
    rw [Literal.int?]
    dsimp only
    rw [digitsValue_toDigits]
    by_cases hneg : n.value < 0
    · rw [if_pos (decide_eq_true hneg), if_neg (by omega), Int.ofNat_natAbs_of_nonpos (by omega),
        Int.neg_neg, WordInt.ofInt?_value]
    · rw [if_neg (by simp [hneg]), Int.natAbs_of_nonneg (by omega), WordInt.ofInt?_value]
  rw [number, WordInt.chars]
  simp only [decide_eq_true_eq] at hread
  rw [bind_ok hread, Literal.number?, hint]
  rfl

theorem isBlank_of_startsNumber (h : startsNumber c = true) : isBlank c = false := by
  rw [Bool.eq_false_iff]
  intro hb
  simp only [isBlank, Bool.or_eq_true, beq_iff_eq] at hb
  obtain ((rfl | rfl) | rfl) | rfl := hb
  all_goals cases h

end Numbers

end Reader

end LiveTree
