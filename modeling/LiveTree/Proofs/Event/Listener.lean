import Mathlib.Data.List.Forall2
import LiveTree.Document.Element
import LiveTree.Event.Effect
import LiveTree.Proofs.Json.Reading

namespace LiveTree
set_option autoImplicit true

theorem mapM_eq_some_iff {α β : Type} {f : α → Option β} {xs : List α} {ys : List β} :
    xs.mapM f = some ys ↔ List.Forall₂ (fun x y => f x = some y) xs ys := by
  induction xs generalizing ys with
  | nil => simp [eq_comm]
  | cons x xs ih =>
    rw [List.mapM_cons, List.forall₂_cons_left_iff]
    constructor
    · intro h
      obtain ⟨y, hy, h⟩ := Option.bind_eq_some_iff.1 h
      obtain ⟨rest, hrest, h⟩ := Option.bind_eq_some_iff.1 h
      cases h
      exact ⟨y, rest, hy, ih.1 hrest, rfl⟩
    · rintro ⟨y, rest, hy, hrest, rfl⟩
      rw [hy, ih.2 hrest]
      rfl

theorem exists_of_mem_mapM {α β : Type} {f : α → Option β} {xs : List α} {ys : List β} {y : β}
    (h : xs.mapM f = some ys) (hy : y ∈ ys) : ∃ x ∈ xs, f x = some y := by
  obtain ⟨hlen, hget⟩ := List.forall₂_iff_get.1 (mapM_eq_some_iff.1 h)
  obtain ⟨k, rfl⟩ := List.get_of_mem hy
  have hk : k.val < xs.length := Nat.lt_of_lt_of_eq k.isLt hlen.symm
  exact ⟨_, List.get_mem _ ⟨k, hk⟩, hget k hk k.isLt⟩

namespace Effect

/-- A call is an object that names a method. -/
def NamesMethod (call : Json) (method : String) : Prop :=
  ∃ fields, call = .obj fields ∧ fields.lookup "method" = some (.str method)

def IsCallList (v : Json) : Prop :=
  ∃ calls, v = .arr calls ∧ ∀ call ∈ calls, ∃ method, NamesMethod call method

/-- The effects that the entries of a descriptor spell, in the order of their keys. -/
inductive Spells : List (String × Json) → List Effect → Prop
  | nil : Spells [] []
  | write (value : Json) (hk : key ≠ "$call") (h : Spells entries effects) :
    Spells ((key, value) :: entries) (.write key value :: effects)
  | calls (hc : List.Forall₂ NamesMethod calls methods) (h : Spells entries effects) :
    Spells (("$call", .arr calls) :: entries) (methods.map Effect.call ++ effects)

theorem ofCall?_eq_some_iff :
    ofCall? c = some effect ↔ ∃ method, NamesMethod c method ∧ effect = .call method := by
  constructor
  · intro h
    obtain ⟨v, hv, h⟩ := Option.bind_eq_some_iff.1 h
    obtain ⟨method, hm, rfl⟩ := Option.map_eq_some_iff.1 h
    cases c with
    | obj fields =>
      cases v with
      | str s =>
        cases hm
        exact ⟨_, ⟨fields, rfl, hv⟩, rfl⟩
      | _ => cases hm
    | _ => cases hv
  · rintro ⟨method, ⟨fields, rfl, hf⟩, rfl⟩
    rw [ofCall?, Json.field?, hf]
    rfl

theorem ofCalls?_arr (h : List.Forall₂ NamesMethod calls methods) :
    ofCalls? (.arr calls) = some (methods.map Effect.call) := by
  rw [ofCalls?, mapM_eq_some_iff, List.forall₂_map_right_iff]
  apply h.imp
  intro c method hc
  exact ofCall?_eq_some_iff.2 ⟨method, hc, rfl⟩

theorem isCallList_of_ofCalls? (h : ofCalls? v = some effects) : IsCallList v := by
  cases v with
  | arr calls =>
    have hall : List.Forall₂ (fun c effect => ofCall? c = some effect) calls effects :=
      mapM_eq_some_iff.1 h
    refine ⟨calls, rfl, ?_⟩
    clear h
    induction hall with
    | nil =>
      intro c hm
      cases hm
    | cons hc _ ih =>
      obtain ⟨method, hn, -⟩ := ofCall?_eq_some_iff.1 hc
      exact List.forall_mem_cons.2 ⟨⟨method, hn⟩, ih⟩
  | _ => cases h

theorem ofDescriptor?_cons (entry : String × Json) (entries : List (String × Json)) :
    ofDescriptor? (.obj (entry :: entries)) = (ofPair? entry).bind fun effects =>
      (ofDescriptor? (.obj entries)).map (effects ++ ·) := by
  rw [ofDescriptor?, ofDescriptor?, List.mapM_cons]
  cases ofPair? entry with
  | none => rfl
  | some effects => cases entries.mapM ofPair? <;> rfl

theorem ofPair?_call (v : Json) : ofPair? ("$call", v) = ofCalls? v :=
  if_pos rfl

theorem ofPair?_write (h : key ≠ "$call") (v : Json) : ofPair? (key, v) = some [.write key v] :=
  if_neg h

theorem Spells.ofDescriptor? (h : Spells entries effects) :
    Effect.ofDescriptor? (.obj entries) = some effects := by
  induction h with
  | nil => rfl
  | write value hk _ ih =>
    rw [ofDescriptor?_cons, ofPair?_write hk, ih]
    rfl
  | calls hc _ ih =>
    rw [ofDescriptor?_cons, ofPair?_call, ofCalls?_arr hc, ih]
    rfl

/-- A malformed call list spoils the whole descriptor, wherever it stands. -/
theorem ofDescriptor?_malformed (h : List.lookup "$call" entries = some v) (hv : ¬IsCallList v) :
    ofDescriptor? (.obj entries) = none := by
  induction entries with
  | nil => cases h
  | cons entry entries ih =>
    obtain ⟨key, w⟩ := entry
    rw [OrderedMap.lookup_cons] at h
    rw [ofDescriptor?_cons]
    by_cases hk : "$call" = key
    · subst hk
      cases h
      cases hc : ofCalls? w with
      | none => rw [ofPair?_call, hc, Option.bind_none]
      | some effects => exact (hv (isCallList_of_ofCalls? hc)).elim
    · rw [if_neg hk] at h
      rw [ofPair?_write (Ne.symm hk), ih h]
      rfl

end Effect

namespace Element

/-- An element declares a descriptor for a listener: its table is the text of an object with one. -/
def Declares (x : Element) (listener : String) (descriptor : Json) : Prop :=
  ∃ raw table, x.attribute? "listeners" = some (.str raw) ∧ Json.parse raw = .ok (.obj table) ∧
    table.lookup listener = some descriptor

theorem declares_iff {x : Element} : x.Declares listener descriptor ↔
    (Attribute.decode (x.attribute? "listeners") (.obj [])).field? listener = some descriptor := by
  rw [Declares]
  cases x.attribute? "listeners" with
  | none => simp [Attribute.decode, Json.field?]
  | some v =>
    cases v with
    | str raw =>
      rw [Attribute.decode, Attribute.parseD, Decoder.decodeD, Option.map_some, Decoder.decode]
      cases hp : (Reader.value Json.maxDepth).run raw with
      | error fault => simp [Json.parse, hp, Json.field?]
      | ok table => cases table <;> simp [Json.parse, hp, Json.field?]
    | _ => simp [Attribute.decode, Json.field?]

theorem declares_text {x : Element} (h : (x.attribute? "listeners").bind Json.str? = some raw)
    (ht : raw = (Json.obj table).text) (hk : (Json.obj table).isDistinct = true)
    (he : (Json.obj table).isExact = true) (hl : (Json.obj table).levels ≤ 127) :
    x.Declares listener descriptor ↔ table.lookup listener = some descriptor := by
  have hp : Json.parse raw = .ok (.obj table) :=
    ht ▸ (Reader.takes_value (Json.readable_of_levels _ hl hk) he).run
  obtain ⟨v, hv, hs⟩ := Option.bind_eq_some_iff.1 h
  cases v with
  | str s =>
    cases hs
    simp [Declares, hv, hp]
  | _ => cases hs

end Element

namespace Effect

theorem ofListener_declared {x : Element} (h : x.Declares listener descriptor) (component : String) :
    ofListener (x.attribute? "listeners") component listener =
      ofDescriptor descriptor component listener := by
  rw [ofListener, Element.declares_iff.1 h]

theorem ofListener_undeclared {x : Element} (h : ∀ descriptor, ¬x.Declares listener descriptor)
    (component : String) : ofListener (x.attribute? "listeners") component listener = .ok [] := by
  rw [ofListener]
  split
  · rename_i descriptor hf
    exact (h descriptor (Element.declares_iff.2 hf)).elim
  · rfl

end Effect

end LiveTree
