import LiveTree.Proofs.Json.Reading
import LiveTree.Tree

namespace LiveTree.Tree
set_option autoImplicit true

mutual

/-- The components of a tree, parents first. -/
def nodes : Tree → List Tree
  | ⟨component, props, slots⟩ => ⟨component, props, slots⟩ :: slotNodes slots

def slotNodes : List (String × List Tree) → List Tree
  | [] => []
  | (_, children) :: rest => childNodes children ++ slotNodes rest

def childNodes : List Tree → List Tree
  | [] => []
  | child :: rest => nodes child ++ childNodes rest

end

/-- A component gives no prop twice, and no slot. -/
def HasDistinctKeys (t : Tree) : Prop :=
  (OrderedMap.keys t.props).Nodup ∧ (OrderedMap.keys t.slots).Nodup

instance (t : Tree) : Decidable t.HasDistinctKeys :=
  inferInstanceAs (Decidable (_ ∧ _))

def Distinct (t : Tree) : Prop :=
  ∀ node ∈ t.nodes, node.HasDistinctKeys

instance (t : Tree) : Decidable t.Distinct :=
  inferInstanceAs (Decidable (∀ node ∈ t.nodes, _))

theorem childNodes_eq (children : List Tree) : childNodes children = children.flatMap nodes := by
  induction children with
  | nil => rw [childNodes, List.flatMap_nil]
  | cons child rest ih => rw [childNodes, List.flatMap_cons, ih]

theorem slotNodes_eq (slots : List (String × List Tree)) :
    slotNodes slots = slots.flatMap (fun entry => entry.2.flatMap nodes) := by
  induction slots with
  | nil => rw [slotNodes, List.flatMap_nil]
  | cons entry rest ih => rw [slotNodes, List.flatMap_cons, ih, childNodes_eq]

theorem forall_mem_nodes {t : Tree} {P : Tree → Prop} : (∀ node ∈ t.nodes, P node) ↔
    P t ∧ ∀ entry ∈ t.slots, ∀ child ∈ entry.2, ∀ node ∈ child.nodes, P node := by
  obtain ⟨component, props, slots⟩ := t
  rw [nodes, List.forall_mem_cons, slotNodes_eq]
  simp only [List.forall_mem_flatMap]

theorem distinct_iff {t : Tree} : t.Distinct ↔
    t.HasDistinctKeys ∧ ∀ entry ∈ t.slots, ∀ child ∈ entry.2, child.Distinct :=
  forall_mem_nodes

theorem Distinct.withProp {t : Tree} (h : t.Distinct) (key : String) (value : Json) :
    (t.withProp key value).Distinct := by
  obtain ⟨⟨hprops, hslots⟩, hchildren⟩ := distinct_iff.1 h
  exact distinct_iff.2 ⟨⟨OrderedMap.nodup_keys_update hprops key _, hslots⟩, hchildren⟩

/-- A component as it is read: no key is given twice, and every prop can be read again. -/
def IsRead (t : Tree) : Prop :=
  t.HasDistinctKeys ∧ ∀ entry ∈ t.props, entry.2.Readable Json.maxDepth

structure Draft.IsRead (draft : Draft) : Prop where
  props : ∀ props ∈ draft.props, (OrderedMap.keys props).Nodup ∧
    ∀ entry ∈ props, entry.2.Readable Json.maxDepth
  slots : ∀ slots ∈ draft.slots, (OrderedMap.keys slots).Nodup ∧
    ∀ entry ∈ slots, ∀ child ∈ entry.2, ∀ node ∈ child.nodes, node.IsRead

theorem Draft.IsRead.finish? {draft : Draft} (h : draft.IsRead) (hf : draft.finish? = some t) :
    ∀ node ∈ t.nodes, node.IsRead := by
  obtain ⟨component, hcomponent, rfl⟩ := Option.map_eq_some_iff.1 hf
  obtain ⟨component?, props?, slots?⟩ := draft
  have hprops : (OrderedMap.keys (props?.getD [])).Nodup ∧
      ∀ entry ∈ props?.getD [], entry.2.Readable Json.maxDepth := by
    cases props? with
    | none => exact ⟨List.nodup_nil, fun _ he => (List.not_mem_nil he).elim⟩
    | some props => exact h.props props rfl
  have hslots : (OrderedMap.keys (slots?.getD [])).Nodup ∧
      ∀ entry ∈ slots?.getD [], ∀ child ∈ entry.2, ∀ node ∈ child.nodes, node.IsRead := by
    cases slots? with
    | none => exact ⟨List.nodup_nil, fun _ he => (List.not_mem_nil he).elim⟩
    | some slots => exact h.slots slots rfl
  exact forall_mem_nodes.2 ⟨⟨⟨hprops.1, hslots.1⟩, hprops.2⟩, hslots.2⟩

theorem yields_fields {child : Decoder Tree} (hle : depth ≤ Json.maxDepth)
    (h : ∀ d < depth, (child d).Yields (fun t => ∀ node ∈ t.nodes, node.IsRead)) :
    ∀ f ∈ fields child, ∀ draft : Draft, draft.IsRead → (f.read draft depth).Yields Draft.IsRead := by
  intro f hf draft hd
  rw [fields, List.mem_cons, List.mem_cons, List.mem_singleton] at hf
  obtain rfl | rfl | rfl := hf
  · exact .map (P := fun _ => True) (fun _ _ _ _ => trivial) fun component _ => ⟨hd.props, hd.slots⟩
  · have hvalue (d : Nat) (hlt : d < depth) : (Reader.value d).Yields (Json.Readable Json.maxDepth) :=
      (Reader.yields_value d).imp fun v hv => hv.mono (by omega)
    refine .map (Decoder.yields_map hvalue) ?_
    intro props hprops
    exact ⟨fun _ hm => Option.mem_some.1 hm ▸ hprops, hd.slots⟩
  · have hlist (d : Nat) (hlt : d < depth) : (Decoder.list child d).Yields
        (∀ t ∈ ·, ∀ node ∈ t.nodes, node.IsRead) :=
      Decoder.yields_list fun d' hlt' => h d' (by omega)
    refine .map (Decoder.yields_map hlist) ?_
    intro slots hslots
    exact ⟨hd.props, fun _ hm => Option.mem_some.1 hm ▸ hslots⟩

theorem yields_decoderWithin (n : Nat) (hle : depth ≤ Json.maxDepth) :
    (decoderWithin n depth).Yields (fun t => ∀ node ∈ t.nodes, node.IsRead) := by
  induction n generalizing depth with
  | zero => exact .fail _
  | succ n ih =>
    have hfields (d : Nat) (hlt : d < depth) : ∀ f ∈ fields (decoderWithin n), ∀ draft : Draft,
        draft.IsRead → (f.read draft d).Yields Draft.IsRead :=
      yields_fields (by omega) fun d' hlt' => ih (by omega)
    refine Decoder.yields_record hfields ⟨?_, ?_⟩ fun _ _ hd hf => hd.finish? hf
    · intro _ hm
      cases hm
    · intro _ hm
      cases hm

theorem isRead_of_parse (h : parse s = .ok t) : ∀ node ∈ t.nodes, node.IsRead :=
  Reader.Yields.run (yields_decoderWithin _ (Nat.le_refl _)) h

/-- A tree that is read gives no prop twice and no slot: the last value counts, in the first place. -/
theorem distinct_of_parse (h : parse s = .ok t) : t.Distinct :=
  fun node hm => (isRead_of_parse h node hm).1

end LiveTree.Tree
