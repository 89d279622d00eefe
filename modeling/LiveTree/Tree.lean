import LiveTree.Json.Decoder
import LiveTree.Json.Printer

namespace LiveTree

/-- A component with its props and, slot by slot, its children. -/
structure Tree where
  component : String
  props : List (String × Json)
  slots : List (String × List Tree)

namespace Tree

def leaf (component : String) : Tree :=
  ⟨component, [], []⟩

def withProp (t : Tree) (key : String) (value : Json) : Tree :=
  { t with props := OrderedMap.insert t.props key value }

def withChild (t : Tree) (slot : String) (child : Tree) : Tree :=
  { t with slots := OrderedMap.push t.slots slot child }

mutual

def size : Tree → Nat
  | ⟨_, _, slots⟩ => 1 + slotsSize slots

def slotsSize : List (String × List Tree) → Nat
  | [] => 0
  | (_, children) :: rest => childrenSize children + slotsSize rest

def childrenSize : List Tree → Nat
  | [] => 0
  | child :: rest => size child + childrenSize rest

end

mutual

/-- Equality of trees; the order of props and of slots does not count. -/
def same : Tree → Tree → Bool
  | ⟨c, ps, ss⟩, ⟨c', ps', ss'⟩ =>
    c == c' && (Json.obj ps).same (.obj ps') && ss.length == ss'.length && sameSlots ss ss'

def sameSlots : List (String × List Tree) → List (String × List Tree) → Bool
  | [], _ => true
  | (slot, children) :: rest, others =>
    (match others.lookup slot with
      | some children' => sameChildren children children'
      | none => false) && sameSlots rest others

def sameChildren : List Tree → List Tree → Bool
  | [], [] => true
  | child :: rest, child' :: rest' => same child child' && sameChildren rest rest'
  | _, _ => false

end

mutual

def toJson : Tree → Json
  | ⟨component, props, slots⟩ =>
    .obj [("component", .str component), ("props", .obj props), ("slots", .obj (slotsJson slots))]

def slotsJson : List (String × List Tree) → List (String × Json)
  | [] => []
  | (slot, children) :: rest => (slot, .arr (childrenJson children)) :: slotsJson rest

def childrenJson : List Tree → List Json
  | [] => []
  | child :: rest => toJson child :: childrenJson rest

end

structure Draft where
  component : Option String := none
  props : Option (OrderedMap Json) := none
  slots : Option (OrderedMap (List Tree)) := none

def Draft.finish? (draft : Draft) : Option Tree :=
  draft.component.map (fun component => ⟨component, draft.props.getD [], draft.slots.getD []⟩)

def fields (child : Decoder Tree) : List (Decoder.Field Draft) :=
  [ .of "component" Draft.component
      (fun draft component => { draft with component := some component }) .text,
    .of "props" Draft.props
      (fun draft props => { draft with props := some props }) (.map Reader.value),
    .of "slots" Draft.slots
      (fun draft slots => { draft with slots := some slots }) (.map (.list child)) ]

def decoderWithin : Nat → Decoder Tree
  | 0 => fun _ => Reader.fail .malformed
  | n + 1 => .record (fields (decoderWithin n)) {} Draft.finish?

/-- Every generation nests deeper, so the depth bounds their number. -/
def decoder : Decoder Tree :=
  fun depth => decoderWithin (depth + 1) depth

def parse (s : String) : Except Fault Tree :=
  decoder.decode s

end Tree

end LiveTree
