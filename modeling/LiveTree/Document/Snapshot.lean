import LiveTree.Document.Basic

namespace LiveTree

structure Snapshot where
  kind : Kind
  name : String
  attributes : OrderedMap Json
  text : Option String
  slots : List (String × List Snapshot)

namespace Snapshot

mutual

def toJson : Snapshot → Json
  | ⟨kind, name, attributes, text, slots⟩ =>
    .obj
      [ ("kind", .str kind.name), ("name", .str name), ("attributes", .obj attributes),
        ("text", .ofText? text), ("slots", .obj (slotsJson slots)) ]

def slotsJson : List (String × List Snapshot) → List (String × Json)
  | [] => []
  | (slot, children) :: rest => (slot, .arr (childrenJson children)) :: slotsJson rest

def childrenJson : List Snapshot → List Json
  | [] => []
  | child :: rest => toJson child :: childrenJson rest

end

end Snapshot

namespace Document

def snapshotWithin (d : Document) : Nat → ElementId → Option Snapshot
  | 0, _ => none
  | n + 1, id =>
    (d.get? id).map fun e =>
      { kind := e.kind
        name := e.name
        attributes := e.attributes
        text := e.text
        slots := e.slots.mapValues (·.filterMap (d.snapshotWithin n)) }

/-- The snapshot of an element; children that are gone are left out. -/
def snapshot? (d : Document) (id : ElementId) : Option Snapshot :=
  d.snapshotWithin d.size id

end Document

end LiveTree
