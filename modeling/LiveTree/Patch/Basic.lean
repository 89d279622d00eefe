import LiveTree.Error
import LiveTree.Kind.Basic

namespace LiveTree

inductive Patch where
  | create (id : ElementId) (kind : Kind) (tag : String)
  | setAttribute (id : ElementId) (name : String) (value : Json)
  | appendToSlot (parent : ElementId) (slot : String) (child : ElementId)
  | invokeMethod (id : ElementId) (method : String)
  | remove (id : ElementId)

namespace Patch

def label : Patch → String
  | .create _ _ _ => "create"
  | .setAttribute _ _ _ => "set_attribute"
  | .appendToSlot _ _ _ => "append_to_slot"
  | .invokeMethod _ _ => "invoke_method"
  | .remove _ => "remove"

def fields : Patch → List (String × Json)
  | .create id kind tag => [("id", .ofNat id), ("kind", .str kind.name), ("tag", .str tag)]
  | .setAttribute id name value => [("id", .ofNat id), ("name", .str name), ("value", value)]
  | .appendToSlot parent slot child =>
    [("parent", .ofNat parent), ("slot", .str slot), ("child", .ofNat child)]
  | .invokeMethod id method => [("id", .ofNat id), ("method", .str method)]
  | .remove id => [("id", .ofNat id)]

/-- An object with the variant as its one key. -/
def toJson (p : Patch) : Json :=
  .obj [(p.label, .obj p.fields)]

def listJson (ps : List Patch) : Json :=
  .arr (ps.map toJson)

def same : Patch → Patch → Bool
  | .create id kind tag, .create id' kind' tag' => id == id' && kind == kind' && tag == tag'
  | .setAttribute id name value, .setAttribute id' name' value' =>
    id == id' && name == name' && value.same value'
  | .appendToSlot parent slot child, .appendToSlot parent' slot' child' =>
    parent == parent' && slot == slot' && child == child'
  | .invokeMethod id method, .invokeMethod id' method' => id == id' && method == method'
  | .remove id, .remove id' => id == id'
  | _, _ => false

def sameList : List Patch → List Patch → Bool
  | [], [] => true
  | p :: ps, q :: qs => p.same q && sameList ps qs
  | _, _ => false

end Patch

end LiveTree
