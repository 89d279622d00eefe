import LiveTree.Patch.Basic

namespace LiveTree.Patch

/-- The fields read so far, whatever the variant. -/
structure Draft where
  id : Option ElementId := none
  kind : Option Kind := none
  tag : Option String := none
  name : Option String := none
  value : Option Json := none
  parent : Option ElementId := none
  slot : Option String := none
  child : Option ElementId := none
  method : Option String := none

namespace Draft

def idField : Decoder.Field Draft :=
  .of "id" Draft.id (fun draft id => { draft with id := some id }) .nat

def kindField : Decoder.Field Draft :=
  .of "kind" Draft.kind (fun draft kind => { draft with kind := some kind }) Kind.decoder

def tagField : Decoder.Field Draft :=
  .of "tag" Draft.tag (fun draft tag => { draft with tag := some tag }) .text

def nameField : Decoder.Field Draft :=
  .of "name" Draft.name (fun draft name => { draft with name := some name }) .text

def valueField : Decoder.Field Draft :=
  .of "value" Draft.value (fun draft value => { draft with value := some value }) Reader.value

def parentField : Decoder.Field Draft :=
  .of "parent" Draft.parent (fun draft parent => { draft with parent := some parent }) .nat

def slotField : Decoder.Field Draft :=
  .of "slot" Draft.slot (fun draft slot => { draft with slot := some slot }) .text

def childField : Decoder.Field Draft :=
  .of "child" Draft.child (fun draft child => { draft with child := some child }) .nat

def methodField : Decoder.Field Draft :=
  .of "method" Draft.method (fun draft method => { draft with method := some method }) .text

end Draft

def payload? : String → Option (Decoder Patch)
  | "create" => some <|
    .record [Draft.idField, Draft.kindField, Draft.tagField] {} fun draft => do
      pure (.create (← draft.id) (← draft.kind) (← draft.tag))
  | "set_attribute" => some <|
    .record [Draft.idField, Draft.nameField, Draft.valueField] {} fun draft => do
      pure (.setAttribute (← draft.id) (← draft.name) (← draft.value))
  | "append_to_slot" => some <|
    .record [Draft.parentField, Draft.slotField, Draft.childField] {} fun draft => do
      pure (.appendToSlot (← draft.parent) (← draft.slot) (← draft.child))
  | "invoke_method" => some <|
    .record [Draft.idField, Draft.methodField] {} fun draft => do
      pure (.invokeMethod (← draft.id) (← draft.method))
  | "remove" => some <|
    .record [Draft.idField] {} fun draft => do
      pure (.remove (← draft.id))
  | _ => none

/-- A bare name is no patch. -/
def decoder : Decoder Patch :=
  .tagged payload? (fun _ => none)

def parseList (s : String) : Except Fault (List Patch) :=
  (Decoder.list decoder).decode s

end LiveTree.Patch
