import LiveTree.Document.Element

namespace LiveTree

structure Document where
  elements : List Element := []
  nextId : ElementId := 0

namespace Document

def get? (d : Document) (id : ElementId) : Option Element :=
  d.elements.find? (·.id = id)

def contains (d : Document) (id : ElementId) : Bool :=
  d.elements.any (·.id = id)

def size (d : Document) : Nat :=
  d.elements.length

def modify (d : Document) (id : ElementId) (f : Element → Element) : Document :=
  { d with elements := d.elements.map (fun e => if e.id = id then f e else e) }

def add (d : Document) (kind : Kind) (name : String) : ElementId × Document :=
  (d.nextId,
    { elements := d.elements ++ [{ id := d.nextId, kind, name }], nextId := d.nextId + 1 })

def attach (d : Document) (parent : ElementId) (slot : String) (child : ElementId) :
    Except Error Document :=
  if !d.contains parent then .error (.unknownElement parent)
  else if !d.contains child then .error (.unknownElement child)
  else .ok ((d.modify child ({ · with parent := some parent })).modify parent
    (·.addChild slot child))

def preorderWithin (d : Document) : Nat → ElementId → List ElementId
  | 0, _ => []
  | n + 1, id =>
    match d.get? id with
    | some e => id :: e.children.flatMap (d.preorderWithin n)
    | none => []

def preorder (d : Document) (root : ElementId) : List ElementId :=
  d.preorderWithin d.size root

def postorderWithin (d : Document) : Nat → ElementId → List ElementId
  | 0, _ => []
  | n + 1, id =>
    match d.get? id with
    | some e => e.children.flatMap (d.postorderWithin n) ++ [id]
    | none => []

def postorder (d : Document) (root : ElementId) : List ElementId :=
  d.postorderWithin d.size root

def dirty (d : Document) : List ElementId :=
  (d.elements.filter (·.isDirty)).map (·.id)

def erase (d : Document) (id : ElementId) : Document :=
  { d with elements := d.elements.filter (·.id != id) }

/-- Erase elements one after the other and answer them; those that are gone already are passed over. -/
def eraseAll (d : Document) : List ElementId → List Element × Document
  | [] => ([], d)
  | id :: rest =>
    match d.get? id with
    | some e =>
      let (erased, d) := (d.erase id).eraseAll rest
      (e :: erased, d)
    | none => d.eraseAll rest

def detach (d : Document) (e : Element) : Document :=
  match e.parent with
  | some parent => d.modify parent (·.dropChild e.id)
  | none => d

/-- Remove an element with its descendants and answer them, parents first. -/
def prune (d : Document) (root : ElementId) : Except Error (List Element × Document) :=
  match d.get? root with
  | none => .error (.unknownElement root)
  | some e =>
    let d := d.detach e
    .ok (d.eraseAll (d.preorder root))

end Document

end LiveTree
