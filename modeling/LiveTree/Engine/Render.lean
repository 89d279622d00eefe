import LiveTree.Engine.Basic

namespace LiveTree.Engine

mutual

/-- The first kind that is not known, parents before children, is the error. -/
def checkKinds (catalog : Catalog) : Tree → Except Error Unit
  | ⟨component, _, slots⟩ => do
    let _ ← catalog.named component
    checkSlots catalog slots

def checkSlots (catalog : Catalog) : List (String × List Tree) → Except Error Unit
  | [] => pure ()
  | (_, children) :: rest => do
    checkChildren catalog children
    checkSlots catalog rest

def checkChildren (catalog : Catalog) : List Tree → Except Error Unit
  | [] => pure ()
  | child :: rest => do
    checkKinds catalog child
    checkChildren catalog rest

end

def declaredName? (props : OrderedMap Json) : Option String :=
  (props.lookup "name").bind Attribute.text?

/-- The name that a component declares, or else the one its place gives it. -/
def nameOf (props : OrderedMap Json) (placeName : String) : String :=
  (declaredName? props).getD placeName

def childName (parent slot : String) (index : Nat) : String :=
  parent ++ "/" ++ slot ++ "/" ++ Nat.repr index

def storedProps (profile : Profile) (props : OrderedMap Json) : OrderedMap Json :=
  .insertAll [] (props.map fun (key, value) => (key, profile.stored key value))

def createElement (profile : Profile) (props : OrderedMap Json) (placeName : String) :
    EngineM ElementId := do
  let name := nameOf props placeName
  let attributes := storedProps profile props
  let engine ← get
  let (id, document) := engine.document.add profile.kind name
  set { engine with document }
  record (.create id profile.kind profile.tag)
  attributes.forM (fun (key, value) => record (.setAttribute id key value))
  modifyElement id fun e =>
    { e with declared := (declaredName? props).isSome, attributes }.rendered
      (profile.text name attributes)
  pure id

def adopt (parent : ElementId) (slot : String) (child : ElementId) : EngineM Unit := do
  let engine ← get
  let document ← EngineM.ofExcept (engine.document.attach parent slot child)
  set { engine with document }
  record (.appendToSlot parent slot child)

mutual

def renderAs (placeName : String) : Tree → EngineM ElementId
  | ⟨component, props, slots⟩ => do
    let profile ← EngineM.ofExcept ((← get).catalog.named component)
    let id ← createElement profile props placeName
    renderSlots id (nameOf props placeName) slots
    pure id

def renderSlots (parent : ElementId) (name : String) : List (String × List Tree) → EngineM Unit
  | [] => pure ()
  | (slot, children) :: rest => do
    renderChildren parent name slot 0 children
    renderSlots parent name rest

def renderChildren (parent : ElementId) (name slot : String) (index : Nat) :
    List Tree → EngineM Unit
  | [] => pure ()
  | child :: rest => do
    let id ← renderAs (childName name slot index) child
    adopt parent slot id
    renderChildren parent name slot (index + 1) rest

end

def render (tree : Tree) : EngineM ElementId := do
  let engine ← get
  EngineM.ofExcept (checkKinds engine.catalog tree)
  let profile ← EngineM.ofExcept (engine.catalog.named tree.component)
  renderAs profile.tag tree

end LiveTree.Engine
