import LiveTree.Engine.Basic

namespace LiveTree.Engine

def rename (id : ElementId) (name : String) : EngineM Unit := do
  let e ← element id
  if e.declared && e.name == name then pure ()
  else
    if e.mounted then
      let engine ← get
      EngineM.ofExcept (engine.names.check engine.settings.namePolicy name id)
      if e.declared then unregister e.name id
      register name id
    modifyElement id (·.rename name)

/-- Write an attribute. Writing `name` renames the element, unless the value is null. -/
def setAttribute (id : ElementId) (key : String) (value : Json) : EngineM Unit := do
  let e ← element id
  let value := (← get).catalog.stored e.kind key value
  if key = "name" then
    match Attribute.text? value with
    | some name => rename id name
    | none => pure ()
  modifyElement id (fun e => (e.setAttribute key value).markDirty)
  record (.setAttribute id key value)

def markDirty (id : ElementId) : EngineM Unit := do
  let _ ← element id
  modifyElement id (·.markDirty)

def refresh (catalog : Catalog) (e : Element) : Element :=
  if e.isDirty then e.rendered (catalog.text e.kind e.name e.attributes) else e

def flushed (engine : Engine) : Engine :=
  { engine with document :=
      { engine.document with
        elements := engine.document.elements.map (refresh engine.catalog) } }

def flush : EngineM Nat := do
  let engine ← get
  set engine.flushed
  pure engine.document.dirty.length

end LiveTree.Engine
