import LiveTree.Engine.Render

namespace LiveTree.Engine

def pending (document : Document) (root : ElementId) : List Element :=
  ((document.preorder root).filterMap document.get?).filter (!·.mounted)

/-- Where clashes are rejected, the names may not clash with each other either. -/
def checkNames (names : NameIndex) (policy : NamePolicy) (seen : List String) :
    List Element → Except Error Unit
  | [] => .ok ()
  | e :: rest =>
    if e.declared then do
      names.check policy e.name e.id
      if policy = .reject ∧ e.name ∈ seen then throw (.duplicateName e.name)
      checkNames names policy (e.name :: seen) rest
    else checkNames names policy seen rest

def load (catalog : Catalog) (operations : Operations) (e : Element) : Element :=
  let events := (e.attribute? "events").bind Json.str?
  let style := match catalog.get? e.kind with
    | some profile => profile.styleFor e.attributes
    | none => e.style
  { e.wire events with style, operations := operations e.name, mounted := true }

def loadAll (engine : Engine) (root : ElementId) : Document :=
  (engine.document.postorder root).foldl
    (fun document id => document.modify id fun e =>
      if e.mounted then e else load engine.catalog engine.operations e)
    engine.document

/-- Mount a subtree. Elements that are mounted already are passed over. -/
def mount (root : ElementId) : EngineM Unit := do
  let engine ← get
  let _ ← element root
  let elements := pending engine.document root
  EngineM.ofExcept (checkNames engine.names engine.settings.namePolicy [] elements)
  (elements.filter (·.declared)).forM (fun e => register e.name e.id)
  modify fun engine => { engine with document := engine.loadAll root }

def prune (root : ElementId) : EngineM (List Element) := do
  let engine ← get
  let (removed, document) ← EngineM.ofExcept (engine.document.prune root)
  set { engine with document }
  pure removed

def withdraw (root : ElementId) : EngineM Unit := do
  let removed ← prune root
  removed.forM (fun e => record (.remove e.id))

def unmount (root : ElementId) : EngineM Unit := do
  let removed ← prune root
  removed.forM fun e => do
    if e.mounted && e.declared then unregister e.name e.id
    record (.remove e.id)

/-- Render a tree and mount it; a tree that cannot be mounted is withdrawn. -/
def renderAndMount (tree : Tree) : EngineM ElementId := do
  let root ← render tree
  tryCatch (mount root) fun error => do
    withdraw root
    throw error
  pure root

def renderJson (json : String) : EngineM ElementId :=
  match Tree.parse json with
  | .ok tree => renderAndMount tree
  | .error fault => throw (.unreadable fault)

end LiveTree.Engine
