import LiveTree.Engine.Dispatch
import LiveTree.Engine.Mount

namespace LiveTree.Engine

def define (kind : Kind) (method : String) (script : Script) : EngineM Bool := do
  let engine ← get
  set { engine with catalog := engine.catalog.define kind method script }
  pure (engine.catalog.get? kind).isSome

def lookLine (document : Document) (id : ElementId) (key : String) : String :=
  match document.get? id with
  | none => ElementId.label id ++ " gone"
  | some e =>
    match e.attribute? key with
    | some value => e.name ++ "." ++ key ++ "=" ++ value.text
    | none => e.name ++ "." ++ key ++ " absent"

def perform (call : Caller) (id : ElementId) : Action → EngineM Unit
  | .emit target => emitWith call target
  | .tryEmit target =>
    tryCatch (do emitWith call target; log "ok") (fun error => log error.label)
  | .setAttribute key value => setAttribute id key value
  | .invoke method => call id method
  | .mount => mount id
  | .unmount => unmount id
  | .markDirty => markDirty id
  | .dispatch event => dispatchWith call id event
  | .dispatchNamed name event => dispatchNamedWith call name event
  | .render tree => do log ("rendered " ++ ElementId.label (← render tree))
  | .renderJson json => do log ("rendered " ++ ElementId.label (← renderJson json))
  | .flush => do log ("flushed " ++ Nat.repr (← flush))
  | .log text => log text
  | .look key => do log (lookLine (← get).document id key)
  | .describe => do log (← get).describe
  | .define kind method script => do
    log (if ← define kind method script then "defined true" else "defined false")
  | .fail name => throw (.unknownKind name)

/-- Carry out one step of a script. A step whose subject is not found is skipped. -/
def performOn (call : Caller) (receiver : ElementId) (action : Action) : Subject → EngineM Unit
  | .receiver => perform call receiver action
  | .element id => perform call id action
  | .named name => do
    match (← get).find? name with
    | some id => perform call id action
    | none => log ("skip " ++ name)

def runScript (call : Caller) (receiver : ElementId) (script : Script) : EngineM Unit :=
  script.forM (fun (subject, action) => performOn call receiver action subject)

/-- Call a method. Methods may call methods `fuel` levels deep. -/
def invoke : Nat → Caller
  | 0, _, _ => .exhausted
  | fuel + 1, id, method => do
    let e ← element id
    match (← get).catalog.method? e.kind method with
    | some script =>
      record (.invokeMethod id method)
      runScript (invoke fuel) id script
    | none => throw (.methodNotFound e.name method)

def emit (fuel : Nat) (raw : String) : EngineM Unit :=
  emitWith (invoke fuel) raw

def dispatch (fuel : Nat) (id : ElementId) (event : String) : EngineM Unit :=
  dispatchWith (invoke fuel) id event

def dispatchNamed (fuel : Nat) (name event : String) : EngineM Unit :=
  dispatchNamedWith (invoke fuel) name event

end LiveTree.Engine
