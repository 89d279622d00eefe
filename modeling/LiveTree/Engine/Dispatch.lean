import LiveTree.Engine.Write
import LiveTree.Event.Effect
import LiveTree.Event.Target

namespace LiveTree.Engine

abbrev Caller := ElementId → String → EngineM Unit

def applyEffect (call : Caller) (id : ElementId) : Effect → EngineM Unit
  | .write key value => setAttribute id key value
  | .call method => call id method

/-- Apply effects in order. They stop when the element is gone. -/
def applyEffects (call : Caller) (id : ElementId) : List Effect → EngineM Unit
  | [] => pure ()
  | effect :: rest => do
    if (← get).document.contains id then
      applyEffect call id effect
      applyEffects call id rest

def applyListener (call : Caller) (target : Target) : EngineM Unit := do
  match (← get).find? target.component, target.listener with
  | some id, some listener =>
    let e ← element id
    let effects ← EngineM.ofExcept (Effect.ofListener (e.attribute? "listeners") e.name listener)
    applyEffects call id effects
  | _, _ => pure ()

/-- Whether one more dispatch is refused. The outermost one never is. -/
def atLimit (engine : Engine) : Bool :=
  0 < engine.dispatchDepth && engine.settings.maxDispatchDepth ≤ engine.dispatchDepth

def enter (engine : Engine) : Engine :=
  { engine with dispatchDepth := engine.dispatchDepth + 1 }

/-- End a dispatch; the outermost one renders what is dirty. -/
def leave (engine : Engine) : Engine :=
  let engine := { engine with dispatchDepth := engine.dispatchDepth - 1 }
  if engine.dispatchDepth = 0 ∧ engine.settings.autoFlush then engine.flushed else engine

def emitWith (call : Caller) (raw : String) : EngineM Unit := fun engine =>
  if engine.atLimit then .failed (.depthExceeded raw engine.settings.maxDispatchDepth) engine
  else (applyListener call (.parse raw) engine.enter).mapEngine leave

def dispatchWith (call : Caller) (id : ElementId) (event : String) : EngineM Unit := do
  let e ← element id
  (e.bindings.targets event).forM (emitWith call)

def dispatchNamedWith (call : Caller) (name event : String) : EngineM Unit := do
  match (← get).find? name with
  | some id => dispatchWith call id event
  | none => pure ()

end LiveTree.Engine
