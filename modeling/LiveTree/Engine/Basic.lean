import LiveTree.Document.Snapshot
import LiveTree.Kind.Catalog
import LiveTree.NameIndex
import LiveTree.Patch.Recorder

namespace LiveTree

abbrev Operations := String → Option Json

def Operations.ofTable (table : OrderedMap Json) : Operations :=
  fun name => table.lookup name

/-- An engine. Without a recorder nothing is drawn. The journal holds what methods log. -/
structure Engine where
  settings : Settings := {}
  document : Document := {}
  names : NameIndex := {}
  catalog : Catalog := .standard
  operations : Operations := fun _ => none
  recorder : Option Recorder := none
  dispatchDepth : Nat := 0
  journal : List String := []

inductive Outcome (α : Type) where
  | done (value : α) (engine : Engine)
  | failed (error : Error) (engine : Engine)
  | exhausted

def Outcome.mapEngine {α : Type} (f : Engine → Engine) : Outcome α → Outcome α
  | .done value engine => .done value (f engine)
  | .failed error engine => .failed error (f engine)
  | .exhausted => .exhausted

def EngineM (α : Type) := Engine → Outcome α

namespace EngineM

variable {α β : Type}

def bind (x : EngineM α) (f : α → EngineM β) : EngineM β := fun engine =>
  match x engine with
  | .done a engine => f a engine
  | .failed error engine => .failed error engine
  | .exhausted => .exhausted

instance : Monad EngineM where
  pure a := fun engine => .done a engine
  bind := bind

instance : MonadStateOf Engine EngineM where
  get := fun engine => .done engine engine
  set engine := fun _ => .done () engine
  modifyGet f := fun engine => .done (f engine).1 (f engine).2

/-- Running out of fuel cannot be caught. -/
instance : MonadExceptOf Error EngineM where
  throw error := fun engine => .failed error engine
  tryCatch x handler := fun engine =>
    match x engine with
    | .failed error engine => handler error engine
    | outcome => outcome

def exhausted : EngineM α :=
  fun _ => .exhausted

def ofExcept : Except Error α → EngineM α
  | .ok a => pure a
  | .error error => throw error

end EngineM

namespace Engine

def find? (engine : Engine) (name : String) : Option ElementId :=
  (engine.names.find? name).filter engine.document.contains

def elementNamed? (engine : Engine) (name : String) : Option Element :=
  (engine.find? name).bind engine.document.get?

def patches (engine : Engine) : List Patch :=
  (engine.recorder.map (·.patches)).getD []

def drain (engine : Engine) : List Patch × Engine :=
  (engine.patches, { engine with recorder := engine.recorder.map (·.drain.2) })

def describe (engine : Engine) : String :=
  let settings := engine.settings
  "Engine \x7b config: EngineConfig \x7b max_dispatch_depth: "
    ++ Nat.repr settings.maxDispatchDepth
    ++ ", duplicate_names: " ++ settings.namePolicy.title
    ++ ", auto_flush: " ++ (if settings.autoFlush then "true" else "false")
    ++ " \x7d, elements: " ++ Nat.repr engine.document.size
    ++ ", names: " ++ Nat.repr engine.names.size
    ++ ", dispatch_depth: " ++ Nat.repr engine.dispatchDepth ++ " \x7d"

def element (id : ElementId) : EngineM Element := do
  match (← get).document.get? id with
  | some e => pure e
  | none => throw (.unknownElement id)

def modifyElement (id : ElementId) (f : Element → Element) : EngineM Unit :=
  modify fun engine => { engine with document := engine.document.modify id f }

def record (patch : Patch) : EngineM Unit :=
  modify fun engine => { engine with recorder := engine.recorder.map (·.record patch) }

def log (line : String) : EngineM Unit :=
  modify fun engine => { engine with journal := engine.journal ++ [line] }

def register (name : String) (id : ElementId) : EngineM Unit := do
  let engine ← get
  let names ← EngineM.ofExcept (engine.names.register engine.settings.namePolicy name id)
  set { engine with names }

def unregister (name : String) (id : ElementId) : EngineM Unit :=
  modify fun engine => { engine with names := engine.names.unregister name id }

end Engine

end LiveTree
