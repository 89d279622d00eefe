import LiveTree.Attribute
import LiveTree.Error

namespace LiveTree

inductive Effect where
  | write (key : String) (value : Json)
  | call (method : String)

namespace Effect

def ofCall? (call : Json) : Option Effect := do
  let method ← call.field? "method"
  Effect.call <$> method.str?

def callKey : String :=
  "$call"

def ofCalls? : Json → Option (List Effect)
  | .arr calls => calls.mapM ofCall?
  | _ => none

def ofPair? (entry : String × Json) : Option (List Effect) :=
  if entry.1 = callKey then ofCalls? entry.2 else some [.write entry.1 entry.2]

/-- The effects in the order of the keys; `none` if a call list is malformed. -/
def ofDescriptor? : Json → Option (List Effect)
  | .obj entries => List.flatten <$> entries.mapM ofPair?
  | _ => some []

def ofDescriptor (descriptor : Json) (component listener : String) : Except Error (List Effect) :=
  match ofDescriptor? descriptor with
  | some effects => .ok effects
  | none => .error (.malformedCalls component listener)

def ofListener (listeners : Option Json) (component listener : String) :
    Except Error (List Effect) :=
  match (Attribute.decode listeners (.obj [])).field? listener with
  | some descriptor => ofDescriptor descriptor component listener
  | none => .ok []

end Effect

end LiveTree
