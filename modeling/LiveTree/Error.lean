import LiveTree.Json.Reader.Basic

namespace LiveTree

/-- Elements are numbered in the order of their creation. -/
abbrev ElementId := Nat

def ElementId.label (id : ElementId) : String :=
  "#" ++ Nat.repr id

inductive Error where
  | unknownKind (name : String)
  | methodNotFound (component method : String)
  | malformedCalls (component listener : String)
  | depthExceeded (target : String) (limit : Nat)
  | duplicateName (name : String)
  | unknownElement (id : ElementId)
  | unreadable (fault : Fault)
deriving DecidableEq

namespace Error

def label : Error → String
  | .unknownKind _ => "UnknownComponentKind"
  | .methodNotFound _ _ => "MethodNotFound"
  | .malformedCalls _ _ => "MalformedCallList"
  | .depthExceeded _ _ => "DispatchDepthExceeded"
  | .duplicateName _ => "DuplicateName"
  | .unknownElement _ => "UnknownElement"
  | .unreadable _ => "Json"

def message : Error → String
  | .unknownKind name => "unknown component kind `" ++ name ++ "`"
  | .methodNotFound component method =>
    "component `" ++ component ++ "` has no method `" ++ method ++ "`"
  | .malformedCalls component listener =>
    "listener `" ++ listener ++ "` on `" ++ component ++ "` has a malformed `$call` list"
  | .depthExceeded target limit =>
    "dispatch depth limit of " ++ Nat.repr limit ++ " exceeded while emitting `" ++ target ++ "`"
  | .duplicateName name => "component name `" ++ name ++ "` is already mounted"
  | .unknownElement id => "no element with id " ++ ElementId.label id
  | .unreadable _ => "invalid JSON"

end Error

end LiveTree
