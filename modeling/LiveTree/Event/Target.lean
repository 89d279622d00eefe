namespace LiveTree

structure Target where
  component : String
  listener : Option String
deriving DecidableEq

namespace Target

/-- The first two segments between dots. An empty listener is none, and later segments are ignored. -/
def parse (raw : String) : Target :=
  let inSegment (c : Char) : Bool := c != '.'
  let chars := raw.toList
  let listener := ((chars.dropWhile inSegment).drop 1).takeWhile inSegment
  { component := .ofList (chars.takeWhile inSegment)
    listener := if listener.isEmpty then none else some (.ofList listener) }

def display (target : Target) : String :=
  match target.listener with
  | some listener => target.component ++ "." ++ listener
  | none => target.component

end Target

end LiveTree
