import LiveTree.Error
import LiveTree.Kind.Basic
import LiveTree.Tree

namespace LiveTree

/-- The element an action is about. -/
inductive Subject where
  | named (name : String)
  | element (id : ElementId)
  | receiver

inductive Action where
  | emit (target : String)
  | tryEmit (target : String)
  | setAttribute (key : String) (value : Json)
  | invoke (method : String)
  | mount
  | unmount
  | markDirty
  | dispatch (event : String)
  | dispatchNamed (name event : String)
  | render (tree : Tree)
  | renderJson (json : String)
  | flush
  | log (text : String)
  | look (key : String)
  | describe
  | define (kind : Kind) (method : String) (script : List (Subject × Action))
  | fail (name : String)

abbrev Script := List (Subject × Action)

def Script.single (action : Action) : Script :=
  [(.receiver, action)]

end LiveTree
