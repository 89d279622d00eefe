import LiveTree.Error
import LiveTree.Event.Bindings
import LiveTree.Kind.Basic

namespace LiveTree

inductive RenderState where
  | clean
  | dirty
deriving DecidableEq

def RenderState.name : RenderState → String
  | .clean => "Clean"
  | .dirty => "Dirty"

/-- A live component. Its name is declared by a prop, or else given by its place in the tree. -/
structure Element where
  id : ElementId
  kind : Kind
  name : String
  declared : Bool := false
  parent : Option ElementId := none
  attributes : OrderedMap Json := []
  slots : OrderedMap (List ElementId) := []
  bindings : Bindings := []
  operations : Option Json := none
  style : OrderedMap Json := []
  text : Option String := none
  mounted : Bool := false
  state : RenderState := .dirty
  renderCount : Nat := 0

namespace Element

def attribute? (e : Element) (key : String) : Option Json :=
  e.attributes.lookup key

def slot (e : Element) (name : String) : List ElementId :=
  (e.slots.lookup name).getD []

def children (e : Element) : List ElementId :=
  e.slots.flatMap Prod.snd

def isDirty (e : Element) : Bool :=
  e.state == .dirty

def markDirty (e : Element) : Element :=
  { e with state := .dirty }

def rendered (e : Element) (text : Option String) : Element :=
  { e with text, state := .clean, renderCount := e.renderCount + 1 }

def rename (e : Element) (name : String) : Element :=
  { e with name, declared := true }

def setAttribute (e : Element) (key : String) (value : Json) : Element :=
  { e with attributes := e.attributes.insert key value }

def wire (e : Element) (events : Option String) : Element :=
  { e with bindings := e.bindings ++ .ofEvents events }

def addChild (e : Element) (slot : String) (child : ElementId) : Element :=
  { e with slots := e.slots.push slot child }

/-- Take a child out of every slot; the slots stay. -/
def dropChild (e : Element) (child : ElementId) : Element :=
  { e with slots := e.slots.mapValues (·.filter (· != child)) }

end Element

end LiveTree
