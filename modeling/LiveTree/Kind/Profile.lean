import LiveTree.Kind.Text
import LiveTree.Script

namespace LiveTree

def commonEncoded : List String :=
  ["css", "events", "listeners"]

structure Profile where
  kind : Kind
  encoded : List String := []
  style : OrderedMap Json := []
  text : TextStrategy := .blank
  methods : OrderedMap Script := []

namespace Profile

def tag (profile : Profile) : String :=
  profile.kind.tag

def commonMethods : OrderedMap Script :=
  [ ("refresh", .single .markDirty),
    ("show", .single (.setAttribute "hidden" (.bool false))),
    ("hide", .single (.setAttribute "hidden" (.bool true))) ]

/-- The profile with the shared methods and nothing else. -/
def plain (kind : Kind) : Profile :=
  { kind, methods := commonMethods }

def withEncoded (profile : Profile) (key : String) : Profile :=
  { profile with encoded := profile.encoded ++ [key] }

def withStyle (profile : Profile) (property value : String) : Profile :=
  { profile with style := profile.style.insert property (.str value) }

def withText (profile : Profile) (text : TextStrategy) : Profile :=
  { profile with text }

def withMethod (profile : Profile) (name : String) (script : Script) : Profile :=
  { profile with methods := profile.methods.insert name script }

def method? (profile : Profile) (name : String) : Option Script :=
  profile.methods.lookup name

/-- Whether an attribute is kept in string form. -/
def isEncoded (profile : Profile) (key : String) : Bool :=
  commonEncoded.contains key || profile.encoded.contains key

def stored (profile : Profile) (key : String) (value : Json) : Json :=
  if profile.isEncoded key then Attribute.encode value else value

/-- The style of an element: the kind's own, then what `css` overrides. -/
def styleFor (profile : Profile) (attributes : OrderedMap Json) : OrderedMap Json :=
  match Attribute.decode (attributes.lookup "css") (.obj []) with
  | .obj overrides => profile.style.insertAll overrides
  | _ => profile.style

def quotedList (names : List String) : String :=
  "[" ++ String.intercalate ", " (names.map (fun name => "\"" ++ name ++ "\"")) ++ "]"

def describe (profile : Profile) : String :=
  let methods := profile.methods.keys.mergeSort (fun a b => !decide (b < a))
  "KindSpec \x7b kind: " ++ profile.kind.name
    ++ ", encoded_attributes: " ++ quotedList profile.encoded
    ++ ", methods: " ++ quotedList methods ++ " \x7d"

end Profile

end LiveTree
