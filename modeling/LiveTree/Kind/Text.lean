import LiveTree.Attribute

namespace LiveTree

/-- Visible text from an element's name and attributes. -/
abbrev TextStrategy := String → OrderedMap Json → Option String

namespace TextStrategy

def blank : TextStrategy :=
  fun _ _ => none

def ofAttribute (key : String) : TextStrategy :=
  fun _ attributes => (attributes.lookup key).bind Attribute.text?

def label : TextStrategy :=
  ofAttribute "label"

def value : TextStrategy :=
  ofAttribute "value"

/-- The value, or the placeholder while there is none. -/
def input : TextStrategy := fun name attributes =>
  match value name attributes with
  | some text => if text.isEmpty then ofAttribute "placeholder" name attributes else some text
  | none => ofAttribute "placeholder" name attributes

def linkLabel? : Json → Option String
  | .str label => some label
  | .obj fields => (fields.lookup "label").bind Attribute.text?
  | _ => none

def breadcrumbs : TextStrategy := fun _ attributes =>
  match Attribute.decode (attributes.lookup "links") (.arr []) with
  | .arr links =>
    match links.filterMap linkLabel? with
    | [] => none
    | labels => some (String.intercalate " / " labels)
  | _ => none

end TextStrategy

end LiveTree
