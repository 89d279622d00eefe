import LiveTree.Json.Decoder
import LiveTree.Json.Printer

namespace LiveTree.Attribute

def parseD (raw : Option String) (fallback : Json) : Json :=
  Decoder.decodeD Reader.value raw fallback

/-- The text of a value: a string is its own text, and null has none. -/
def text? : Json → Option String
  | .str s => some s
  | .null => none
  | value => some value.text

/-- The string form of a value: JSON text, unless it is a string already. -/
def encode : Json → Json
  | .str s => .str s
  | value => .str value.text

def decode (value : Option Json) (fallback : Json) : Json :=
  match value with
  | some (.str raw) => parseD (some raw) fallback
  | _ => fallback

end LiveTree.Attribute
