import LiveTree.Json.Basic
import LiveTree.Double.Shortest

namespace LiveTree

/-- Doubles are positional while the exponent of the first digit is from -5 up to 15. -/
def Json.doubleLayout : DecimalLayout :=
  ⟨-5, 16⟩

def Double.chars (x : Double) : List Char :=
  let magnitude := x.shortest.chars Json.doubleLayout
  if x.negative then '-' :: magnitude else magnitude

def WordInt.chars (n : WordInt) : List Char :=
  let magnitude := Nat.toDigits 10 n.value.natAbs
  if n.value < 0 then '-' :: magnitude else magnitude

def Number.chars : Number → List Char
  | .int n => n.chars
  | .double x => x.chars

namespace Json

def escape (c : Char) : List Char :=
  if c = '"' then ['\\', '"']
  else if c = '\\' then ['\\', '\\']
  else if 32 ≤ c.toNat then [c]
  else match c.toNat with
    | 8 => ['\\', 'b']
    | 9 => ['\\', 't']
    | 10 => ['\\', 'n']
    | 12 => ['\\', 'f']
    | 13 => ['\\', 'r']
    | n => ['\\', 'u', '0', '0', Nat.digitChar (n / 16), Nat.digitChar (n % 16)]

def quote (s : String) : List Char :=
  '"' :: s.toList.flatMap escape ++ ['"']

mutual

def chars : Json → List Char
  | .null => "null".toList
  | .bool true => "true".toList
  | .bool false => "false".toList
  | .num n => n.chars
  | .str s => quote s
  | .arr items => '[' :: itemChars true items
  | .obj fields => '{' :: fieldChars true fields

/-- The items with the closing bracket; `first` tells whether a comma is due. -/
def itemChars (first : Bool) : List Json → List Char
  | [] => [']']
  | item :: rest => (if first then [] else [',']) ++ (chars item ++ itemChars false rest)

def fieldChars (first : Bool) : List (String × Json) → List Char
  | [] => ['}']
  | (key, value) :: rest =>
    (if first then [] else [',']) ++ (quote key ++ ':' :: (chars value ++ fieldChars false rest))

end

def text (v : Json) : String :=
  .ofList v.chars

end Json

end LiveTree
