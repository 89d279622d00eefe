import LiveTree.Json.Reader.Number
import LiveTree.Json.Reader.Text

namespace LiveTree

namespace Reader

variable {α : Type}

def scalar (c : Char) : Reader Json := do
  if c = 'n' then
    word "null".toList
    pure .null
  else if c = 't' then
    word "true".toList
    pure (.bool true)
  else if c = 'f' then
    word "false".toList
    pure (.bool false)
  else if c = '"' then
    .str <$> text
  else if startsNumber c then
    .num <$> number
  else fail .malformed

def entry (value : Reader α) (fields : OrderedMap α) (key : String) : Reader (OrderedMap α) := do
  punctuation ':'
  let v ← value
  pure (fields.insert key v)

/-- A value; lists and objects nest at most `depth` levels. -/
def value : Nat → Reader Json
  | 0 => do
    scalar (← peekToken)
  | depth + 1 => do
    let c ← peekToken
    if c = '[' then
      .arr <$> list (value depth)
    else if c = '{' then
      .obj <$> object text (entry (value depth)) []
    else scalar c

def skipScalar (c : Char) : Reader Unit := do
  if c = '"' then
    let _ ← skippedText
  else if startsNumber c then
    let _ ← literal .malformed
  else
    let _ ← scalar c

/-- Pass over a value. Every level takes a character, so the text that is left bounds the depth. -/
def skipWithin : List Char → Reader Unit
  | [] => fail .truncated
  | _ :: bound => do
    let c ← peekToken
    if c = '[' then
      let _ ← list (skipWithin bound)
    else if c = '{' then
      object skippedText (fun _ _ => do
        punctuation ':'
        skipWithin bound) ()
    else skipScalar c

def skip : Reader Unit := do
  skipWithin (← get)

end Reader

def Json.maxDepth : Nat :=
  127

def Json.parse (s : String) : Except Fault Json :=
  (Reader.value maxDepth).run s

end LiveTree
