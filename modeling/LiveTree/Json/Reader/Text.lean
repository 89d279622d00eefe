import LiveTree.Json.Reader.Basic

namespace LiveTree.Reader

def hexDigit? (c : Char) : Option Nat :=
  if c.isDigit then some (c.toNat - '0'.toNat)
  else if 'a' ≤ c ∧ c ≤ 'f' then some (c.toNat - 'a'.toNat + 10)
  else if 'A' ≤ c ∧ c ≤ 'F' then some (c.toNat - 'A'.toNat + 10)
  else none

/-- Four hexadecimal digits. The text ends too early if fewer than four bytes are left. -/
def hex4 : Reader Nat := do
  let head := (← get).take 4
  if head.foldl (fun n c => n + c.utf8Size) 0 < 4 then fail .truncated
  else match head.mapM hexDigit? with
    | some [a, b, c, d] =>
      drop 4
      pure (((a * 16 + b) * 16 + c) * 16 + d)
    | _ => fail .malformed

def isLeading (unit : Nat) : Bool :=
  0xD800 ≤ unit && unit ≤ 0xDBFF

def isTrailing (unit : Nat) : Bool :=
  0xDC00 ≤ unit && unit ≤ 0xDFFF

def unicodeEscape : Reader Char := do
  let unit ← hex4
  if isTrailing unit then fail .malformed
  else if isLeading unit then
    word ['\\', 'u']
    let trail ← hex4
    if isTrailing trail then
      pure (Char.ofNat (0x10000 + (unit - 0xD800) * 0x400 + (trail - 0xDC00)))
    else fail .malformed
  else pure (Char.ofNat unit)

def shortEscape? : Char → Option Char
  | '"' => some '"'
  | '\\' => some '\\'
  | '/' => some '/'
  | 'b' => some '\x08'
  | 'f' => some '\x0c'
  | 'n' => some '\n'
  | 'r' => some '\r'
  | 't' => some '\t'
  | _ => none

def escape (unicode : Reader Char) : Reader Char := do
  let c ← next
  if c = 'u' then unicode
  else match shortEscape? c with
    | some c => pure c
    | none => fail .malformed

def quoted (unicode : Reader Char) : List Char → Reader (List Char)
  | [] => fail .truncated
  | _ :: bound => do
    let c ← next
    if c = '"' then pure []
    else if c = '\\' then
      let c ← escape unicode
      let rest ← quoted unicode bound
      pure (c :: rest)
    else if c.toNat < 32 then fail .malformed
    else
      let rest ← quoted unicode bound
      pure (c :: rest)

def textWith (unicode : Reader Char) : Reader String := do
  drop 1
  let chars ← quoted unicode (← get)
  pure (.ofList chars)

def text : Reader String :=
  textWith unicodeEscape

/-- A skipped string may hold surrogates that are not paired. -/
def skippedText : Reader String :=
  textWith (do
    let unit ← hex4
    pure (Char.ofNat unit))

end LiveTree.Reader
