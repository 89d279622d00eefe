import LiveTree.OrderedMap

namespace LiveTree

inductive Fault where
  | malformed
  | mismatched
  | truncated
deriving DecidableEq

/-- A reader takes characters off the front of the text. -/
abbrev Reader := StateT (List Char) (Except Fault)

namespace Reader

variable {α σ : Type}

def fail (fault : Fault) : Reader α :=
  fun _ => .error fault

def peek? : Reader (Option Char) :=
  fun s => .ok (s.head?, s)

def drop (n : Nat) : Reader Unit :=
  fun s => .ok ((), s.drop n)

def next : Reader Char
  | [] => .error .truncated
  | c :: rest => .ok (c, rest)

def isBlank (c : Char) : Bool :=
  c == ' ' || c == '\t' || c == '\n' || c == '\r'

def blanks : Reader Unit :=
  fun s => .ok ((), s.dropWhile isBlank)

def peekToken : Reader Char := do
  blanks
  match ← peek? with
  | some c => pure c
  | none => fail .truncated

def punctuation (c : Char) : Reader Unit := do
  if (← peekToken) = c then drop 1 else fail .malformed

def word : List Char → Reader Unit
  | [] => pure ()
  | c :: rest => do
    if (← next) = c then word rest else fail .malformed

/-- Every round takes a character, so the text that is left bounds the number of items. -/
def items (item : Reader α) (first : Bool) : List Char → Reader (List α)
  | [] => fail .truncated
  | _ :: bound => do
    let c ← peekToken
    if c = ']' then
      drop 1
      pure []
    else
      if !first then
        punctuation ','
        if (← peekToken) = ']' then fail .malformed
      let head ← item
      let tail ← items item false bound
      pure (head :: tail)

def list (item : Reader α) : Reader (List α) := do
  punctuation '['
  items item true (← get)

/-- The key of a member, taken by `reader`. Where a key is due, all but a string is malformed. -/
def key (reader : Reader α) : Reader α := do
  if (← peekToken) ≠ '"' then fail .malformed
  reader

def members (name : Reader String) (member : σ → String → Reader σ) (first : Bool) (gathered : σ) :
    List Char → Reader σ
  | [] => fail .truncated
  | _ :: bound => do
    let c ← peekToken
    if c = '}' then
      drop 1
      pure gathered
    else
      if !first then
        punctuation ','
      let gathered ← member gathered (← key name)
      members name member false gathered bound

def object (name : Reader String) (member : σ → String → Reader σ) (start : σ) : Reader σ := do
  punctuation '{'
  members name member true start (← get)

def run (reader : Reader α) (s : String) : Except Fault α :=
  match reader s.toList with
  | .error fault => .error fault
  | .ok (a, rest) => if rest.all isBlank then .ok a else .error .malformed

end Reader

end LiveTree
