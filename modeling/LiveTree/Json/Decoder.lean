import LiveTree.Json.Reader.Value

namespace LiveTree

/-- A decoder reads one value; its argument is the number of levels that may still be nested. -/
abbrev Decoder (α : Type) := Nat → Reader α

namespace Decoder

open Reader

variable {α β σ : Type}

/-- A value of another shape. A scalar is read before it is refused. -/
def mismatch : Reader α := do
  let c ← peekToken
  if c = '[' ∨ c = '{' then fail .mismatched
  else
    let _ ← scalar c
    fail .mismatched

def nested (inner : Decoder α) : Decoder α
  | 0 => fail .malformed
  | depth + 1 => inner depth

def accept : Option α → Reader α
  | some a => pure a
  | none => fail .mismatched

def bool : Decoder Bool := fun _ => do
  let c ← peekToken
  if c = 't' ∨ c = 'f' then
    let _ ← scalar c
    pure (c = 't')
  else mismatch

def int (least greatest : Int) : Decoder Int := fun _ => do
  if startsNumber (← peekToken) then
    match ← number with
    | .int n => if least ≤ n.value ∧ n.value ≤ greatest then pure n.value else fail .mismatched
    | .double _ => fail .mismatched
  else mismatch

def nat : Decoder Nat := fun depth =>
  Int.toNat <$> int 0 0xffffffffffffffff depth

def text : Decoder String := fun _ => do
  if (← peekToken) = '"' then Reader.text else mismatch

def null (a : α) : Decoder α := fun _ => do
  if (← peekToken) = 'n' then
    word "null".toList
    pure a
  else mismatch

def option (value : Decoder α) : Decoder (Option α) := fun depth => do
  if (← peekToken) = 'n' then null none depth else some <$> value depth

def list (item : Decoder α) : Decoder (List α) := fun depth => do
  if (← peekToken) = '[' then nested (fun depth => Reader.list (item depth)) depth
  else mismatch

def map (value : Decoder α) : Decoder (OrderedMap α) := fun depth => do
  if (← peekToken) = '{' then
    nested (fun depth => object Reader.text (entry (value depth)) []) depth
  else mismatch

structure Field (σ : Type) where
  name : String
  isSet : σ → Bool
  read : σ → Decoder σ

def Field.of (name : String) (get : σ → Option α) (set : σ → α → σ) (value : Decoder α) : Field σ where
  name
  isSet draft := (get draft).isSome
  read draft depth := set draft <$> value depth

/-- A member of a record: a field is set once, an unknown member is skipped. -/
def member (fields : List (Field σ)) (depth : Nat) (draft : σ) (key : String) : Reader σ :=
  match fields.find? (·.name = key) with
  | some f =>
    if f.isSet draft then fail .mismatched
    else do
      punctuation ':'
      f.read draft depth
  | none => do
    punctuation ':'
    skip
    pure draft

def positional (depth : Nat) (first : Bool) (draft : σ) : List (Field σ) → Reader σ
  | [] => pure draft
  | f :: rest => do
    let c ← peekToken
    if c = ']' then pure draft
    else
      if !first then
        punctuation ','
        if (← peekToken) = ']' then fail .malformed
      let draft ← f.read draft depth
      positional depth false draft rest

/-- A record, written as an object or as the list of its fields. -/
def record (fields : List (Field σ)) (start : σ) (finish : σ → Option α) : Decoder α :=
  fun depth => do
    let c ← peekToken
    if c = '{' then
      nested (fun depth => do
        accept (finish (← object Reader.text (member fields depth) start))) depth
    else if c = '[' then
      nested (fun depth => do
        drop 1
        let a ← accept (finish (← positional depth true start fields))
        punctuation ']'
        pure a) depth
    else mismatch

def tagged (payload : String → Option (Decoder α)) (bare : String → Option α) : Decoder α :=
  fun depth => do
    let c ← peekToken
    if c = '{' then
      nested (fun depth => do
        drop 1
        let value ← accept (payload (← key Reader.text))
        punctuation ':'
        let a ← value depth
        punctuation '}'
        pure a) depth
    else if c = '"' then
      accept (bare (← Reader.text))
    else fail .malformed

def choice (ofName? : String → Option α) : Decoder α :=
  tagged (fun name => (ofName? name).map null) ofName?

def decode (decoder : Decoder α) (s : String) : Except Fault α :=
  (decoder Json.maxDepth).run s

def decodeD (decoder : Decoder α) (raw : Option String) (fallback : α) : α :=
  match raw.map (decode decoder) with
  | some (.ok a) => a
  | _ => fallback

end Decoder

end LiveTree
