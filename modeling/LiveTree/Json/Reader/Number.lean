import LiveTree.Double.Rounding
import LiveTree.Json.Basic
import LiveTree.Json.Reader.Basic

namespace LiveTree.Reader

def digits : Reader (List Char) :=
  fun s => .ok (s.takeWhile Char.isDigit, s.dropWhile Char.isDigit)

def someDigits (atEnd : Fault) : Reader (List Char) := do
  match ← peek? with
  | none => fail atEnd
  | some c => if c.isDigit then digits else fail .malformed

structure Literal where
  negative : Bool
  whole : List Char
  fraction : Option (List Char)
  exponent : Option (Bool × List Char)

def fractionPart (atEnd : Fault) : Reader (Option (List Char)) := do
  if (← peek?) = some '.' then
    drop 1
    some <$> someDigits atEnd
  else pure none

def exponentPart (atEnd : Fault) : Reader (Option (Bool × List Char)) := do
  match ← peek? with
  | some 'e' | some 'E' =>
    drop 1
    let sign ← peek?
    if sign = some '+' ∨ sign = some '-' then drop 1
    let ds ← someDigits atEnd
    pure (some (sign = some '-', ds))
  | _ => pure none

/-- The grammar of numbers. No digit follows a leading zero. -/
def literal (atEnd : Fault) : Reader Literal := do
  let negative := (← peek?) = some '-'
  if negative then drop 1
  let whole ← someDigits atEnd
  if whole.head? = some '0' ∧ whole.length ≠ 1 then fail .malformed
  let fraction ← fractionPart atEnd
  let exponent ← exponentPart atEnd
  pure { negative, whole, fraction, exponent }

def digitsValue (ds : List Char) : Nat :=
  ds.foldl (fun n c => n * 10 + (c.toNat - '0'.toNat)) 0

namespace Literal

/-- The value as an integer, if it is written as one and fits; minus zero is no integer. -/
def int? (x : Literal) : Option WordInt :=
  match x.fraction, x.exponent with
  | none, none =>
    let n := digitsValue x.whole
    if x.negative then
      if n = 0 then none else WordInt.ofInt? (-n)
    else WordInt.ofInt? n
  | _, _ => none

def double? (x : Literal) : Option Double :=
  let fraction := x.fraction.getD []
  let shift : Int := match x.exponent with
    | none => 0
    | some (negative, ds) => if negative then -(digitsValue ds : Int) else digitsValue ds
  Double.ofDecimal? x.negative (digitsValue (x.whole ++ fraction)) (shift - fraction.length)

def number? (x : Literal) : Option Number :=
  match x.int? with
  | some n => some (.int n)
  | none => x.double?.map .double

end Literal

def number : Reader Number := do
  match (← literal .truncated).number? with
  | some n => pure n
  | none => fail .malformed

def startsNumber (c : Char) : Bool :=
  c == '-' || c.isDigit

end LiveTree.Reader
