import LiveTree.OrderedMap
import LiveTree.Double.Basic

namespace LiveTree

structure WordInt where
  value : Int
  fits : -0x8000000000000000 ≤ value ∧ value < 0x10000000000000000
deriving DecidableEq

namespace WordInt

def ofInt? (value : Int) : Option WordInt :=
  if h : -0x8000000000000000 ≤ value ∧ value < 0x10000000000000000 then some ⟨value, h⟩ else none

def ofNat (n : Nat) : WordInt :=
  ⟨(n % 0x10000000000000000 : Nat), by omega⟩

end WordInt

inductive Number where
  | int (value : WordInt)
  | double (value : Double)
deriving DecidableEq

/-- An integer and a double are never equal. -/
def Number.same : Number → Number → Bool
  | .int x, .int y => x == y
  | .double x, .double y => x.same y
  | _, _ => false

inductive Json where
  | null
  | bool (value : Bool)
  | num (value : Number)
  | str (value : String)
  | arr (items : List Json)
  | obj (fields : List (String × Json))

namespace Json

def ofNat (n : Nat) : Json :=
  .num (.int (.ofNat n))

def str? : Json → Option String
  | .str s => some s
  | _ => none

def field? (key : String) : Json → Option Json
  | .obj fields => fields.lookup key
  | _ => none

def ofText? : Option String → Json
  | none => .null
  | some s => .str s

mutual

/-- Equality of values; the order of an object's keys does not count. -/
def same : Json → Json → Bool
  | .null, .null => true
  | .bool a, .bool b => a == b
  | .num a, .num b => a.same b
  | .str a, .str b => a == b
  | .arr as, .arr bs => sameItems as bs
  | .obj as, .obj bs => as.length == bs.length && sameFields as bs
  | _, _ => false

def sameItems : List Json → List Json → Bool
  | [], [] => true
  | a :: as, b :: bs => same a b && sameItems as bs
  | _, _ => false

def sameFields : List (String × Json) → List (String × Json) → Bool
  | [], _ => true
  | (key, a) :: as, bs =>
    (match bs.lookup key with
      | some b => same a b
      | none => false) && sameFields as bs

end

end Json

end LiveTree
