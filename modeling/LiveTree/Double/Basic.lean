namespace LiveTree

/-- A finite double: sign, biased exponent and fraction. -/
structure Double where
  negative : Bool
  exponent : Fin 2047
  fraction : Fin (0x10000000000000)
deriving DecidableEq

namespace Double

def significand (x : Double) : Nat :=
  if x.exponent.val = 0 then x.fraction.val else 0x10000000000000 + x.fraction.val

def scale (x : Double) : Int :=
  (max x.exponent.val 1 : Nat) - 1075

def isZero (x : Double) : Bool :=
  x.significand == 0

def bits (x : Double) : Nat :=
  (if x.negative then 0x8000000000000000 else 0) + x.exponent.val * 0x10000000000000 + x.fraction.val

/-- Numeric equality: the two zeros are equal, other doubles only to themselves. -/
def same (x y : Double) : Bool :=
  (x.isZero && y.isZero) || x == y

def ofPlace? (negative : Bool) (place : Nat) : Option Double :=
  if h : place < 2047 * 0x10000000000000 then
    some {
      negative
      exponent := ⟨place / 0x10000000000000, by omega⟩
      fraction := ⟨place % 0x10000000000000, by omega⟩ }
  else
    none

end Double

end LiveTree
