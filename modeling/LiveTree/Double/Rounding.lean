import LiveTree.Double.Basic

namespace LiveTree

/-- The quotient rounded to the nearest number, a half to the even one. -/
def roundDiv (num den : Nat) : Nat :=
  let floor := num / den
  let twice := 2 * (num % den)
  if twice < den then floor
  else if den < twice then floor + 1
  else floor + floor % 2

namespace Double

def scaled (num den : Nat) (q : Int) : Nat × Nat :=
  (num * Nat.pow 2 (-q).toNat, den * Nat.pow 2 q.toNat)

def scaleOf (num den : Nat) : Int :=
  let q : Int := num.log2 - den.log2 - 53
  let (n, d) := scaled num den q
  max (-1074) (if n / d < 0x20000000000000 then q else q + 1)

def ofRatio? (negative : Bool) (num den : Nat) : Option Double :=
  let q := scaleOf num den
  let (n, d) := scaled num den q
  ofPlace? negative ((q + 1074).toNat * 0x10000000000000 + roundDiv n d)

/-- The double nearest to `digits * 10 ^ exponent`, or `none` past the largest. -/
def ofDecimal? (negative : Bool) (digits : Nat) (exponent : Int) : Option Double :=
  let magnitude := exponent + (Nat.toDigits 10 digits).length
  if digits = 0 ∨ magnitude < -330 then ofPlace? negative 0
  else if 310 < magnitude then none
  else if 0 ≤ exponent then ofRatio? negative (digits * Nat.pow 10 exponent.toNat) 1
  else ofRatio? negative digits (Nat.pow 10 (-exponent).toNat)

end Double

end LiveTree
