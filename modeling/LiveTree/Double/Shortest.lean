import LiveTree.Double.Basic

namespace LiveTree

structure Decimal where
  digits : Nat
  exponent : Int
deriving DecidableEq

namespace Double

/-- The magnitude of `x` and the ends of the reals that round to it, in units of `2 ^ (scale - 2)`. -/
def quarters (x : Double) : Nat × Nat × Nat :=
  let m := x.significand
  let below := if x.fraction.val = 0 ∧ 1 < x.exponent.val then 1 else 2
  (4 * m - below, 4 * m, 4 * m + 2)

def onGrid? (x : Double) (p : Int) : Option Nat :=
  let unit := x.scale - 2
  let grid := Nat.pow 10 p.toNat * Nat.pow 2 (-unit).toNat
  let step := Nat.pow 2 unit.toNat * Nat.pow 10 (-p).toNat
  let (low, mid, high) := x.quarters
  let rounds (c : Nat) : Bool :=
    if x.significand % 2 = 0 then low * step ≤ c * grid && c * grid ≤ high * step
    else low * step < c * grid && c * grid < high * step
  let c := mid * step / grid
  let under := 2 * (mid * step - c * grid)
  match c ≠ 0 && rounds c, rounds (c + 1) with
  | true, true => some (if under < grid ∨ (under = grid ∧ c % 2 = 0) then c else c + 1)
  | true, false => some c
  | false, true => some (c + 1)
  | false, false => none

def coarsest (x : Double) : Nat → Int → Decimal
  | 0, p => ⟨0, p⟩
  | n + 1, p =>
    match x.onGrid? p with
    | some c => ⟨c, p⟩
    | none => x.coarsest n (p - 1)

/-- The fewest digits that read back as `x`, and of those the nearest. -/
def shortest (x : Double) : Decimal :=
  if x.isZero then ⟨0, 0⟩
  else x.coarsest 24 ((x.significand.log2 + 1 + x.scale) * 30103 / 100000 + 2)

end Double

structure DecimalLayout where
  least : Int
  bound : Int

namespace Decimal

def chars (layout : DecimalLayout) (x : Decimal) : List Char :=
  let ds := Nat.toDigits 10 x.digits
  let first := x.exponent + (ds.length - 1 : Nat)
  if layout.least ≤ first ∧ first < layout.bound then
    if 0 ≤ x.exponent then
      ds ++ List.replicate x.exponent.toNat '0' ++ ['.', '0']
    else if 0 ≤ first then
      ds.take (first.toNat + 1) ++ '.' :: ds.drop (first.toNat + 1)
    else
      '0' :: '.' :: (List.replicate (-first - 1).toNat '0' ++ ds)
  else
    let mantissa := match ds with
      | d :: e :: rest => d :: '.' :: e :: rest
      | ds => ds
    let sign := if first < 0 then '-' else '+'
    mantissa ++ 'e' :: sign :: Nat.toDigits 10 first.natAbs

end Decimal

end LiveTree
