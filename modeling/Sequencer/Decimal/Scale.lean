import Sequencer.Decimal.Binary

/-!
A decimal read in two roundings: the significand is rounded to a double first, and the result is
then multiplied or divided by the power of ten once. This is not always the double nearest to the
decimal, and a text written with the shortest digits may come back one unit in the last place off.
-/

namespace Sequencer

def Double.powerOfTen (n : Nat) : Float :=
  Double.nearest (Nat.pow 10 n) 1

/--
`significand * 10 ^ exponent`, or nothing when it is past the greatest double. An exponent below
`-308` is worked off in steps of 308 places, until it fits or nothing is left.
-/
def Double.scaled? (significand : Nat) (exponent : Int) : Option Float :=
  let x := Double.nearest significand 1
  if 308 < exponent then
    if significand = 0 then some x else none
  else if 0 ≤ exponent then
    let y := x * Double.powerOfTen exponent.toNat
    if y.isInf then none else some y
  else some (shrink x (-exponent).toNat ((-exponent).toNat / 308 + 1))
where
  shrink (x : Float) (places : Nat) : Nat → Float
    | 0 => x
    | fuel + 1 =>
      if places ≤ 308 then x / Double.powerOfTen places
      else if x == 0 then x
      else shrink (x / Double.powerOfTen 308) (places - 308) fuel

end Sequencer
