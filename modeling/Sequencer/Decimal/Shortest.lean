import Sequencer.Decimal.Binary

/-!
The shortest decimal that reads back as a given double. Of the grids with 1, 2, … 17 digits the
first one that has a point in the interval of reals rounding to the double is taken, and on it the
point nearest to the double; of two that are equally near it is the even one.
-/

namespace Sequencer

structure Decimal where
  digits : Nat
  exponent : Int
deriving Repr, DecidableEq

namespace Decimal

def magnitude (num den : Nat) : Int :=
  if den ≤ num then ((Nat.toDigits 10 (num / den)).length : Int) - 1
  else below 400 1 (num * 10)
where
  below (fuel : Nat) (places : Nat) (scaled : Nat) : Int :=
    match fuel with
    | 0 => -(places : Int)
    | fuel + 1 => if den ≤ scaled then -(places : Int) else below fuel (places + 1) (scaled * 10)

def trim (digits : Nat) (exponent : Int) (fuel : Nat) : Decimal :=
  match fuel with
  | 0 => ⟨digits, exponent⟩
  | fuel + 1 =>
    if digits % 10 = 0 ∧ digits ≠ 0 then trim (digits / 10) (exponent + 1) fuel
    else ⟨digits, exponent⟩

def shortest (x : Float) : Decimal :=
  let (m, q) := Double.parts x
  -- Everything is measured in quarters of the last place, so both half-way points are whole.
  let quarter (n : Nat) : Nat := n * Nat.pow 2 (q - 2).toNat
  let den := Nat.pow 2 (2 - q).toNat
  let value := quarter (4 * m)
  let low := quarter (if m = Double.leadingBit ∧ -1074 < q then 4 * m - 1 else 4 * m - 2)
  let high := quarter (4 * m + 2)
  let inside (digits : Nat) (k : Int) : Bool :=
    let point := digits * Nat.pow 10 k.toNat * den
    let unit := Nat.pow 10 (-k).toNat
    if m % 2 = 0 then low * unit ≤ point ∧ point ≤ high * unit
    else low * unit < point ∧ point < high * unit
  let top := magnitude value den
  let rec search (count : Nat) (left : Nat) : Decimal :=
    let k : Int := top - count + 1
    let num := value * Nat.pow 10 (-k).toNat
    let step := den * Nat.pow 10 k.toNat
    let below := num / step
    match left with
    | 0 => trim below k 20
    | left + 1 =>
      match inside below k, inside (below + 1) k with
      | true, true => trim (roundHalfEven num step) k 20
      | true, false => trim below k 20
      | false, true => trim (below + 1) k 20
      | false, false => search (count + 1) left
  search 1 17

end Decimal

end Sequencer
