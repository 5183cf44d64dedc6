/-!
Doubles as exact ratios of natural numbers. A finite positive double is `m * 2 ^ q` with
`m < 2 ^ 53` and `-1074 ≤ q`; `Double.nearest` goes from a ratio to the double nearest to it, and
`Double.parts` takes a double apart again.
-/

namespace Sequencer

def Double.leadingBit : Nat := 0x10000000000000

def Double.parts (x : Float) : Nat × Int :=
  let bits : Nat := x.toBits.toNat
  let fraction := bits % leadingBit
  let exponent := bits / leadingBit % 2048
  if exponent = 0 then (fraction, -1074) else (fraction + leadingBit, Int.ofNat exponent - 1075)

def roundHalfEven (num den : Nat) : Nat :=
  let quotient := num / den
  let rest := num % den
  if 2 * rest < den then quotient
  else if den < 2 * rest then quotient + 1
  else quotient + quotient % 2

def Double.infinity : Float :=
  Float.ofBits 0x7FF0000000000000

def Double.ofParts (m : Nat) (q : Int) : Float :=
  let (m, q) := if m = 2 * leadingBit then (leadingBit, q + 1) else (m, q)
  if 971 < q then Double.infinity
  else if m < leadingBit then Float.ofBits m.toUInt64
  else Float.ofBits ((q + 1075).toNat * leadingBit + (m - leadingBit)).toUInt64

/--
The double nearest to `num / den`. The exponent is the least one under which the significand fits
53 bits, and never below the one of the smallest doubles.
-/
def Double.nearest (num den : Nat) : Float :=
  if num = 0 then Float.ofBits 0
  else
    let scale (q : Int) : Nat × Nat := (num * Nat.pow 2 (-q).toNat, den * Nat.pow 2 q.toNat)
    let guess : Int := (num.log2 : Int) - den.log2 - 53
    let fits (q : Int) : Bool := (scale q).1 < (scale q).2 * (2 * leadingBit)
    let q := max (if fits guess then guess else guess + 1) (-1074)
    Double.ofParts (roundHalfEven (scale q).1 (scale q).2) q

def Double.nearestDecimal (significand : Nat) (exponent : Int) : Float :=
  Double.nearest (significand * Nat.pow 10 exponent.toNat) (Nat.pow 10 (-exponent).toNat)

end Sequencer
