import Sequencer.Decimal.Binary
import Sequencer.Json.Basic
import Sequencer.Yaml.Cursor
import Sequencer.Yaml.Scalar

/-!
What plain scalars stand for: the words for null and the truth values, whole numbers in four bases,
and decimal numbers. Digits after a leading zero make a text, not a number.
-/

namespace Sequencer

namespace Yaml

open Json.Number (signedBound unsignedBound)

def isNullWord (s : String) : Bool :=
  s = "null" || s = "Null" || s = "NULL" || s = "~"

def boolWord? (s : String) : Option Bool :=
  if s = "true" ∨ s = "True" ∨ s = "TRUE" then some true
  else if s = "false" ∨ s = "False" ∨ s = "FALSE" then some false
  else none

def isSign (c : Char) : Bool :=
  c = '+' || c = '-'

def startsWithSign (cs : List Char) : Bool :=
  cs.head?.any isSign

def digits? (base : Nat) (cs : List Char) : Option Nat :=
  if cs = [] then none
  else
    cs.foldlM (fun n c => (hexValue? c).bind fun d => if d < base then some (n * base + d) else none)
      0

def based? : List Char → Option (Nat × List Char)
  | '0' :: 'x' :: rest => some (16, rest)
  | '0' :: 'o' :: rest => some (8, rest)
  | '0' :: 'b' :: rest => some (2, rest)
  | _ => none

def hasLeadingZero (cs : List Char) : Bool :=
  let unsigned := if startsWithSign cs then cs.tail else cs
  unsigned.head? = some '0' && unsigned.length ≠ 1 && unsigned.all Char.isDigit

def stripPlus (cs : List Char) : List Char :=
  if cs.head? = some '+' then cs.tail else cs

def natural? (bound : Nat) (cs : List Char) : Option Nat :=
  let below (n : Nat) : Option Nat := if n < bound then some n else none
  let unsigned := stripPlus cs
  if startsWithSign unsigned then none
  else
    match based? unsigned with
    | some (base, rest) => (digits? base rest).bind below
    | none => if hasLeadingZero cs then none else (digits? 10 unsigned).bind below

def negative? (bound : Nat) (cs : List Char) : Option Int :=
  let within (n : Nat) : Option Int := if n ≤ bound then some (-n) else none
  match cs with
  | '-' :: rest =>
    match based? rest with
    | some (base, rest) => (digits? base rest).bind within
    | none => if hasLeadingZero cs then none else (digits? 10 rest).bind within
  | _ => none

def integer? (cs : List Char) : Option Int :=
  ((natural? signedBound cs).map Int.ofNat).or (negative? signedBound cs)

/-! ### Decimal numbers -/

/-- The double nearest to a decimal, without working out hopelessly large powers. -/
def nearestDouble (significand : Nat) (exponent : Int) : Float :=
  let magnitude : Int := (Nat.toDigits 10 significand).length + exponent
  if significand = 0 ∨ magnitude < -400 then 0
  else if 400 < magnitude then Double.infinity
  else Double.nearestDecimal significand exponent

def decimalExponent? : List Char → Option Int
  | [] => some 0
  | c :: rest =>
    if c = 'e' ∨ c = 'E' then
      let size := (digits? 10 (if startsWithSign rest then rest.tail else rest)).map Int.ofNat
      if rest.head? = some '-' then size.map (-·) else size
    else none

def unsignedDecimal? (cs : List Char) : Option Float := do
  let whole := cs.takeWhile Char.isDigit
  let rest := cs.dropWhile Char.isDigit
  let tail := if rest.head? = some '.' then rest.tail else []
  let fraction := tail.takeWhile Char.isDigit
  let rest := if rest.head? = some '.' then tail.dropWhile Char.isDigit else rest
  let significand ← digits? 10 (whole ++ fraction)
  let exponent ← decimalExponent? rest
  return nearestDouble significand (exponent - fraction.length)

def real? (s : String) : Option Float :=
  let cs := s.toList
  let unsigned := stripPlus cs
  if cs.head? = some '+' ∧ startsWithSign unsigned then none
  else if [".inf", ".Inf", ".INF"].contains (String.ofList unsigned) then some Double.infinity
  else if ["-.inf", "-.Inf", "-.INF"].contains s then some (-Double.infinity)
  else if [".nan", ".NaN", ".NAN"].contains s then some (0 / 0)
  else
    let magnitude := unsignedDecimal? (if startsWithSign unsigned then unsigned.tail else unsigned)
    magnitude.bind fun x =>
      if x.isInf then none else some (if unsigned.head? = some '-' then -x else x)

/-! ### JSON values of scalars -/

/-- Whole numbers are those that fit 64 bits; ones that only fit 128 bits are refused. -/
inductive Whole where
  | value (n : Int)
  | tooLarge
  | other

def whole (cs : List Char) : Whole :=
  match ((natural? unsignedBound cs).map Int.ofNat).or (negative? signedBound cs) with
  | some n => .value n
  | none =>
    if (natural? (unsignedBound * unsignedBound) cs).isSome then .tooLarge
    else if (negative? (unsignedBound * signedBound) cs).isSome then .tooLarge
    else .other

def ofReal (x : Float) : Json :=
  if x.isFinite then .number (.real x) else .null

def plainValue? (s : String) : Option Json :=
  if s = "" ∨ isNullWord s then some .null
  else
    match boolWord? s with
    | some b => some (.bool b)
    | none =>
      match whole s.toList with
      | .value n => some (.ofInt n)
      | .tooLarge => none
      | .other =>
        if hasLeadingZero s.toList then some (.string s)
        else
          match real? s with
          | some x => some (ofReal x)
          | none => some (.string s)

end Yaml

end Sequencer
