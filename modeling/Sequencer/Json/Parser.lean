import Sequencer.Json.Document
import Sequencer.Decimal.Scale

/-!
Reading JSON text. The grammar is the strict one: no comments, no trailing commas, no leading
zeros, blanks are space, tab and the two line ends, and nothing but blanks follows the value.
-/

namespace Sequencer

namespace Json

def isBlank (c : Char) : Bool :=
  c = ' ' || c = '\n' || c = '\t' || c = '\r'

def skipBlanks (text : List Char) : List Char :=
  text.dropWhile isBlank

def digit? (c : Char) : Option Nat :=
  if c.isDigit then some (c.toNat - '0'.toNat) else none

def hexDigit? (c : Char) : Option Nat :=
  if c.isDigit then some (c.toNat - '0'.toNat)
  else if 'a' ≤ c ∧ c ≤ 'f' then some (c.toNat - 'a'.toNat + 10)
  else if 'A' ≤ c ∧ c ≤ 'F' then some (c.toNat - 'A'.toNat + 10)
  else none

/-! ### Numbers -/

structure NumberText where
  negative : Bool
  whole : List Nat
  fraction : Option (List Nat)
  /-- The exponent with its sign, true for a minus. -/
  exponent : Option (Bool × List Nat)

namespace NumberText

def limit : Nat := Number.unsignedBound

/--
The leading digits as one number that stays below the limit, and how many of the digits are left
over. After the first digit that does not fit no other one is taken.
-/
def leading (significand : Nat) : List Nat → Nat × Nat
  | [] => (significand, 0)
  | d :: ds =>
    if significand * 10 + d < limit then leading (significand * 10 + d) ds
    else (significand, ds.length + 1)

def exponentSize? (digits : List Nat) : Option Nat :=
  let size := digits.foldl (fun n d => n * 10 + d) 0
  if size < 0x80000000 then some size else none

/--
The number that is written. A whole number that fits 64 bits stays whole, except for minus zero.
Everything else is read as a significand and a power of ten.
-/
def number? (n : NumberText) : Option Number := do
  let signed (x : Float) : Number := .real (if n.negative then -x else x)
  let (significand, dropped) := leading 0 n.whole
  match n.fraction, n.exponent with
  | none, none =>
    if dropped ≠ 0 then signed <$> Double.scaled? significand dropped
    else if !n.negative then some (.integer significand)
    else if 0 < significand ∧ significand ≤ Number.signedBound then some (.integer (-significand))
    else some (signed (Double.nearest significand 1))
  | fraction, exponent =>
    let digits := fraction.getD []
    let (significand, left) := leading significand digits
    let places : Int := dropped - (digits.length - left : Nat)
    match exponent with
    | none => signed <$> Double.scaled? significand places
    | some (minus, size) =>
      match exponentSize? size with
      | some size =>
        signed <$> Double.scaled? significand (places + if minus then -(size : Int) else size)
      | none => if significand ≠ 0 ∧ !minus then none else some (signed 0)

end NumberText

def digits (text : List Char) : List Nat × List Char :=
  ((text.takeWhile Char.isDigit).filterMap digit?, text.dropWhile Char.isDigit)

def someDigits? (text : List Char) : Option (List Nat × List Char) :=
  match digits text with
  | ([], _) => none
  | found => some found

def whole? (text : List Char) : Option (List Nat × List Char) := do
  let (whole, rest) ← someDigits? text
  if whole.head? = some 0 ∧ whole.length ≠ 1 then none
  return (whole, rest)

def fraction? : List Char → Option (Option (List Nat) × List Char)
  | '.' :: rest => do
    let (fraction, rest) ← someDigits? rest
    return (some fraction, rest)
  | rest => some (none, rest)

def exponent? (text : List Char) : Option (Option (Bool × List Nat) × List Char) :=
  match text with
  | [] => some (none, [])
  | c :: rest =>
    if c = 'e' ∨ c = 'E' then
      let (minus, rest) :=
        match rest with
        | '-' :: rest => (true, rest)
        | '+' :: rest => (false, rest)
        | rest => (false, rest)
      (someDigits? rest).map fun (size, rest) => (some (minus, size), rest)
    else some (none, text)

def numberText? (text : List Char) : Option (NumberText × List Char) := do
  let (negative, rest) :=
    match text with
    | '-' :: rest => (true, rest)
    | rest => (false, rest)
  let (whole, rest) ← whole? rest
  let (fraction, rest) ← fraction? rest
  let (exponent, rest) ← exponent? rest
  return ({ negative, whole, fraction, exponent }, rest)

/-! ### Strings -/

inductive Piece where
  | char (c : Char)
  | unit (n : Nat)

def Piece.join? : List Piece → Option (List Char)
  | [] => some []
  | .char c :: rest => (join? rest).map (c :: ·)
  | .unit n :: rest =>
    if n < 0xD800 ∨ 0xDFFF < n then (join? rest).map (Char.ofNat n :: ·)
    else
      match rest with
      | .unit m :: rest =>
        if n < 0xDC00 ∧ 0xDC00 ≤ m ∧ m ≤ 0xDFFF then
          (join? rest).map (Char.ofNat ((n - 0xD800) * 0x400 + (m - 0xDC00) + 0x10000) :: ·)
        else none
      | _ => none

def escape? : Char → Option Char
  | '\x22' => some '\x22'
  | '\\' => some '\\'
  | '/' => some '/'
  | 'b' => some '\x08'
  | 'f' => some '\x0c'
  | 'n' => some '\n'
  | 'r' => some '\r'
  | 't' => some '\t'
  | _ => none

def unit? (a b c d : Char) : Option Nat := do
  return ((((← hexDigit? a) * 16 + (← hexDigit? b)) * 16 + (← hexDigit? c)) * 16 + (← hexDigit? d))

def pieces? : List Char → Option (List Piece × List Char)
  | [] => none
  | '\x22' :: rest => some ([], rest)
  | '\\' :: 'u' :: a :: b :: c :: d :: rest => do
    let n ← unit? a b c d
    let (tail, rest) ← pieces? rest
    return (.unit n :: tail, rest)
  | '\\' :: e :: rest => do
    let c ← escape? e
    let (tail, rest) ← pieces? rest
    return (.char c :: tail, rest)
  | c :: rest => do
    if c.toNat < 0x20 ∨ c = '\\' then none
    let (tail, rest) ← pieces? rest
    return (.char c :: tail, rest)

def string? (text : List Char) : Option (Option String × List Char) := do
  let (pieces, rest) ← pieces? text
  return ((Piece.join? pieces).map String.ofList, rest)

/-! ### Values -/

def word? (word : String) (text : List Char) : Option (List Char) :=
  if word.toList.isPrefixOf text then some (text.drop word.length) else none

mutual

/-- A value at the head of the text. The fuel bounds the number of values and separators. -/
def valueText? (fuel : Nat) (text : List Char) : Option (Document × List Char) :=
  match fuel with
  | 0 => none
  | fuel + 1 =>
    match skipBlanks text with
    | [] => none
    | '\x22' :: rest => do
      let (value, rest) ← string? rest
      return (.string value, rest)
    | '[' :: rest =>
      match skipBlanks rest with
      | ']' :: rest => some (.array [], rest)
      | rest => do
        let (items, rest) ← itemTexts? fuel rest
        return (.array items, rest)
    | '\x7b' :: rest =>
      match skipBlanks rest with
      | '\x7d' :: rest => some (.object [], rest)
      | rest => do
        let (members, rest) ← memberTexts? fuel rest
        return (.object members, rest)
    | 'n' :: rest => (word? "ull" rest).map (.null, ·)
    | 't' :: rest => (word? "rue" rest).map (.bool true, ·)
    | 'f' :: rest => (word? "alse" rest).map (.bool false, ·)
    | text => do
      let (written, rest) ← numberText? text
      return (.number written.number?, rest)

def itemTexts? (fuel : Nat) (text : List Char) : Option (List Document × List Char) :=
  match fuel with
  | 0 => none
  | fuel + 1 => do
    let (item, rest) ← valueText? fuel text
    match skipBlanks rest with
    | ']' :: rest => some ([item], rest)
    | ',' :: rest => do
      let (items, rest) ← itemTexts? fuel rest
      return (item :: items, rest)
    | _ => none

def memberTexts? (fuel : Nat) (text : List Char) :
    Option (List (Option String × Document) × List Char) :=
  match fuel with
  | 0 => none
  | fuel + 1 =>
    match skipBlanks text with
    | '\x22' :: rest => do
      let (name, rest) ← string? rest
      match skipBlanks rest with
      | ':' :: rest => do
        let (value, rest) ← valueText? fuel rest
        match skipBlanks rest with
        | '\x7d' :: rest => some ([(name, value)], rest)
        | ',' :: rest => do
          let (members, rest) ← memberTexts? fuel rest
          return ((name, value) :: members, rest)
        | _ => none
      | _ => none
    | _ => none

end

def Document.parse? (text : String) : Option Document :=
  let chars := text.toList
  match valueText? (2 * chars.length + 1) chars with
  | some (document, rest) => if (skipBlanks rest).isEmpty then some document else none
  | none => none

def Document.textDepth : Document.Depth := some 127

def parse? (text : String) : Option Json := do
  (← Document.parse? text).value? Document.textDepth

end Json

end Sequencer
