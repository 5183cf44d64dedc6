import Sequencer.Json.Document
import Sequencer.Decimal.Shortest

/-!
Writing JSON text without blanks. A real number has the fewest digits that read back, always with a
point or an exponent, and is written positionally from `1e-5` up to below `1e16`.
-/

namespace Sequencer

namespace Json

def decimalText (d : Decimal) : String :=
  let digits := Nat.toDigits 10 d.digits
  let point : Int := digits.length + d.exponent
  if 0 ≤ d.exponent ∧ point ≤ 16 then
    String.ofList (digits ++ List.replicate d.exponent.toNat '0') ++ ".0"
  else if 0 < point ∧ point ≤ 16 then
    String.ofList (digits.take point.toNat ++ '.' :: digits.drop point.toNat)
  else if -5 < point ∧ point ≤ 0 then
    "0." ++ String.ofList (List.replicate (-point).toNat '0' ++ digits)
  else
    let exponent := "e" ++ toString (point - 1)
    match digits with
    | [] => exponent
    | [c] => String.singleton c ++ exponent
    | c :: rest => String.ofList (c :: '.' :: rest) ++ exponent

def realText (x : Float) : String :=
  if !x.isFinite then "null"
  else
    let sign := if 0x8000000000000000 ≤ x.toBits.toNat then "-" else ""
    if x == 0 then sign ++ "0.0" else sign ++ decimalText (Decimal.shortest x.abs)

def numberString : Number → String
  | .integer n => toString n
  | .real x => realText x

def controlDigits (n : Nat) : List Char :=
  [Nat.digitChar (n / 16), Nat.digitChar (n % 16)]

def escapeChar (c : Char) : List Char :=
  match c with
  | '\x22' => ['\\', '\x22']
  | '\\' => ['\\', '\\']
  | '\x08' => ['\\', 'b']
  | '\x0c' => ['\\', 'f']
  | '\n' => ['\\', 'n']
  | '\r' => ['\\', 'r']
  | '\t' => ['\\', 't']
  | c => if c.toNat < 0x20 then ['\\', 'u', '0', '0'] ++ controlDigits c.toNat else [c]

def quoted (s : String) : String :=
  String.ofList ('\x22' :: s.toList.flatMap escapeChar ++ ['\x22'])

namespace Document

mutual

def render : Document → String
  | .null => "null"
  | .bool b => if b then "true" else "false"
  | .number n => (n.map numberString).getD "null"
  | .string s => (s.map quoted).getD "null"
  | .array items => "[" ++ ",".intercalate (renderItems items) ++ "]"
  | .object members => "\x7b" ++ ",".intercalate (renderMembers members) ++ "\x7d"

def renderItems : List Document → List String
  | [] => []
  | d :: ds => render d :: renderItems ds

def renderMembers : List (Option String × Document) → List String
  | [] => []
  | (k, d) :: ds => (quoted (k.getD "") ++ ":" ++ render d) :: renderMembers ds

end

end Document

def render (value : Json) : String :=
  (Document.ofJson value).render

end Json

end Sequencer
