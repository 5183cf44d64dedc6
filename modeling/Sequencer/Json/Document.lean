import Sequencer.Json.Basic

/-!
JSON documents as they are written: members in their written order, possibly with repeated names,
and leaves that may be well formed without standing for a value. What a document means is decided
by whoever reads it, so that a part nobody asks for cannot make the reading fail.
-/

namespace Sequencer

namespace Json

inductive Document where
  | null
  | bool (value : Bool)
  /-- Nothing stands for a number past the greatest double. -/
  | number (value : Option Number)
  /-- Nothing stands for a text with an unpaired surrogate. -/
  | string (value : Option String)
  | array (items : List Document)
  | object (members : List (Option String × Document))

namespace Document

instance : Inhabited Document := ⟨.null⟩

def text (value : String) : Document := .string (some value)

def integer (value : Int) : Document := .number (some (.integer value))

def record (fields : List (String × Document)) : Document :=
  .object (fields.map fun (k, d) => (some k, d))

mutual

def ofJson : Json → Document
  | .null => .null
  | .bool b => .bool b
  | .number n => .number (some n)
  | .string s => .string (some s)
  | .array items => .array (ofItems items)
  | .object members => .object (ofMembers members)

def ofItems : List Json → List Document
  | [] => []
  | x :: xs => ofJson x :: ofItems xs

def ofMembers : List (String × Json) → List (Option String × Document)
  | [] => []
  | (k, x) :: xs => (some k, ofJson x) :: ofMembers xs

end

abbrev Depth := Option Nat

def Depth.enter? : Depth → Option Depth
  | none => some none
  | some 0 => none
  | some (n + 1) => some (some n)

mutual

def value? (depth : Depth) : Document → Option Json
  | .null => some .null
  | .bool b => some (.bool b)
  | .number n => n.map .number
  | .string s => s.map .string
  | .array items => do
    let depth ← depth.enter?
    return .array (← itemValues? depth items)
  | .object members => do
    let depth ← depth.enter?
    return Json.ofMembers (← memberValues? depth members)

def itemValues? (depth : Depth) : List Document → Option (List Json)
  | [] => some []
  | d :: ds => do
    let x ← value? depth d
    return x :: (← itemValues? depth ds)

def memberValues? (depth : Depth) : List (Option String × Document) → Option (List (String × Json))
  | [] => some []
  | (k, d) :: ds => do
    let k ← k
    let x ← value? depth d
    return (k, x) :: (← memberValues? depth ds)

end

end Document

end Json

end Sequencer
