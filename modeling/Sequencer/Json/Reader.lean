import Sequencer.Json.Parser
import Sequencer.Reader

/-!
Reading typed values from JSON documents. A record may be an object or an array of its fields in
order, from which the last ones may be missing.
-/

namespace Sequencer

namespace Json

structure Part where
  document : Document
  depth : Document.Depth

namespace Part

def namedMembers? (names : List String) (found : List (String × Document)) :
    List (Option String × Document) → Option (List (String × Document))
  | [] => some found
  | (none, _) :: _ => none
  | (some k, d) :: rest =>
    if k ∈ names then
      if found.any fun (l, _) => l = k then none
      else namedMembers? names ((k, d) :: found) rest
    else namedMembers? names found rest

def fields? (names : List String) (part : Part) : Option (String → Option Part) := do
  let depth ← part.depth.enter?
  let found ←
    match part.document with
    | .object members => namedMembers? names [] members
    | .array items => if items.length ≤ names.length then some (names.zip items) else none
    | _ => none
  return fun name => (found.find? fun (k, _) => k = name).map fun (_, d) => ⟨d, depth⟩

def items? (part : Part) : Option (List Part) := do
  let depth ← part.depth.enter?
  match part.document with
  | .array items => some (items.map (⟨·, depth⟩))
  | _ => none

def entries? (part : Part) : Option (List (String × Part)) := do
  let depth ← part.depth.enter?
  match part.document with
  | .object members => members.mapM fun (k, d) => k.map (·, ⟨d, depth⟩)
  | _ => none

def integer? (low high : Int) (part : Part) : Option Int :=
  match part.document with
  | .number (some (.integer n)) => if low ≤ n ∧ n < high then some n else none
  | _ => none

end Part

def reader : Reader Option Part where
  fail := none
  fields := Part.fields?
  items := Part.items?
  entries := Part.entries?
  present? part :=
    match part.document with
    | .null => some none
    | _ => some (some part)
  bool part :=
    match part.document with
    | .bool b => some b
    | _ => none
  natural part := (part.integer? 0 Number.unsignedBound).map Int.toNat
  integer part := (part.integer? (-Number.signedBound) Number.signedBound).map Int64.ofInt
  text part :=
    match part.document with
    | .string s => s
    | _ => none
  value part := part.document.value? part.depth

def readText? {α : Type} (read : Part → Option α) (text : String) : Option α := do
  read ⟨← Document.parse? text, Document.textDepth⟩

def readValue? {α : Type} (read : Part → Option α) (value : Json) : Option α :=
  read ⟨.ofJson value, none⟩

end Json

end Sequencer
