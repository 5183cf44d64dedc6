import Sequencer.Reader
import Sequencer.Yaml.Core
import Sequencer.Yaml.Node

/-!
Reading typed values from YAML documents. Collections may be opened to a depth of 128, and aliases
may be followed a hundred times for each step it takes to walk through the document.
-/

namespace Sequencer

namespace Yaml

structure Part where
  node : Node
  depth : Nat

/-- The state is the number of aliases that may still be followed. -/
abbrev ReadM := StateT Nat Option

namespace Tag

def ofName (name : String) : String := "tag:yaml.org,2002:" ++ name

def null : String := ofName "null"

def bool : String := ofName "bool"

def integer : String := ofName "int"

def real : String := ofName "float"

def octets (tag : String) : ByteArray :=
  ⟨(tag.toList.map fun c => c.toNat.toUInt8).toArray⟩

def isLocal (tag : Option String) : Bool :=
  match tag with
  | some tag =>
    tag.toList.head? = some '!' &&
      (tag.length = 1 || (String.fromUTF8? (octets tag)).isSome)
  | none => false

end Tag

namespace Part

def resolve (d : Document) (part : Part) : ReadM Part := do
  match part.node with
  | .alias number =>
    let left ← get
    if left = 0 then failure
    set (left - 1)
    match d.anchored? number with
    | some node => return { part with node }
    | none => failure
  | _ => return part

/-- Whether a node is written as nothing, which reads as an empty collection. -/
def isNothing : Node → Bool
  | .scalar _ .plain "" => true
  | _ => false

def enter (part : Part) : ReadM Nat :=
  match part.depth with
  | 0 => failure
  | depth + 1 => return depth

def text (d : Document) (part : Part) : ReadM String := do
  match (← part.resolve d).node with
  | .scalar _ _ text => return text
  | _ => failure

def items (d : Document) (part : Part) : ReadM (List Part) := do
  let part ← part.resolve d
  match part.node with
  | .sequence _ items =>
    let depth ← part.enter
    return items.map (⟨·, depth⟩)
  | node => if isNothing node then return [] else failure

def entries (d : Document) (part : Part) : ReadM (List (String × Part)) := do
  let part ← part.resolve d
  match part.node with
  | .mapping _ entries =>
    let depth ← part.enter
    entries.mapM fun (key, node) => do return (← text d ⟨key, depth⟩, ⟨node, depth⟩)
  | node => if isNothing node then return [] else failure

def known? (names : List String) (found : List (String × Part)) :
    List (String × Part) → Option (List (String × Part))
  | [] => some found
  | (k, part) :: rest =>
    if k ∈ names then
      if found.any fun (l, _) => l = k then none else known? names ((k, part) :: found) rest
    else known? names found rest

def fields (d : Document) (names : List String) (part : Part) : ReadM (String → Option Part) := do
  let found ← known? names [] (← part.entries d)
  return fun name => (found.find? fun (k, _) => k = name).map (·.2)

def typedText (d : Document) (tag : String) (part : Part) : ReadM String := do
  match (← part.resolve d).node with
  | .scalar _ .plain text => return text
  | .scalar written .literal text => if written = some tag then return text else failure
  | _ => failure

def present? (d : Document) (part : Part) : ReadM (Option Part) := do
  let part ← part.resolve d
  match part.node with
  | .scalar none .plain text =>
    return if text = "" ∨ isNullWord text then none else some part
  | .scalar (some tag) .plain text =>
    if tag = Tag.null then if isNullWord text then return none else failure
    else return some part
  | _ => return some part

/-- The value of a scalar. A tag of a known type is binding, and other tags make a text. -/
def scalarValue? (tag : Option String) (style : Style) (text : String) : Option Json :=
  if Tag.isLocal tag then none
  else
    match tag with
    | none => if style = .plain then plainValue? text else some (.string text)
    | some tag =>
      if tag = Tag.bool then (boolWord? text).map .bool
      else if tag = Tag.integer then
        match whole text.toList with
        | .value n => some (.ofInt n)
        | _ => none
      else if tag = Tag.real then (real? text).map ofReal
      else if tag = Tag.null then if isNullWord text then some .null else none
      else if tag.toList.head? = some '!' ∧ style = .plain then plainValue? text
      else some (.string text)

def valueAt (d : Document) (depth : Nat) (node : Node) : ReadM Json := do
  match (← resolve d ⟨node, depth⟩).node with
  | .alias _ => failure
  | .scalar tag style text => scalarValue? tag style text
  | .sequence tag items =>
    match depth with
    | 0 => failure
    | depth + 1 =>
      if Tag.isLocal tag then failure
      return .array (← items.mapM (valueAt d depth))
  | .mapping tag entries =>
    match depth with
    | 0 => failure
    | depth + 1 =>
      if Tag.isLocal tag then failure
      let members ← entries.mapM fun (key, node) => do
        return (← text d ⟨key, depth⟩, ← valueAt d depth node)
      return .ofMembers members

end Part

def reader (d : Document) : Reader ReadM Part where
  fail := failure
  fields := Part.fields d
  items := Part.items d
  entries := Part.entries d
  present? := Part.present? d
  bool part := do return ← boolWord? (← part.typedText d Tag.bool)
  natural part := do return ← natural? Json.Number.unsignedBound (← part.typedText d Tag.integer).toList
  integer part := do
    return Int64.ofInt (← integer? (← part.typedText d Tag.integer).toList)
  text := Part.text d
  value part := Part.valueAt d part.depth part.node

def textDepth : Nat := 128

def readText? {α : Type} (read : (d : Document) → Part → ReadM α) (text : String) : Option α := do
  let d ← Document.parse? text
  let (value, _) ← (read d ⟨d.root, textDepth⟩).run (100 * d.root.size)
  return value

end Yaml

end Sequencer
