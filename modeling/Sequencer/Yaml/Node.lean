import Sequencer.Yaml.Token

/-!
The nodes of a YAML document. An alias stands for the node with its number; numbers are given to
anchors in the order of the document, each the count of the different names before it. A name used
again does not add to the count, so two anchors may share a number, and then the later one has it
throughout the document.
-/

namespace Sequencer

namespace Yaml

inductive Node where
  | alias (number : Nat)
  | scalar (tag : Option String) (style : Style) (text : String)
  | sequence (tag : Option String) (items : List Node)
  | mapping (tag : Option String) (entries : List (Node × Node))

namespace Node

instance : Inhabited Node := ⟨.scalar none .plain ""⟩

def nothing : Node := .scalar none .plain ""

mutual

def size : Node → Nat
  | .alias _ => 1
  | .scalar _ _ _ => 1
  | .sequence _ items => sizeItems items + 2
  | .mapping _ entries => sizeEntries entries + 2

def sizeItems : List Node → Nat
  | [] => 0
  | n :: ns => size n + sizeItems ns

def sizeEntries : List (Node × Node) → Nat
  | [] => 0
  | (k, n) :: ns => size k + size n + sizeEntries ns

end

end Node

structure Document where
  root : Node
  anchors : List (Nat × Node)

def Document.anchored? (d : Document) (number : Nat) : Option Node :=
  (d.anchors.reverse.find? fun (n, _) => n = number).map (·.2)

/-! ### From tokens to nodes -/

structure Parse where
  tokens : List Token
  handles : List (String × String)
  /-- The anchor names so far, with the number each stands for now. -/
  names : List (String × Nat)
  anchors : Array (Nat × Node)

abbrev ParseM := StateT Parse Option

namespace Parse

def peek : ParseM (Option Token) := do
  return (← get).tokens.head?

def skip : ParseM Unit :=
  modify fun s => { s with tokens := s.tokens.tail }

def accept (token : Token) : ParseM Bool := do
  if (← peek) = some token then
    skip
    return true
  else return false

def follows (tokens : List Token) : ParseM Bool := do
  match ← peek with
  | none => return false
  | some token => return tokens.contains token

structure Properties where
  anchor : Option String
  tag : Option String

def expand (handle suffix : String) : ParseM String := do
  if handle = "" then return suffix
  match (← get).handles.find? fun (h, _) => h = handle with
  | some (_, expansion) => return expansion ++ suffix
  | none => failure

def properties : ParseM Properties := do
  match ← peek with
  | some (.anchor name) =>
    skip
    match ← peek with
    | some (.tag handle suffix) =>
      skip
      return ⟨some name, some (← expand handle suffix)⟩
    | _ => return ⟨some name, none⟩
  | some (.tag handle suffix) =>
    skip
    match ← peek with
    | some (.anchor name) =>
      skip
      return ⟨some name, some (← expand handle suffix)⟩
    | _ => return ⟨none, some (← expand handle suffix)⟩
  | _ => return ⟨none, none⟩

def openAnchor (name : Option String) : ParseM (Option Nat) := do
  match name with
  | none => return none
  | some name =>
    let s ← get
    let number := s.names.length
    let known := s.names.any fun (n, _) => n = name
    let names :=
      if known then s.names.map fun (n, i) => if n = name then (n, number) else (n, i)
      else s.names ++ [(name, number)]
    set { s with names, anchors := s.anchors.push (number, Node.nothing) }
    return some s.anchors.size

def closeAnchor (place : Option Nat) (node : Node) : ParseM Node := do
  match place with
  | none => return node
  | some place =>
    modify fun s => { s with anchors := s.anchors.modify place fun (number, _) => (number, node) }
    return node

mutual

/--
A node. Block collections count only where `block` says so, and a sequence that is not indented more
than the mapping it is in only where `flush` does.
-/
def node (fuel : Nat) (block flush : Bool) : ParseM Node :=
  match fuel with
  | 0 => failure
  | fuel + 1 => do
    match ← peek with
    | some (.alias name) =>
      skip
      match (← get).names.find? fun (n, _) => n = name with
      | some (_, number) => return .alias number
      | none => failure
    | _ =>
      let p ← properties
      let token ← peek
      match token with
      | some (.scalar style text) =>
        skip
        let place ← openAnchor p.anchor
        closeAnchor place (.scalar p.tag style text)
      | some .flowSequenceStart =>
        skip
        let place ← openAnchor p.anchor
        closeAnchor place (.sequence p.tag (← flowItems fuel true))
      | some .flowMappingStart =>
        skip
        let place ← openAnchor p.anchor
        closeAnchor place (.mapping p.tag (← flowEntries fuel true))
      | _ =>
        if flush ∧ token = some .blockEntry then
          let place ← openAnchor p.anchor
          closeAnchor place (.sequence p.tag (← flushItems fuel))
        else if block ∧ token = some .blockSequenceStart then
          skip
          let place ← openAnchor p.anchor
          closeAnchor place (.sequence p.tag (← blockItems fuel))
        else if block ∧ token = some .blockMappingStart then
          skip
          let place ← openAnchor p.anchor
          closeAnchor place (.mapping p.tag (← blockEntries fuel))
        else if p.anchor.isSome ∨ p.tag.isSome then
          let place ← openAnchor p.anchor
          closeAnchor place (.scalar p.tag .plain "")
        else failure

def nodeUnless (fuel : Nat) (tokens : List Token) (block flush : Bool) : ParseM Node :=
  match fuel with
  | 0 => failure
  | fuel + 1 => do
    if ← follows tokens then return .nothing else node fuel block flush

def blockItems (fuel : Nat) : ParseM (List Node) :=
  match fuel with
  | 0 => failure
  | fuel + 1 => do
    if ← accept .blockEntry then
      let item ← nodeUnless fuel [.blockEntry, .blockEnd] true false
      return item :: (← blockItems fuel)
    else if ← accept .blockEnd then return []
    else failure

def flushItems (fuel : Nat) : ParseM (List Node) :=
  match fuel with
  | 0 => failure
  | fuel + 1 => do
    if ← accept .blockEntry then
      let item ← nodeUnless fuel [.blockEntry, .key, .value, .blockEnd] true false
      return item :: (← flushItems fuel)
    else return []

def blockEntries (fuel : Nat) : ParseM (List (Node × Node)) :=
  match fuel with
  | 0 => failure
  | fuel + 1 => do
    if ← accept .key then
      let key ← nodeUnless fuel [.key, .value, .blockEnd] true true
      let value ←
        if ← accept .value then nodeUnless fuel [.key, .value, .blockEnd] true true
        else pure .nothing
      return (key, value) :: (← blockEntries fuel)
    else if ← accept .blockEnd then return []
    else failure

def flowValue (fuel : Nat) (last : Token) : ParseM Node :=
  match fuel with
  | 0 => failure
  | fuel + 1 => do
    if ← accept .value then nodeUnless fuel [.flowEntry, last] false false else return .nothing

def flowItems (fuel : Nat) (first : Bool) : ParseM (List Node) :=
  match fuel with
  | 0 => failure
  | fuel + 1 => do
    if ← accept .flowSequenceEnd then return []
    if !first then
      if !(← accept .flowEntry) then failure
      if ← accept .flowSequenceEnd then return []
    if ← accept .key then
      let key ←
        if ← follows [.value, .flowEntry, .flowSequenceEnd] then
          -- A key that is missing takes the token after it along.
          skip
          pure Node.nothing
        else node fuel false false
      let value ← flowValue fuel .flowSequenceEnd
      return .mapping none [(key, value)] :: (← flowItems fuel false)
    else
      let item ← node fuel false false
      return item :: (← flowItems fuel false)

def flowEntries (fuel : Nat) (first : Bool) : ParseM (List (Node × Node)) :=
  match fuel with
  | 0 => failure
  | fuel + 1 => do
    if ← accept .flowMappingEnd then return []
    if !first then
      if !(← accept .flowEntry) then failure
      if ← accept .flowMappingEnd then return []
    if ← accept .key then
      let key ← nodeUnless fuel [.value, .flowEntry, .flowMappingEnd] false false
      let value ← flowValue fuel .flowMappingEnd
      return (key, value) :: (← flowEntries fuel false)
    else
      let key ← node fuel false false
      return (key, .nothing) :: (← flowEntries fuel false)

end

/-! ### Documents -/

def defaultHandles : List (String × String) :=
  [("!", "!"), ("!!", "tag:yaml.org,2002:")]

def directives (fuel : Nat) (versioned : Bool) : ParseM Unit :=
  match fuel with
  | 0 => failure
  | fuel + 1 => do
    match ← peek with
    | some (.versionDirective major minor) =>
      if versioned ∨ major ≠ 1 ∨ (minor ≠ 1 ∧ minor ≠ 2) then failure
      skip
      directives fuel true
    | some (.tagDirective handle expansion) =>
      if (← get).handles.any fun (h, _) => h = handle then failure
      skip
      modify fun s => { s with handles := s.handles ++ [(handle, expansion)] }
      directives fuel versioned
    | _ => modify fun s => { s with handles := s.handles ++ defaultHandles }

def isDirective : Token → Bool
  | .versionDirective _ _ | .tagDirective _ _ => true
  | _ => false

def content (fuel : Nat) : ParseM Node := do
  match ← peek with
  | none => return .nothing
  | some token =>
    if isDirective token ∨ token = .documentStart ∨ token = .documentEnd then return .nothing
    else node fuel true false

/-- The only document of a text. A text without any document stands for nothing. -/
def document (fuel : Nat) : ParseM Node := do
  match ← peek with
  | none => return .nothing
  | some token =>
    directives fuel false
    let marked ← accept .documentStart
    if isDirective token ∧ !marked then failure
    let root ← if marked then content fuel else node fuel true false
    modify fun s => { s with tokens := s.tokens.dropWhile (· = .documentEnd) }
    if (← peek).isSome then failure
    return root

end Parse

def Document.parse? (text : String) : Option Document := do
  let tokens ← Token.scan? text
  let start : Parse := { tokens, handles := [], names := [], anchors := #[] }
  let (root, s) ← (Parse.document (4 * tokens.length + 4)).run start
  return { root, anchors := s.anchors.toList }

end Yaml

end Sequencer
