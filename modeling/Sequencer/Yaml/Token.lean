import Sequencer.Yaml.Scalar

/-!
The tokens of a YAML text. Whether something is a mapping key only shows when a colon follows it, so
a place where a key may have begun is remembered, and the tokens that open the key are put there
once the colon is found.
-/

namespace Sequencer

namespace Yaml

inductive Token where
  | versionDirective (major minor : Nat)
  | tagDirective (handle expansion : String)
  | documentStart
  | documentEnd
  | blockSequenceStart
  | blockMappingStart
  | blockEnd
  | flowSequenceStart
  | flowSequenceEnd
  | flowMappingStart
  | flowMappingEnd
  | blockEntry
  | flowEntry
  | key
  | value
  | alias (name : String)
  | anchor (name : String)
  /-- A tag, each octet of it as the character of that number. -/
  | tag (handle suffix : String)
  | scalar (style : Style) (text : String)
deriving DecidableEq

structure KeyStart where
  position : Nat
  /-- A key has to begin here, since the block is indented this far. -/
  required : Bool
  index : Nat
  line : Nat
  column : Nat

structure Scanner where
  cursor : Cursor
  tokens : Array Token
  flowLevel : Nat
  /-- The column of the innermost block, -1 outside all blocks. -/
  indent : Int
  outer : List Int
  keyAllowed : Bool
  /-- The key that may have begun, for each flow level from the innermost. -/
  keys : List (Option KeyStart)

namespace Scanner

def start (cursor : Cursor) : Scanner where
  cursor
  tokens := #[]
  flowLevel := 0
  indent := -1
  outer := []
  keyAllowed := true
  keys := [none]

def inFlow (s : Scanner) : Bool :=
  s.flowLevel ≠ 0

def push (s : Scanner) (token : Token) : Scanner :=
  { s with tokens := s.tokens.push token }

def insert (s : Scanner) (position : Nat) (token : Token) : Scanner :=
  { s with tokens := s.tokens.insertIdxIfInBounds position token }

def skip (s : Scanner) (n : Nat) : Scanner :=
  { s with cursor := s.cursor.advance n }

/-! ### Keys -/

def dropKey? : Option KeyStart → Option (Option KeyStart)
  | none => some none
  | some k => if k.required then none else some none

def removeKey? (s : Scanner) : Option Scanner :=
  match s.keys with
  | [] => some s
  | k :: rest => (dropKey? k).map fun k => { s with keys := k :: rest }

/-- Gives up the keys that are on an earlier line or more than 1024 octets back. -/
def staleKeys? (c : Cursor) : List (Option KeyStart) → Option (List (Option KeyStart))
  | [] => some []
  | none :: rest => (staleKeys? c rest).map (none :: ·)
  | some k :: rest => do
    let stale : Bool := k.line < c.line || k.index + 1024 < c.index
    let kept ← if stale then dropKey? (some k) else some (some k)
    return kept :: (← staleKeys? c rest)

def removeStaleKeys? (s : Scanner) : Option Scanner :=
  (staleKeys? s.cursor s.keys).map fun keys => { s with keys }

def saveKey? (s : Scanner) : Option Scanner :=
  if !s.keyAllowed then some s
  else do
    let s ← s.removeKey?
    let required : Bool := !s.inFlow && s.indent = s.cursor.column
    let k : KeyStart :=
      { position := s.tokens.size, required, index := s.cursor.index
        line := s.cursor.line, column := s.cursor.column }
    return { s with keys := some k :: s.keys.tail }

/-! ### Blocks -/

def roll (s : Scanner) (column : Nat) (position : Option Nat) (token : Token) : Scanner :=
  if s.inFlow ∨ (column : Int) ≤ s.indent then s
  else
    let s := { s with outer := s.indent :: s.outer, indent := column }
    match position with
    | none => s.push token
    | some position => s.insert position token

def unroll (s : Scanner) (column : Int) : Scanner :=
  if s.inFlow then s else go s.outer s
where
  go : List Int → Scanner → Scanner
    | [], s => s
    | indent :: outer, s =>
      if column < s.indent then go outer { s.push .blockEnd with indent, outer } else s

def closeAll? (s : Scanner) : Option Scanner :=
  (s.unroll (-1)).removeKey?.map fun s => { s with keyAllowed := false }

/-! ### Between tokens -/

def toNextToken (s : Scanner) : Nat → Scanner
  | 0 => s
  | fuel + 1 =>
    let c := s.cursor
    let c := if c.column = 0 ∧ c.peek 0 = '\ufeff' then c.next else c
    let c := c.skipWhile fun x => x = ' ' || ((s.inFlow || !s.keyAllowed) && x = '\t')
    let c := c.skipComment
    if isBreak (c.peek 0) then
      toNextToken { s with cursor := c.next, keyAllowed := s.keyAllowed || !s.inFlow } fuel
    else { s with cursor := c }

/-! ### Directives -/

def versionNumber? (c : Cursor) : Option (Nat × Cursor) :=
  let (digits, c) := c.takeWhile Char.isDigit
  if digits = [] ∨ 9 < digits.length then none
  else some (digits.foldl (fun n d => n * 10 + (d.toNat - '0'.toNat)) 0, c)

def tagHandle? (c : Cursor) : Option (List Char × Cursor) :=
  if c.peek 0 ≠ '!' then none
  else
    let (word, c) := c.next.takeWhile isWordChar
    if c.peek 0 = '!' then some ('!' :: word ++ ['!'], c.next) else some ('!' :: word, c)

def isUriChar (verbatim : Bool) (c : Char) : Bool :=
  isWordChar c || ";/?:@&=+$.!~*\x27()".toList.contains c ||
    (verbatim && (c = ',' || c = '[' || c = ']'))

def followingOctets? (octet : Nat) : Option Nat :=
  if octet < 0x80 then some 0
  else if octet / 0x20 = 6 then some 1
  else if octet / 0x10 = 14 then some 2
  else if octet / 0x08 = 30 then some 3
  else none

/--
The characters of a tag and the length they are written with. Octets may be written with a percent
sign; those of one character have to follow each other, and `owed` of them are still missing.
-/
def uriText? (verbatim : Bool) (owed : Nat) : List Char → Option (List Char × Nat)
  | '%' :: a :: b :: rest => do
    let octet := (← hexValue? a) * 16 + (← hexValue? b)
    let owed ←
      if owed = 0 then followingOctets? octet
      else if octet / 0x40 = 2 then some (owed - 1)
      else none
    let (text, n) ← uriText? verbatim owed rest
    return (Char.ofNat octet :: text, n + 3)
  | c :: rest =>
    if c = '%' then none
    else if isUriChar verbatim c ∧ owed = 0 then
      (uriText? verbatim owed rest).map fun (text, n) => (c :: text, n + 1)
    else if owed = 0 then some ([], 0)
    else none
  | [] => if owed = 0 then some ([], 0) else none

def uri? (verbatim required : Bool) (c : Cursor) : Option (List Char × Cursor) := do
  let (text, n) ← uriText? verbatim 0 c.rest
  if required ∧ n = 0 then none
  return (text.takeWhile (· ≠ '\x00'), c.advance n)

def versionDirective? (c : Cursor) : Option (Token × Cursor) := do
  let (major, c) ← versionNumber? (c.skipWhile isSpace)
  if c.peek 0 ≠ '.' then none
  let (minor, c) ← versionNumber? c.next
  return (.versionDirective major minor, c)

def tagDirective? (c : Cursor) : Option (Token × Cursor) := do
  let (handle, c) ← tagHandle? (c.skipWhile isSpace)
  if handle ≠ ['!'] ∧ handle.getLast? ≠ some '!' then none
  if !isSpace (c.peek 0) then none
  let (expansion, c) ← uri? true true (c.skipWhile isSpace)
  if !isGap (c.peek 0) then none
  return (.tagDirective (.ofList handle) (.ofList expansion), c)

def directive? (s : Scanner) : Option Scanner := do
  let s ← s.closeAll?
  let (name, c) := s.cursor.next.takeWhile isWordChar
  if name = [] ∨ !isGap (c.peek 0) then none
  let (token, c) ←
    if name = "YAML".toList then versionDirective? c
    else if name = "TAG".toList then tagDirective? c
    else none
  return { s.push token with cursor := ← c.endLine? }

/-! ### Tokens by their first character -/

def flowStart? (s : Scanner) (token : Token) : Option Scanner := do
  let s ← s.saveKey?
  return { (s.skip 1).push token with
    flowLevel := s.flowLevel + 1, keys := none :: s.keys, keyAllowed := true }

def flowEnd? (s : Scanner) (token : Token) : Option Scanner := do
  let s ← s.removeKey?
  let keys := if s.inFlow then s.keys.tail else s.keys
  return { (s.skip 1).push token with flowLevel := s.flowLevel - 1, keys, keyAllowed := false }

def flowEntry? (s : Scanner) : Option Scanner := do
  let s ← s.removeKey?
  return { (s.skip 1).push .flowEntry with keyAllowed := true }

def blockEntry? (s : Scanner) : Option Scanner := do
  if !s.inFlow ∧ !s.keyAllowed then none
  let s := s.roll s.cursor.column none .blockSequenceStart
  let s ← s.removeKey?
  return { (s.skip 1).push .blockEntry with keyAllowed := true }

def key? (s : Scanner) : Option Scanner := do
  if !s.inFlow ∧ !s.keyAllowed then none
  let s := s.roll s.cursor.column none .blockMappingStart
  let s ← s.removeKey?
  return { (s.skip 1).push .key with keyAllowed := !s.inFlow }

def value? (s : Scanner) : Option Scanner := do
  match s.keys.head?.join with
  | some k =>
    let s := s.insert k.position .key
    let s := s.roll k.column (some k.position) .blockMappingStart
    return { (s.skip 1).push .value with keys := none :: s.keys.tail, keyAllowed := false }
  | none =>
    if !s.inFlow ∧ !s.keyAllowed then none
    let s := s.roll s.cursor.column none .blockMappingStart
    return { (s.skip 1).push .value with keyAllowed := !s.inFlow }

def anchor? (s : Scanner) (token : String → Token) : Option Scanner := do
  let s ← s.saveKey?
  let (name, cursor) := s.cursor.next.takeWhile isWordChar
  let c := cursor.peek 0
  if name = [] ∨ !(isGap c || "?:,]\x7d%@\x60".toList.contains c) then none
  return { s.push (token (.ofList name)) with cursor, keyAllowed := false }

def tagParts? (c : Cursor) : Option (List Char × List Char × Cursor) := do
  if c.peek 1 = '<' then
    let (suffix, c) ← uri? true true (c.advance 2)
    if c.peek 0 ≠ '>' then none
    return ([], suffix, c.next)
  else
    let (handle, c) ← tagHandle? c
    if handle.length ≠ 1 ∧ handle.getLast? = some '!' then
      let (suffix, c) ← uri? false true c
      return (handle, suffix, c)
    else
      let (rest, c) ← uri? false false c
      let suffix := handle.tail ++ rest
      if suffix = [] then return ([], ['!'], c)
      return (['!'], suffix, c)

def tag? (s : Scanner) : Option Scanner := do
  let s ← s.saveKey?
  let (handle, suffix, cursor) ← tagParts? s.cursor
  if !isGap (cursor.peek 0) ∧ !(s.inFlow ∧ cursor.peek 0 = ',') then none
  return { s.push (.tag (.ofList handle) (.ofList suffix)) with cursor, keyAllowed := false }

def block? (s : Scanner) (isLiteral : Bool) : Option Scanner := do
  let s ← s.removeKey?
  let (text, cursor) ← blockScalar? isLiteral s.indent s.cursor.next
  let style : Style := if isLiteral then .literal else .folded
  return { s.push (.scalar style (.ofList text)) with cursor, keyAllowed := true }

def quoted? (s : Scanner) (single : Bool) : Option Scanner := do
  let s ← s.saveKey?
  let c := s.cursor.next
  let (text, cursor) ← quotedScalar? single (c.rest.length + 1) [] c
  let style : Style := if single then .singleQuoted else .doubleQuoted
  return { s.push (.scalar style (.ofList text)) with cursor, keyAllowed := false }

def plain? (s : Scanner) : Option Scanner := do
  let s ← s.saveKey?
  let c := s.cursor
  let scan ← plainScalar? s.inFlow (s.indent + 1) (c.rest.length + 1) [] .none c
  return { s.push (.scalar .plain (.ofList scan.text)) with
    cursor := scan.cursor, keyAllowed := scan.broken }

def startsPlain (inFlow : Bool) (first second : Char) : Bool :=
  !(isGap first || "-?:,[]\x7b\x7d#&*!|>\x27\x22%@\x60".toList.contains first) ||
    (first = '-' && !isSpace second) ||
    (!inFlow && (first = '?' || first = ':') && !isGap second)

def token? (s : Scanner) : Option Scanner :=
  let (first, second) := (s.cursor.peek 0, s.cursor.peek 1)
  if s.cursor.column = 0 ∧ first = '%' then s.directive?
  else if s.cursor.atDocumentMark then
    s.closeAll?.map fun s => (s.skip 3).push (if first = '-' then .documentStart else .documentEnd)
  else if first = '[' then s.flowStart? .flowSequenceStart
  else if first = '\x7b' then s.flowStart? .flowMappingStart
  else if first = ']' then s.flowEnd? .flowSequenceEnd
  else if first = '\x7d' then s.flowEnd? .flowMappingEnd
  else if first = ',' then s.flowEntry?
  else if first = '-' ∧ isGap second then s.blockEntry?
  else if first = '?' ∧ (s.inFlow ∨ isGap second) then s.key?
  else if first = ':' ∧ (s.inFlow ∨ isGap second) then s.value?
  else if first = '*' then s.anchor? .alias
  else if first = '&' then s.anchor? .anchor
  else if first = '!' then s.tag?
  else if first = '|' ∧ !s.inFlow then s.block? true
  else if first = '>' ∧ !s.inFlow then s.block? false
  else if first = '\x27' then s.quoted? true
  else if first = '\x22' then s.quoted? false
  else if startsPlain s.inFlow first second then s.plain?
  else none

def run? (s : Scanner) : Nat → Option Scanner
  | 0 => none
  | fuel + 1 => do
    let s ← (s.toNextToken (s.cursor.rest.length + 1)).removeStaleKeys?
    let s := s.unroll s.cursor.column
    if s.cursor.atEnd then s.closeAll?
    else run? (← s.token?) fuel

end Scanner

def Token.scan? (text : String) : Option (List Token) := do
  let cursor ← Cursor.start? text
  let scanner ← (Scanner.start cursor).run? (cursor.rest.length + 1)
  return scanner.tokens.toList

end Yaml

end Sequencer
