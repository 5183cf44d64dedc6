import Sequencer.Yaml.Cursor

/-!
Scanning scalars: plain ones, quoted ones and block scalars, with the folding of their lines.
-/

namespace Sequencer

namespace Yaml

inductive Style where
  | plain
  | singleQuoted
  | doubleQuoted
  | literal
  | folded
deriving Repr, DecidableEq

/-! ### Blanks between words -/

structure Blanks where
  spaces : List Char
  /-- A line end was passed, so the spaces around it do not count. -/
  broken : Bool
  leading : List Char
  trailing : List Char

namespace Blanks

def none : Blanks := ⟨[], false, [], []⟩

/-- What the blanks contribute to the text: one line feed folds to a space or vanishes. -/
def folded (b : Blanks) : List Char :=
  if !b.broken then b.spaces
  else if b.leading = ['\n'] then
    if b.trailing = [] then [' '] else b.trailing
  else b.leading ++ b.trailing

def addBreak (b : Blanks) (c : Char) : Blanks :=
  if b.broken then { b with trailing := b.trailing ++ [c] }
  else { b with spaces := [], broken := true, leading := [c] }

def read? (indent : Int) (column : Nat) (b : Blanks) : List Char → Option (Blanks × Nat)
  | [] => some (b, 0)
  | c :: rest =>
    if isSpace c then
      if b.broken then
        if c = '\t' ∧ (column : Int) < indent then Option.none
        else (read? indent (column + 1) b rest).map fun (b, n) => (b, n + 1)
      else
        (read? indent (column + 1) { b with spaces := b.spaces ++ [c] } rest).map
          fun (b, n) => (b, n + 1)
    else if isBreak c then
      (read? indent 0 (b.addBreak c) rest).map fun (b, n) => (b, n + 1)
    else some (b, 0)

end Blanks

/-! ### Plain scalars -/

structure PlainScan where
  text : List Char
  cursor : Cursor
  broken : Bool

def isFlowMark (c : Char) : Bool :=
  c = ',' || c = '[' || c = ']' || c = '\x7b' || c = '\x7d'

def plainWord? (inFlow : Bool) : List Char → Option (List Char)
  | [] => some []
  | c :: rest =>
    let following := rest.head?.getD endMark
    if isGap c then some []
    else if inFlow ∧ c = ':' ∧ (following = '?' ∨ isFlowMark following) then none
    else if c = ':' ∧ isGap following then some []
    else if inFlow ∧ isFlowMark c then some []
    else (plainWord? inFlow rest).map (c :: ·)

def plainScalar? (inFlow : Bool) (indent : Int) (fuel : Nat) (text : List Char) (blanks : Blanks)
    (cursor : Cursor) : Option PlainScan :=
  match fuel with
  | 0 => none
  | fuel + 1 => do
    if cursor.atDocumentMark ∨ cursor.peek 0 = '#' then return ⟨text, cursor, blanks.broken⟩
    let word ← plainWord? inFlow cursor.rest
    let cursor := cursor.advance word.length
    let (text, blanks) :=
      if word.isEmpty then (text, blanks) else (text ++ blanks.folded ++ word, Blanks.none)
    if cursor.atEnd ∨ !isGap (cursor.peek 0) then return ⟨text, cursor, blanks.broken⟩
    let (blanks, count) ← blanks.read? indent cursor.column cursor.rest
    let cursor := cursor.advance count
    if !inFlow ∧ (cursor.column : Int) < indent then return ⟨text, cursor, blanks.broken⟩
    plainScalar? inFlow indent fuel text blanks cursor

/-! ### Quoted scalars -/

def hexValue? (c : Char) : Option Nat :=
  if c.isDigit then some (c.toNat - '0'.toNat)
  else if 'a' ≤ c ∧ c ≤ 'f' then some (c.toNat - 'a'.toNat + 10)
  else if 'A' ≤ c ∧ c ≤ 'F' then some (c.toNat - 'A'.toNat + 10)
  else none

def codePoint? (digits : List Char) : Option Char := do
  let n ← digits.foldlM (fun n c => (hexValue? c).map (n * 16 + ·)) 0
  if n.isValidChar then some (Char.ofNat n) else none

def escapedChar? : Char → Option Char
  | '0' => some '\x00'
  | 'a' => some '\x07'
  | 'b' => some '\x08'
  | 't' => some '\t'
  | '\t' => some '\t'
  | 'n' => some '\n'
  | 'v' => some '\x0b'
  | 'f' => some '\x0c'
  | 'r' => some '\r'
  | 'e' => some '\x1b'
  | ' ' => some ' '
  | '\x22' => some '\x22'
  | '/' => some '/'
  | '\\' => some '\\'
  | 'N' => some '\u0085'
  | '_' => some '\u00a0'
  | 'L' => some '\u2028'
  | 'P' => some '\u2029'
  | _ => none

structure QuotedWord where
  text : List Char
  length : Nat
  /-- A backslash at the end of the line ended the piece. -/
  escapedBreak : Bool

def QuotedWord.empty : QuotedWord := ⟨[], 0, false⟩

def QuotedWord.cons (c : Char) (length : Nat) (word : QuotedWord) : QuotedWord :=
  { word with text := c :: word.text, length := word.length + length }

def singleQuotedWord : List Char → QuotedWord
  | [] => .empty
  | '\x27' :: '\x27' :: rest => (singleQuotedWord rest).cons '\x27' 2
  | c :: rest => if isGap c ∨ c = '\x27' then .empty else (singleQuotedWord rest).cons c 1

def doubleQuotedWord? : List Char → Option QuotedWord
  | [] => some .empty
  | '\\' :: 'x' :: a :: b :: rest => do
    let c ← codePoint? [a, b]
    return (← doubleQuotedWord? rest).cons c 4
  | '\\' :: 'u' :: a :: b :: c :: d :: rest => do
    let c ← codePoint? [a, b, c, d]
    return (← doubleQuotedWord? rest).cons c 6
  | '\\' :: 'U' :: a :: b :: c :: d :: e :: f :: g :: h :: rest => do
    let c ← codePoint? [a, b, c, d, e, f, g, h]
    return (← doubleQuotedWord? rest).cons c 10
  | '\\' :: e :: rest =>
    if isBreak e then some ⟨[], 2, true⟩
    else do
      let c ← escapedChar? e
      return (← doubleQuotedWord? rest).cons c 2
  | c :: rest =>
    if c = '\\' then none
    else if isGap c ∨ c = '\x22' then some .empty
    else (doubleQuotedWord? rest).map (·.cons c 1)

def quotedScalar? (single : Bool) (fuel : Nat) (text : List Char) (cursor : Cursor) :
    Option (List Char × Cursor) :=
  match fuel with
  | 0 => none
  | fuel + 1 => do
    if cursor.atDocumentMark ∨ cursor.atEnd then none
    let word ← if single then some (singleQuotedWord cursor.rest) else doubleQuotedWord? cursor.rest
    let text := text ++ word.text
    let cursor := cursor.advance word.length
    if cursor.peek 0 = (if single then '\x27' else '\x22') then return (text, cursor.next)
    let start := { Blanks.none with broken := word.escapedBreak }
    let (blanks, count) ← start.read? 0 cursor.column cursor.rest
    quotedScalar? single fuel (text ++ blanks.folded) (cursor.advance count)

/-! ### Block scalars -/

inductive Chomping where
  | strip
  | clip
  | keep
deriving DecidableEq

structure BlockGap where
  deepest : Nat
  breaks : List Char
  length : Nat

/--
Reads indentation up to the column `indent` and the ends of empty lines. While the indentation is
not known, which is written as 0, all spaces count. A tab may not stand in the indentation.
-/
def blockGap? (indent : Nat) (column : Nat) (gap : BlockGap) : List Char → Option BlockGap
  | [] => some { gap with deepest := max gap.deepest column }
  | c :: rest =>
    let indenting := indent = 0 ∨ column < indent
    if indenting ∧ c = ' ' then
      blockGap? indent (column + 1) { gap with length := gap.length + 1 } rest
    else
      let gap := { gap with deepest := max gap.deepest column }
      if indenting ∧ c = '\t' then none
      else if isBreak c then
        blockGap? indent 0 { gap with breaks := gap.breaks ++ [c], length := gap.length + 1 } rest
      else some gap

structure BlockText where
  text : List Char
  lastBreak : List Char
  breaks : List Char
  /-- The last line began with a space, which keeps its line end from being folded. -/
  spaced : Bool

def blockLines? (isLiteral : Bool) (indent : Nat) (fuel : Nat) (b : BlockText) (cursor : Cursor) :
    Option (BlockText × Cursor) :=
  match fuel with
  | 0 => none
  | fuel + 1 => do
    if cursor.column ≠ indent ∨ cursor.atEnd then return (b, cursor)
    let spaced := isSpace (cursor.peek 0)
    let joined :=
      if !isLiteral ∧ b.lastBreak = ['\n'] ∧ !b.spaced ∧ !spaced then
        if b.breaks = [] then [' '] else []
      else b.lastBreak
    let (line, cursor) := cursor.takeWhile fun c => !isBreak c
    let text := b.text ++ joined ++ b.breaks ++ line
    let lastBreak := cursor.rest.take 1
    let cursor := cursor.next
    let gap ← blockGap? indent cursor.column ⟨0, [], 0⟩ cursor.rest
    let b := { text, lastBreak, breaks := gap.breaks, spaced }
    blockLines? isLiteral indent fuel b (cursor.advance gap.length)

def blockHeader? (cursor : Cursor) : Option (Chomping × Nat × Cursor) :=
  let chomping? : Char → Option Chomping
    | '+' => some .keep
    | '-' => some .strip
    | _ => none
  let indent? (c : Char) : Option Nat := if c.isDigit then hexValue? c else none
  let (first, second) := (cursor.peek 0, cursor.peek 1)
  let header : Chomping × Option Nat × Nat :=
    match chomping? first, indent? first with
    | some chomping, _ =>
      match indent? second with
      | some n => (chomping, some n, 2)
      | none => (chomping, none, 1)
    | none, some n =>
      match chomping? second with
      | some chomping => (chomping, some n, 2)
      | none => (.clip, some n, 1)
    | none, none => (.clip, none, 0)
  let (chomping, indent, length) := header
  if indent = some 0 then none else some (chomping, indent.getD 0, cursor.advance length)

def blockScalar? (isLiteral : Bool) (parent : Int) (cursor : Cursor) :
    Option (List Char × Cursor) := do
  let (chomping, extra, cursor) ← blockHeader? cursor
  let cursor ← cursor.endLine?
  let given : Nat := if extra = 0 then 0 else (max parent 0).toNat + extra
  let gap ← blockGap? given cursor.column ⟨0, [], 0⟩ cursor.rest
  let indent := if given = 0 then max (max gap.deepest (parent + 1).toNat) 1 else given
  let cursor := cursor.advance gap.length
  let start : BlockText := { text := [], lastBreak := [], breaks := gap.breaks, spaced := false }
  let (b, cursor) ← blockLines? isLiteral indent (cursor.rest.length + 1) start cursor
  let tail :=
    match chomping with
    | .strip => []
    | .clip => b.lastBreak
    | .keep => b.lastBreak ++ b.breaks
  return (b.text ++ tail, cursor)

end Yaml

end Sequencer
