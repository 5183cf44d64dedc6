/-!
A YAML text with a place in it. Line ends are made uniform first: a carriage return, alone or before
a line feed, and the next-line character all count as a line feed. The line and paragraph separators
end lines too, but stay what they are.
-/

namespace Sequencer

namespace Yaml

def isAllowed (c : Char) : Bool :=
  let n := c.toNat
  n = 0x09 || n = 0x0A || n = 0x0D || (0x20 ≤ n && n ≤ 0x7E) || n = 0x85 ||
    (0xA0 ≤ n && n ≤ 0xFFFD) || 0x10000 ≤ n

def uniformBreaks : List Char → List Char
  | [] => []
  | '\r' :: '\n' :: rest => '\n' :: uniformBreaks rest
  | '\r' :: rest => '\n' :: uniformBreaks rest
  | c :: rest => (if c = '\u0085' then '\n' else c) :: uniformBreaks rest

def isBreak (c : Char) : Bool :=
  c = '\n' || c = '\u2028' || c = '\u2029'

def isSpace (c : Char) : Bool :=
  c = ' ' || c = '\t'

/-- What is read past the end of the text. No text contains this character. -/
def endMark : Char := '\x00'

def isGap (c : Char) : Bool :=
  isSpace c || isBreak c || c = endMark

def isWordChar (c : Char) : Bool :=
  c.isAlphanum || c = '_' || c = '-'

structure Cursor where
  rest : List Char
  index : Nat
  line : Nat
  column : Nat

namespace Cursor

def ofText (text : List Char) : Cursor := ⟨text, 0, 0, 0⟩

def peek (c : Cursor) (n : Nat) : Char :=
  c.rest[n]?.getD endMark

def atEnd (c : Cursor) : Bool :=
  c.rest.isEmpty

def next (c : Cursor) : Cursor :=
  match c.rest with
  | [] => c
  | x :: rest =>
    if isBreak x then ⟨rest, c.index + x.utf8Size, c.line + 1, 0⟩
    else ⟨rest, c.index + x.utf8Size, c.line, c.column + 1⟩

def advance (c : Cursor) : Nat → Cursor
  | 0 => c
  | n + 1 => c.next.advance n

def takeWhile (c : Cursor) (p : Char → Bool) : List Char × Cursor :=
  let taken := c.rest.takeWhile p
  (taken, c.advance taken.length)

def skipWhile (c : Cursor) (p : Char → Bool) : Cursor :=
  (c.takeWhile p).2

def skipComment (c : Cursor) : Cursor :=
  if c.peek 0 = '#' then c.skipWhile fun x => !isBreak x else c

def endLine? (c : Cursor) : Option Cursor :=
  let c := (c.skipWhile isSpace).skipComment
  if c.atEnd then some c
  else if isBreak (c.peek 0) then some c.next
  else none

def atDocumentMark (c : Cursor) : Bool :=
  c.column = 0 &&
    (c.rest.take 3 = ['-', '-', '-'] || c.rest.take 3 = ['.', '.', '.']) && isGap (c.peek 3)

end Cursor

def Cursor.start? (text : String) : Option Cursor :=
  if text.toList.all isAllowed then some (.ofText (uniformBreaks text.toList)) else none

end Yaml

end Sequencer
