import TraversalSql.Document.Yaml.Character

/-!
# Places in a text

Where a word stands decides what it means: blocks are nested by their columns, and a key has to end
on the line on which it began, not too far behind. A cursor holds the text that is left and its
place.
-/

set_option autoImplicit false

namespace TraversalSql.Yaml

/-- A place in a text. -/
structure Position where
  /-- Bytes before the place. -/
  offset : Nat := 0
  line : Nat := 0
  /-- Characters before it on its line. -/
  column : Nat := 0
deriving DecidableEq, Repr

/-- The place behind a character. -/
def Position.past (p : Position) (c : Char) : Position :=
  if isBreak c then ⟨p.offset + c.utf8Size, p.line + 1, 0⟩
  else ⟨p.offset + c.utf8Size, p.line, p.column + 1⟩

/-- The text that is left, and where it begins. -/
structure Cursor where
  rest : List Char
  position : Position := {}

/-- No word goes on: the text ends, or a blank or a line break follows. -/
def wordEnds : List Char → Bool
  | [] => true
  | c :: _ => isGap c

/-- Three hyphens or three dots on their own, which begin or end a document. -/
def isDocumentMark : List Char → Bool
  | '-' :: '-' :: '-' :: cs => wordEnds cs
  | '.' :: '.' :: '.' :: cs => wordEnds cs
  | _ => false

namespace Cursor

def column (c : Cursor) : Nat := c.position.column

/-- The cursor behind the next `n` characters. -/
def advance (c : Cursor) (n : Nat) : Cursor :=
  ⟨c.rest.drop n, (c.rest.take n).foldl Position.past c.position⟩

/-- The characters up to the first that fails a test, and the cursor behind them. -/
def span (c : Cursor) (test : Char → Bool) : List Char × Cursor :=
  let word := c.rest.takeWhile test
  (word, c.advance word.length)

/-- The cursor behind all characters up to the first that fails a test. -/
def skip (c : Cursor) (test : Char → Bool) : Cursor := (c.span test).2

/-- The cursor behind a character, if that comes next. -/
def expect (c : Cursor) (d : Char) : Option Cursor :=
  if c.rest.head? = some d then some (c.advance 1) else none

/-- The cursor at the end of the line or, behind blanks and a comment only, at the start of the
next; nothing else may be left on the line. -/
def restOfLine (c : Cursor) : Option Cursor :=
  let c := c.skip isBlank
  let c := if c.rest.head? = some '#' then c.skip fun d => !isBreak d else c
  match c.rest with
  | [] => some c
  | d :: _ => if isBreak d then some (c.advance 1) else none

end Cursor

end TraversalSql.Yaml
