import TraversalSql.Document.Yaml.Cursor

/-!
# Scalars

Scalars are plain words, words in quotes, or blocks of lines. A scalar that goes over several lines
is folded: blanks around a line break are dropped, a single line break counts as a space, and of
several the first is dropped. Only a separator of lines or paragraphs stands for itself.
-/

set_option autoImplicit false

namespace TraversalSql.Yaml

/-- What a run of line breaks within a scalar counts as. -/
def foldBreaks : List Char → List Char
  | ['\n'] => [' ']
  | '\n' :: more => more
  | breaks => breaks

/-- A scalar as it is read: its text, and the blanks and line breaks behind its last word. All
lists have the last character first. -/
structure Folding where
  text : List Char := []
  blanks : List Char := []
  breaks : List Char := []
  /-- The first of the line breaks was escaped, and does not count. -/
  continued : Bool := false

namespace Folding

/-- The scalar has gone over to a further line since its last word. -/
def onNewLine (f : Folding) : Bool := f.continued || !f.breaks.isEmpty

/-- A blank or a line break is read. Blanks count only on the line of the last word. -/
def gap (f : Folding) (c : Char) : Folding :=
  if isBreak c then { f with blanks := [], breaks := c :: f.breaks }
  else if f.onNewLine then f
  else { f with blanks := c :: f.blanks }

/-- What stands behind the last word becomes part of the text. -/
def settle (f : Folding) : Folding :=
  if f.continued then ⟨f.breaks ++ f.text, [], [], false⟩
  else if f.breaks.isEmpty then ⟨f.blanks ++ f.text, [], [], false⟩
  else ⟨(foldBreaks f.breaks.reverse).reverse ++ f.text, [], [], false⟩

/-- An escaped line break is read. -/
def joinLines (f : Folding) : Folding := { f.settle with continued := true }

/-- A character of a word is read. -/
def push (f : Folding) (c : Char) : Folding :=
  let f := f.settle
  { f with text := c :: f.text }

def toString (f : Folding) : String := String.ofList f.text.reverse

end Folding

/-! ## Plain scalars -/

/-- A plain scalar ends before the text that is left, which begins with no gap. Behind a gap, it
also ends at a comment, at a mark of the document's end and, outside brackets, left of its
margin. -/
def plainEnds (flow : Bool) (margin : Nat) (p : Position) (afterGap : Bool) : List Char → Bool
  | [] => true
  | c :: cs =>
    (afterGap && (c == '#' || (!flow && p.column < margin)
        || (p.column == 0 && isDocumentMark (c :: cs))))
      || (c == ':' && wordEnds cs) || (flow && isFlowMark c)

/-- A colon right before a bracket, comma or question mark, which is refused inside brackets. -/
def isStrayColon : List Char → Bool
  | ':' :: c :: _ => isFlowMark c || c == '?'
  | _ => false

/-- Read a plain scalar. A tab may not take the place of indentation. -/
def plainFrom (flow : Bool) (margin : Nat) (p : Position) (f : Folding) :
    List Char → Option (Folding × Cursor)
  | [] => some (f, ⟨[], p⟩)
  | c :: cs =>
    if isGap c then
      if c == '\t' && f.onNewLine && p.column < margin then none
      else plainFrom flow margin (p.past c) (f.gap c) cs
    else
      let afterGap := f.onNewLine || !f.blanks.isEmpty
      if afterGap && plainEnds flow margin p true (c :: cs) then some (f, ⟨c :: cs, p⟩)
      else if flow && isStrayColon (c :: cs) then none
      else if plainEnds flow margin p false (c :: cs) then some (f, ⟨c :: cs, p⟩)
      else plainFrom flow margin (p.past c) (f.push c) cs

/-! ## Scalars in quotes -/

/-- Read a scalar in single quotes, behind the first. A quote inside is written twice. -/
def singleQuoted (p : Position) (f : Folding) : List Char → Option (Folding × Cursor)
  | [] => none
  | '\'' :: '\'' :: cs => singleQuoted ((p.past '\'').past '\'') (f.push '\'') cs
  | '\'' :: cs => some (f.settle, ⟨cs, p.past '\''⟩)
  | c :: cs =>
    if isGap c then singleQuoted (p.past c) (f.gap c) cs
    else if p.column == 0 && isDocumentMark (c :: cs) then none
    else singleQuoted (p.past c) (f.push c) cs

/-- How far an escape has been read: not begun, behind the backslash, or with some digits of a
code point still to come. -/
inductive Escape where
  | none
  | begun
  | digits (left value : Nat)

/-- The character that a letter behind a backslash stands for. -/
def escaped? : Char → Option Char
  | '0' => some (Char.ofNat 0)
  | 'a' => some (Char.ofNat 7)
  | 'b' => some (Char.ofNat 8)
  | 't' | '\t' => some '\t'
  | 'n' => some '\n'
  | 'v' => some (Char.ofNat 11)
  | 'f' => some (Char.ofNat 12)
  | 'r' => some '\r'
  | 'e' => some (Char.ofNat 27)
  | ' ' => some ' '
  | '"' => some '"'
  | '/' => some '/'
  | '\\' => some '\\'
  | 'N' => some (Char.ofNat 0x85)
  | '_' => some (Char.ofNat 0xA0)
  | 'L' => some (Char.ofNat 0x2028)
  | 'P' => some (Char.ofNat 0x2029)
  | _ => none

/-- How many digits of a code point follow a letter behind a backslash. -/
def escapeDigits? : Char → Option Nat
  | 'x' => some 2
  | 'u' => some 4
  | 'U' => some 8
  | _ => none

/-- The character of a code point, if there is one. -/
def charOf? (n : Nat) : Option Char := if n.isValidChar then some (Char.ofNat n) else none

/-- Read a scalar in double quotes, behind the first. -/
def doubleQuoted (p : Position) (f : Folding) : Escape → List Char → Option (Folding × Cursor)
  | _, [] => none
  | .digits left value, c :: cs => do
    let value := value * 16 + (← hexDigit? c)
    if left ≤ 1 then doubleQuoted (p.past c) (f.push (← charOf? value)) .none cs
    else doubleQuoted (p.past c) f (.digits (left - 1) value) cs
  | .begun, c :: cs =>
    if isBreak c then doubleQuoted (p.past c) f.joinLines .none cs
    else
      match escaped? c, escapeDigits? c with
      | some d, _ => doubleQuoted (p.past c) (f.push d) .none cs
      | none, some n => doubleQuoted (p.past c) f (.digits n 0) cs
      | none, none => none
  | .none, c :: cs =>
    if isGap c then doubleQuoted (p.past c) (f.gap c) .none cs
    else if p.column == 0 && isDocumentMark (c :: cs) then none
    else if c == '"' then some (f.settle, ⟨cs, p.past c⟩)
    else if c == '\\' then doubleQuoted (p.past c) f .begun cs
    else doubleQuoted (p.past c) (f.push c) .none cs

/-! ## Blocks of lines -/

/-- What becomes of the line breaks at the end of a block. -/
inductive Chomping where
  | strip
  | clip
  | keep
deriving DecidableEq, Repr

/-- How a block is written: line by line or folded, what becomes of its end, and how far its lines
are indented, if that is said. -/
structure BlockStyle where
  literal : Bool
  chomping : Chomping := .clip
  indent : Option Nat := none

def chomping? : Char → Option Chomping
  | '-' => some .strip
  | '+' => some .keep
  | _ => none

def blockIndent? (c : Char) : Option Nat :=
  if c.isDigit && c != '0' then some (c.toNat - '0'.toNat) else none

/-- Read the marks behind a block's first, at most one of each kind. -/
def blockStyle (style : BlockStyle) (c : Cursor) : BlockStyle × Cursor :=
  let chomped (style : BlockStyle) (c : Cursor) : Option (BlockStyle × Cursor) := do
    return ({ style with chomping := ← chomping? (← c.rest.head?) }, c.advance 1)
  let indented (style : BlockStyle) (c : Cursor) : Option (BlockStyle × Cursor) := do
    return ({ style with indent := some (← blockIndent? (← c.rest.head?)) }, c.advance 1)
  match chomped style c with
  | some (style, c) => (indented style c).getD (style, c)
  | none =>
    match indented style c with
    | some (style, c) => (chomped style c).getD (style, c)
    | none => (style, c)

/-- Pass over indentation and empty lines, up to column `indent` if that is known. The result is
the furthest column that was reached and the line breaks, last first. -/
def emptyLines (indent : Option Nat) (furthest : Nat) (p : Position) (breaks : List Char) :
    List Char → Option (Nat × List Char × Cursor)
  | [] => some (max furthest p.column, breaks, ⟨[], p⟩)
  | c :: cs =>
    let within := indent.all (p.column < ·)
    if c == ' ' && within then emptyLines indent furthest (p.past c) breaks cs
    else if c == '\t' && within then none
    else if isBreak c then
      emptyLines indent (max furthest p.column) (p.past c) (c :: breaks) cs
    else some (max furthest p.column, breaks, ⟨c :: cs, p⟩)

/-- A block as it is read: its text, the line break behind its last line and those of the empty
lines behind that, all with the last character first. -/
structure Block where
  text : List Char := []
  lineBreak : List Char := []
  breaks : List Char := []
  /-- The last line began with a blank. -/
  blankLine : Bool := false

/-- The text with the line breaks before a further line, which are folded between two lines that
begin with words. -/
def Block.joined (b : Block) (literal blankLine : Bool) : List Char :=
  if !literal && b.lineBreak == ['\n'] && !b.blankLine && !blankLine then
    b.breaks ++ (if b.breaks.isEmpty then ' ' :: b.text else b.text)
  else b.breaks ++ b.lineBreak ++ b.text

/-- The text with what is kept of the line breaks at its end. -/
def Block.chomped (b : Block) : Chomping → List Char
  | .strip => b.text
  | .clip => b.lineBreak ++ b.text
  | .keep => b.breaks ++ b.lineBreak ++ b.text

/-- Read the lines of a block, which begin at column `indent`. Each turn takes at least a
character, so their number is enough fuel. -/
def blockLines (literal : Bool) (indent : Nat) : Nat → Block → Cursor → Option (Block × Cursor)
  | 0, b, c => some (b, c)
  | fuel + 1, b, c =>
    match c.rest with
    | [] => some (b, c)
    | d :: _ =>
      if c.column != indent then some (b, c)
      else do
        let (line, c) := c.span fun d => !isBreak d
        let lineBreak := c.rest.take 1
        let c := c.advance 1
        let (_, breaks, c) ← emptyLines (some indent) 0 c.position [] c.rest
        let text := line.reverse ++ b.joined literal (isBlank d)
        blockLines literal indent fuel ⟨text, lineBreak, breaks, isBlank d⟩ c

/-- Read a block behind its first mark, inside a block of the given margin. -/
def block (literal : Bool) (margin : Nat) (c : Cursor) : Option (String × Cursor) := do
  let (style, c) := blockStyle ⟨literal, .clip, none⟩ c
  let c ← c.restOfLine
  let indent := style.indent.map fun n => margin - 1 + n
  let (furthest, breaks, c) ← emptyLines indent 0 c.position [] c.rest
  let indent := indent.getD (max furthest (max margin 1))
  let (b, c) ← blockLines literal indent (c.rest.length + 1) { breaks := breaks } c
  return (String.ofList (b.chomped style.chomping).reverse, c)

end TraversalSql.Yaml
