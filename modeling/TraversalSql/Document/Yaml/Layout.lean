import TraversalSql.Document.Yaml.Scalar
import TraversalSql.Document.Yaml.Tag

/-!
# From text to tokens

Outside brackets, blocks are nested by indentation: a block begins at the column of its first item
or key and ends at the first word further left. That something is a key shows only at the colon
behind it. So every place where a key may begin is kept in mind, and its tokens are put in there
once the colon comes. A key has to end on its line, within 1024 bytes.
-/

set_option autoImplicit false

namespace TraversalSql.Yaml

/-- A place where a key may have begun. -/
structure KeyStart where
  position : Position
  /-- How many tokens stand before it. -/
  index : Nat
  /-- It is in the column of the keys of a block, so that nothing else may stand there. -/
  required : Bool

/-- A key that began here can no longer go on. -/
def KeyStart.isStale (k : KeyStart) (p : Position) : Bool :=
  k.position.line < p.line || k.position.offset + 1024 < p.offset

/-- The tokens of the text before a cursor, and what decides about the text behind it. -/
structure Layout where
  cursor : Cursor
  /-- The tokens, last first. -/
  tokens : List Token := []
  count : Nat := 0
  /-- The first column whose words are inside the current block: zero outside of all blocks, else
  the one behind the column of its keys or items. -/
  margin : Nat := 0
  /-- The margins of the blocks around the current one, innermost first. -/
  margins : List Nat := []
  /-- A key may begin here. -/
  keyAllowed : Bool := true
  /-- Where the innermost brackets, or the text outside of brackets, may have begun a key. -/
  key : Option KeyStart := none
  /-- The same for everything around the innermost brackets, one for each pair of brackets. -/
  outerKeys : List (Option KeyStart) := []

namespace Layout

variable (l : Layout)

/-- The cursor is inside brackets. -/
def inFlow : Bool := !l.outerKeys.isEmpty

/-- A further token, with the cursor behind it. -/
def emit (t : Token) (c : Cursor) : Layout :=
  { l with tokens := t :: l.tokens, count := l.count + 1, cursor := c }

/-- A token of `n` characters. -/
def mark (t : Token) (n : Nat) : Layout := l.emit t (l.cursor.advance n)

/-- A token in front of those from a number on. -/
def insert (t : Token) (index : Nat) : Layout :=
  let later := l.count - index
  { l with tokens := l.tokens.take later ++ t :: l.tokens.drop later, count := l.count + 1 }

/-- Give up the place where a key may have begun. -/
def dropKey : Option Layout :=
  if l.key.any (·.required) then none else some { l with key := none }

/-- Keep the cursor as a place where a key may have begun, if one is allowed here. -/
def saveKey : Option Layout := do
  if l.keyAllowed then
    let l ← l.dropKey
    let required := !l.inFlow && l.margin == l.cursor.column + 1
    some { l with key := some ⟨l.cursor.position, l.count, required⟩ }
  else some l

/-- Give up all places whose keys can no longer go on. -/
def dropStaleKeys : Option Layout := do
  let fresh (k : Option KeyStart) : Option (Option KeyStart) :=
    match k with
    | some k =>
      if k.isStale l.cursor.position then if k.required then none else some none
      else some (some k)
    | none => some none
  return { l with key := ← fresh l.key, outerKeys := ← l.outerKeys.mapM fresh }

/-- Begin a block at a column, in front of the tokens from a number on, unless a block that reaches
this far is open. -/
def openBlock (t : Token) (column index : Nat) : Layout :=
  if !l.inFlow && l.margin ≤ column then
    { l.insert t index with margin := column + 1, margins := l.margin :: l.margins }
  else l

/-- End the innermost blocks of the given margins as long as they lie right of a column. -/
def closeFrom (l : Layout) (margin : Nat) : List Nat → Layout
  | [] => l
  | outer :: margins =>
    if margin < l.margin then
      closeFrom { l.emit .blockEnd l.cursor with margin := outer, margins := margins }
        margin margins
    else l

/-- End the blocks that the given margin is not inside of. Brackets keep blocks open. -/
def closeBlocks (margin : Nat) : Layout := if l.inFlow then l else closeFrom l margin l.margins

/-! ## Words and marks -/

/-- A token that ends all blocks, and behind which no key may begin. -/
def outermost (read : Layout → Option Layout) : Option Layout := do
  let l ← (l.closeBlocks 0).dropKey
  read { l with keyAllowed := false }

/-- A word that may be a key. -/
def word (read : Layout → Option Layout) : Option Layout := do
  let l ← l.saveKey
  read { l with keyAllowed := false }

/-- An opening bracket. -/
def openBracket (t : Token) : Option Layout := do
  let l ← l.saveKey
  let l := { l with outerKeys := l.key :: l.outerKeys, key := none, keyAllowed := true }
  return l.mark t 1

/-- A closing bracket. -/
def closeBracket (t : Token) : Option Layout := do
  let l ← l.dropKey
  let l := match l.outerKeys with
    | key :: outerKeys => { l with key := key, outerKeys := outerKeys }
    | [] => l
  return ({ l with keyAllowed := false }).mark t 1

/-- Outside brackets, a hyphen or question mark begins a block where a key may begin. -/
def beginEntry (t : Token) : Option Layout := do
  if l.inFlow then some l
  else if l.keyAllowed then some (l.openBlock t l.cursor.column l.count)
  else none

/-- A hyphen on its own. -/
def item : Option Layout := do
  let l ← (← l.beginEntry .blockListStart).dropKey
  return ({ l with keyAllowed := true }).mark .blockEntry 1

/-- A question mark on its own. -/
def longKey : Option Layout := do
  let l ← (← l.beginEntry .blockMapStart).dropKey
  return ({ l with keyAllowed := !l.inFlow }).mark .key 1

/-- A colon: what began where a key may have begun was a key. -/
def colon : Option Layout := do
  match l.key with
  | some k =>
    let l := (l.insert .key k.index).openBlock .blockMapStart k.position.column k.index
    return ({ l with key := none, keyAllowed := false }).mark .value 1
  | none =>
    let l ← l.beginEntry .blockMapStart
    return ({ l with keyAllowed := !l.inFlow }).mark .value 1

/-- A comma. -/
def comma : Option Layout := do
  let l ← l.dropKey
  return ({ l with keyAllowed := true }).mark .flowEntry 1

/-- An anchor or alias. -/
def anchor (t : String → Token) : Option Layout := do
  let (name, c) ← anchorName (l.cursor.advance 1)
  return l.emit (t name) c

/-- A scalar in quotes. -/
def quoted (read : Position → Folding → List Char → Option (Folding × Cursor)) :
    Option Layout := do
  let c := l.cursor.advance 1
  let (f, c) ← read c.position {} c.rest
  return l.emit (.scalar f.toString .quoted) c

/-- A block of lines. -/
def lines (literal : Bool) : Option Layout := do
  let l ← l.dropKey
  let (text, c) ← block literal l.margin (l.cursor.advance 1)
  return ({ l with keyAllowed := true }).emit (.scalar text (if literal then .literal else .quoted)) c

/-- A plain scalar. Behind a line break a key may begin. -/
def plain : Option Layout := do
  let (f, c) ← plainFrom l.inFlow l.margin l.cursor.position {} l.cursor.rest
  return ({ l with keyAllowed := f.onNewLine }).emit (.scalar f.toString .plain) c

/-- A plain scalar can begin with a character before the rest of a text. -/
def beginsPlain (c : Char) (rest : List Char) : Bool :=
  !(isIndicator c || isGap c) || c == '-'
    || (!l.inFlow && (c == '?' || c == ':') && !wordEnds rest)

/-- Read the token at the cursor, which begins with a character before the rest of the text. A tab
that is no part of the gap before it begins no token. -/
def token (c : Char) (rest : List Char) : Option Layout :=
  if l.cursor.column == 0 && c == '%' then
    l.outermost fun l => (directive? l.cursor).map fun (t, c) => l.emit t c
  else if l.cursor.column == 0 && isDocumentMark (c :: rest) then
    l.outermost fun l => some (l.mark (if c == '-' then .documentStart else .documentEnd) 3)
  else
    let alone := l.inFlow || wordEnds rest
    match c with
    | '[' => l.openBracket .flowListStart
    | '{' => l.openBracket .flowMapStart
    | ']' => l.closeBracket .flowListEnd
    | '}' => l.closeBracket .flowMapEnd
    | ',' => l.comma
    | '*' => l.word (anchor · .alias)
    | '&' => l.word (anchor · .anchor)
    | '!' => l.word fun l => (tag? l.inFlow l.cursor).map fun (t, c) => l.emit t c
    | '\'' => l.word (quoted · singleQuoted)
    | '"' => l.word (quoted · fun p f cs => doubleQuoted p f .none cs)
    | '|' => if l.inFlow then none else l.lines true
    | '>' => if l.inFlow then none else l.lines false
    | _ =>
      if c == '-' && wordEnds rest then l.item
      else if c == '?' && alone then l.longKey
      else if c == ':' && alone then l.colon
      else if l.beginsPlain c rest then l.word plain
      else none

/-! ## Gaps -/

/-- The cursor before the next token, and whether a key may begin there. A tab may not stand where
a key may begin, unless in brackets; line breaks allow keys, unless in brackets. -/
def pastGap (flow keyAllowed comment : Bool) (p : Position) : List Char → Bool × Cursor
  | [] => (keyAllowed, ⟨[], p⟩)
  | c :: cs =>
    if isBreak c then pastGap flow (keyAllowed || !flow) false (p.past c) cs
    else if comment || c == ' ' || (c == '\t' && (flow || !keyAllowed)) then
      pastGap flow keyAllowed comment (p.past c) cs
    else if c == '#' then pastGap flow keyAllowed true (p.past c) cs
    else (keyAllowed, ⟨c :: cs, p⟩)

/-- Pass over the gap before the next token, and end the blocks it is not inside of. -/
def skipGap : Option Layout := do
  let (keyAllowed, c) := pastGap l.inFlow l.keyAllowed false l.cursor.position l.cursor.rest
  let l ← ({ l with cursor := c, keyAllowed := keyAllowed }).dropStaleKeys
  return l.closeBlocks (c.column + 1)

/-- All tokens up to the end of the text. Each turn takes at least a character, so their number is
enough fuel. -/
def run : Nat → Layout → Option (List Token)
  | 0, _ => none
  | fuel + 1, l => do
    let l ← l.skipGap
    match l.cursor.rest with
    | [] =>
      let l ← (l.closeBlocks 0).dropKey
      return l.tokens.reverse
    | c :: rest => (← l.token c rest).run fuel

end Layout

/-- The tokens of a text. -/
def tokens? (text : List Char) : Option (List Token) :=
  Layout.run (text.length + 1) { cursor := ⟨text, {}⟩ }

end TraversalSql.Yaml
