/-!
# Characters of YAML

Which characters a text may hold, and the classes that reading it tells apart. Line breaks come in
five spellings; three of them count as a line feed, and the separators of lines and paragraphs
stand for themselves. After `withLineFeeds` has replaced the three, a line break is always one character.
-/

set_option autoImplicit false

namespace TraversalSql.Yaml

/-- A character that may stand in a text: anything but control characters, byte order marks and
code points that are no characters. Of the controls, tabs and line breaks are allowed. -/
def isAllowed (c : Char) : Bool :=
  let n := c.toNat
  n == 0x9 || n == 0xA || n == 0xD || (0x20 ≤ n && n ≤ 0x7E) || n == 0x85
    || (0xA0 ≤ n && n ≤ 0xFFFD && n != 0xFEFF) || 0x10000 ≤ n

/-- The text without a byte order mark at its front. -/
def withoutMark : List Char → List Char
  | [] => []
  | c :: cs => if c.toNat = 0xFEFF then cs else c :: cs

/-- The text with every carriage return, with or without a line feed, and every next-line
character written as a line feed. -/
def withLineFeeds : List Char → List Char
  | [] => []
  | '\r' :: '\n' :: cs => '\n' :: withLineFeeds cs
  | c :: cs => (if c = '\r' ∨ c.toNat = 0x85 then '\n' else c) :: withLineFeeds cs

/-- A space or a tab. -/
def isBlank (c : Char) : Bool := c == ' ' || c == '\t'

/-- A line feed, or a separator of lines or paragraphs. -/
def isBreak (c : Char) : Bool := c == '\n' || c.toNat == 0x2028 || c.toNat == 0x2029

/-- A character between words. -/
def isGap (c : Char) : Bool := isBlank c || isBreak c

/-- A character of names: a letter or digit of ASCII, an underscore or a hyphen. -/
def isNameChar (c : Char) : Bool := c.isAlphanum || c == '_' || c == '-'

/-- A bracket or comma, which ends a word inside brackets. -/
def isFlowMark (c : Char) : Bool := c == ',' || c == '[' || c == ']' || c == '{' || c == '}'

/-- A character that no word can start with. A hyphen, a question mark and a colon can start one
if they do not stand alone. -/
def isIndicator (c : Char) : Bool := "-?:,[]\x7b\x7d#&*!|>'\"%@`".toList.contains c

/-- The value of a digit of base sixteen. -/
def hexDigit? (c : Char) : Option Nat :=
  if c.isDigit then some (c.toNat - '0'.toNat)
  else if 'a' ≤ c.toLower ∧ c.toLower ≤ 'f' then some (c.toLower.toNat - 'a'.toNat + 10)
  else none

end TraversalSql.Yaml
