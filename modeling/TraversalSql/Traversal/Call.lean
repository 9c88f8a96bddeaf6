import TraversalSql.Traversal.Step
import TraversalSql.Text.Blank

/-!
# Calls

A traversal's text is a chain of calls with literals, keywords, code blocks and nested chains as
arguments. Reading happens in two passes: this module recognises the calls, and what they mean as
steps is decided afterwards. Between tokens, blanks are spaces, tabs, carriage returns and line
feeds; there are no escapes inside quotes.

A reader takes the text that is left and returns what it recognised with the text behind it. The
readers that call each other are bounded by a count of nested readings; four for every character
left are more than any text can use.
-/

set_option autoImplicit false

namespace TraversalSql

mutual

/-- An argument of a call. -/
inductive Argument where
  | string (s : String)
  | int (i : Int64)
  | float (x : Double)
  | keyword (name : String)
  | lambda (code : String)
  | chain (calls : List Call)

/-- A name with arguments. -/
structure Call where
  name : String
  arguments : List Argument

end

instance : Inhabited Call := ⟨⟨"", []⟩⟩

mutual

/-- The argument as it is printed in messages and in steps that stay calls. -/
def Argument.text : Argument → String
  | .string s => Text.inQuotes s
  | .int i => intText i
  | .float x => x.text
  | .keyword name => name
  | .lambda code => "\x7b" ++ code ++ "\x7d"
  | .chain calls => Text.joined "." (callTexts calls)

def argumentTexts : List Argument → List String
  | [] => []
  | a :: as => a.text :: argumentTexts as

def Call.text : Call → String
  | ⟨name, arguments⟩ => name ++ "(" ++ Text.joined "," (argumentTexts arguments) ++ ")"

def callTexts : List Call → List String
  | [] => []
  | c :: cs => c.text :: callTexts cs

end

namespace Grammar

/-- A reader of one kind of phrase. -/
abbrev Reader (α : Type) := List Char → Option (α × List Char)

/-- A blank between tokens. -/
def isSpace (c : Char) : Bool := c == ' ' || c == '\t' || c == '\r' || c == '\n'

def skipSpaces (cs : List Char) : List Char := cs.dropWhile isSpace

/-- One character with blanks around it. -/
def symbol (c : Char) (cs : List Char) : Option (List Char) :=
  match skipSpaces cs with
  | d :: rest => if d = c then some (skipSpaces rest) else none
  | [] => none

def isLetter (c : Char) : Bool := c.isAlpha || c == '_'

def isLetterOrDigit (c : Char) : Bool := isLetter c || c.isDigit

/-- A name: a letter or underscore, then letters, digits and underscores, all ASCII. -/
def identifier : Reader String
  | [] => none
  | c :: cs =>
    if isLetter c then
      let (name, rest) := cs.span isLetterOrDigit
      some (String.ofList (c :: name), rest)
    else none

/-- The text from an opening character to the next closing one. -/
def enclosed (opening closing : Char) : Reader (List Char)
  | [] => none
  | c :: cs => if c = opening then Text.cutFirst closing cs else none

/-- Code between braces, without the blanks at its ends. -/
def lambda : Reader Argument := fun cs =>
  (enclosed '\x7b' '\x7d' cs).map fun (code, rest) =>
    (.lambda (String.ofList (Text.trimList code)), rest)

/-- A text in single or double quotes. -/
def quoted : Reader Argument := fun cs =>
  (enclosed '\'' '\'' cs <|> enclosed '"' '"' cs).map fun (s, rest) =>
    (.string (String.ofList s), rest)

/-- The number that a literal's characters spell: an integer if it is one and fits, otherwise the
nearest double. -/
def numberOf (literal : List Char) : Option Argument :=
  let text := String.ofList literal
  (Reading.integer? text).map Argument.int <|> (Reading.double? text).map Argument.float

/-- The characters of a number: digits, with a point only if digits follow it. -/
def unsignedDigits (cs : List Char) : Option (List Char × List Char) :=
  match Reading.spanDigits cs with
  | ([], _) => none
  | (whole, '.' :: rest) =>
    match Reading.spanDigits rest with
    | ([], _) => some (whole, '.' :: rest)
    | (fraction, rest) => some (whole ++ '.' :: fraction, rest)
  | (whole, rest) => some (whole, rest)

/-- An optional minus sign and digits. -/
def number : Reader Argument := fun cs => do
  let (literal, rest) ← match cs with
    | '-' :: cs => (unsignedDigits cs).map fun (ds, rest) => ('-' :: ds, rest)
    | cs => unsignedDigits cs
  let arg ← numberOf literal
  some (arg, rest)

/-- A name, or two with a dot between. -/
def keyword : Reader Argument := fun cs => do
  let (name, rest) ← identifier cs
  match rest with
  | '.' :: more =>
    match identifier more with
    | some (member, rest) => some (.keyword (name ++ "." ++ member), rest)
    | none => some (.keyword name, rest)
  | _ => some (.keyword name, rest)

/-- What stands behind the given characters, if the text starts with them. -/
def afterText : List Char → List Char → Option (List Char)
  | [], cs => some cs
  | _ :: _, [] => none
  | p :: ps, c :: cs => if p = c then afterText ps cs else none

/-- A nested chain may name the place its first call comes from; the name says nothing. -/
def dropOrigin (cs : List Char) : List Char :=
  (afterText "__.".toList cs <|> afterText "TextP.".toList cs <|> afterText "P.".toList cs).getD cs

mutual

def argument : Nat → Reader Argument
  | 0, _ => none
  | n + 1, cs =>
    let cs := skipSpaces cs
    let found := lambda cs <|> quoted cs <|> number cs
      <|> ((chain n cs).map fun (calls, rest) => (Argument.chain calls, rest))
      <|> keyword cs
    found.map fun (a, rest) => (a, skipSpaces rest)

/-- Arguments with commas between; none is allowed. -/
def arguments : Nat → List Char → List Argument × List Char
  | 0, cs => ([], cs)
  | n + 1, cs =>
    match argument n cs with
    | none => ([], cs)
    | some (a, rest) =>
      let (more, rest) := moreArguments n rest
      (a :: more, rest)

/-- Further arguments, each behind a comma. A comma without an argument is left alone. -/
def moreArguments : Nat → List Char → List Argument × List Char
  | 0, cs => ([], cs)
  | n + 1, cs =>
    match symbol ',' cs with
    | none => ([], cs)
    | some rest =>
      match argument n rest with
      | none => ([], cs)
      | some (a, rest) =>
        let (more, rest) := moreArguments n rest
        (a :: more, rest)

def call : Nat → Reader Call
  | 0, _ => none
  | n + 1, cs => do
    let (name, cs) ← identifier (skipSpaces cs)
    let cs ← symbol '(' cs
    let (args, cs) := arguments n cs
    let cs ← symbol ')' cs
    some (⟨name, args⟩, cs)

/-- Further calls, each behind a dot. A dot without a call is left alone. -/
def calls : Nat → List Char → List Call × List Char
  | 0, cs => ([], cs)
  | n + 1, cs =>
    match symbol '.' cs with
    | none => ([], cs)
    | some rest =>
      match call n rest with
      | none => ([], cs)
      | some (c, rest) =>
        let (more, rest) := calls n rest
        (c :: more, rest)

/-- A nested chain: at least one call. -/
def chain : Nat → Reader (List Call)
  | 0, _ => none
  | n + 1, cs => do
    let (first, cs) ← call n (dropOrigin cs)
    let (more, cs) := calls n cs
    some (first :: more, cs)

end

/-- More nested readings than a text of this length can use. -/
def depthFor (cs : List Char) : Nat := 4 * cs.length + 8

/-- A whole traversal: the graph, then its calls. -/
def source (cs : List Char) : Option (List Call × List Char) :=
  (symbol 'g' cs).map fun rest => calls (depthFor rest) rest

end Grammar

end TraversalSql
