import TraversalSql.Document.Yaml.Cursor
import TraversalSql.Document.Yaml.Token

/-!
# Names of parts and their tags

An anchor gives a part of a document a name, and an alias stands for the part of that name. A tag
says what kind of value a part is. Tags are shortened by handles, which directives at the front of
a document declare: `!e!kind` is the name `kind` behind the meaning of the handle `!e!`.
-/

set_option autoImplicit false

namespace TraversalSql.Yaml

/-- Whether the name of an anchor ends here. -/
def anchorEnds : List Char → Bool
  | [] => true
  | c :: _ => isGap c || "?:,]\x7d%@`".toList.contains c

/-- Read the name of an anchor or alias, behind its mark. -/
def anchorName (c : Cursor) : Option (String × Cursor) :=
  let (name, c) := c.span isNameChar
  if !name.isEmpty && anchorEnds c.rest then some (String.ofList name, c) else none

/-! ## Tags -/

/-- A character of a tag. Brackets and commas belong only to one in angle brackets, and to the
meaning of a handle. -/
def isTagChar (bracketed : Bool) (c : Char) : Bool :=
  isNameChar c || ";/?:@&=+$.!~*'()%".toList.contains c || (bracketed && ",[]".toList.contains c)

/-- The bytes of a tag, in which any byte may be written as a percent sign and two digits of base
sixteen. All characters of a tag are of ASCII, and so take a byte. -/
def tagBytes? : List Char → Option (List UInt8)
  | [] => some []
  | '%' :: a :: b :: cs => do
    let byte := (← hexDigit? a) * 16 + (← hexDigit? b)
    return byte.toUInt8 :: (← tagBytes? cs)
  | c :: cs => if c = '%' then none else (tagBytes? cs).map (c.toNat.toUInt8 :: ·)

/-- Read the characters of a tag. -/
def tagText (bracketed : Bool) (c : Cursor) : Option (String × Cursor) := do
  let (word, c) := c.span (isTagChar bracketed)
  return (← String.fromUTF8? ⟨(← tagBytes? word).toArray⟩, c)

/-- The text, if there is any. -/
def nonEmpty? (t : String × Cursor) : Option (String × Cursor) :=
  if t.1.isEmpty then none else some t

/-- Read a handle: an exclamation mark, or a name between two of them. -/
def handle? (c : Cursor) : Option (String × Cursor) := do
  let c ← c.expect '!'
  let (name, behind) := c.span isNameChar
  match behind.expect '!' with
  | some behind => some (String.ofList ('!' :: name ++ ['!']), behind)
  | none => if name.isEmpty then some ("!", c) else none

/-- Read a tag: in angle brackets as it is, behind a handle, or behind an exclamation mark. That
mark alone is a tag too. -/
def tagName (c : Cursor) : Option (Token × Cursor) := do
  let behind := c.advance 1
  match behind.expect '<', handle? c with
  | some inside, _ =>
    let (name, c) ← (tagText true inside).bind nonEmpty?
    return (.tag "" name, ← c.expect '>')
  | none, some (handle, inside) =>
    if handle == "!" then short behind
    else
      let (name, c) ← (tagText false inside).bind nonEmpty?
      return (.tag handle name, c)
  | none, none => short behind
where
  short (behind : Cursor) : Option (Token × Cursor) := do
    let (name, c) ← tagText false behind
    return (if name.isEmpty then .tag "" "!" else .tag "!" name, c)

/-- Read a tag, behind which a blank, a line break or, inside brackets, a comma stands. -/
def tag? (flow : Bool) (c : Cursor) : Option (Token × Cursor) := do
  let (token, c) ← tagName c
  if wordEnds c.rest || (flow && c.rest.head? == some ',') then some (token, c) else none

/-! ## Directives -/

/-- Read a part of a version, of at most nine digits. -/
def versionPart (c : Cursor) : Option (Nat × Cursor) :=
  let (digits, c) := c.span Char.isDigit
  if digits.isEmpty || 9 < digits.length then none
  else some (digits.foldl (fun n d => n * 10 + (d.toNat - '0'.toNat)) 0, c)

/-- Read a version behind blanks. -/
def version? (c : Cursor) : Option (Token × Cursor) := do
  let (major, c) ← versionPart (c.skip isBlank)
  let (minor, c) ← versionPart (← c.expect '.')
  return (.version major minor, c)

/-- Read a handle and its meaning, each behind blanks. -/
def handleMeaning? (c : Cursor) : Option (Token × Cursor) := do
  let (handle, c) ← handle? (c.skip isBlank)
  if !(c.rest.head?.any isBlank) then none
  let (meaning, c) ← (tagText true (c.skip isBlank)).bind nonEmpty?
  if wordEnds c.rest then some (.handle handle meaning, c) else none

/-- Read a directive, which takes a line of its own. -/
def directive? (c : Cursor) : Option (Token × Cursor) := do
  let (name, c) := (c.advance 1).span isNameChar
  if !wordEnds c.rest then none
  let (token, c) ← match String.ofList name with
    | "YAML" => version? c
    | "TAG" => handleMeaning? c
    | _ => none
  return (token, ← c.restOfLine)

end TraversalSql.Yaml
