import TraversalSql.Sorted.Map

/-!
# Data documents

A document is a tree of scalars, lists and maps. A scalar is kept as its text, with the way it was
written and with its tag if it has one; what it denotes is for the reader of the field to say. Here
a field that holds nothing at all counts as an empty list or map, and a field given twice makes a
record invalid.
-/

set_option autoImplicit false

namespace TraversalSql

/-- How a scalar was written. -/
inductive ScalarStyle where
  /-- As bare words. -/
  | plain
  /-- In quotes, or as a block of lines that are folded. -/
  | quoted
  /-- As a block of lines that stand for themselves. -/
  | literal
deriving DecidableEq, Repr

/-- A tree of scalars, lists and maps. -/
inductive Document where
  | scalar (text : String) (style : ScalarStyle) (tag : Option String)
  | list (items : List Document)
  | map (entries : List (Document × Document))
  /-- A list or map that the place itself is inside of. -/
  | enclosing

namespace Document

instance : Inhabited Document := ⟨.list []⟩

/-- A value that is left out. -/
def nothing : Document := .scalar "" .plain none

/-- The text of a scalar, whatever it looks like. -/
def text? : Document → Option String
  | scalar s _ _ => some s
  | _ => none

/-- A plain text that stands for no value. -/
def isNullWord (s : String) : Bool := s == "~" || s == "null" || s == "Null" || s == "NULL"

/-- The items of a list. -/
def items? : Document → Option (List Document)
  | list l => some l
  | scalar "" .plain _ => some []
  | _ => none

/-- The entries of a map. -/
def entries? : Document → Option (List (Document × Document))
  | map l => some l
  | scalar "" .plain _ => some []
  | _ => none

/-- The entries of a map whose keys are scalars. -/
def named? (d : Document) : Option (List (String × Document)) := do
  (← d.entries?).mapM fun (k, v) => return (← k.text?, v)

/-- Digits of a base, as a number of at most 64 bits. -/
def digitsInBase? (base : Nat) (cs : List Char) : Option Nat := do
  if cs.isEmpty then none
  let ds ← cs.mapM fun c =>
    if c.isDigit then some (c.toNat - '0'.toNat)
    else if 'a' ≤ c.toLower ∧ c.toLower ≤ 'f' then some (c.toLower.toNat - 'a'.toNat + 10)
    else none
  if ds.any (base ≤ ·) then none
  let n := ds.foldl (fun n d => n * base + d) 0
  if n < UInt64.size then some n else none

/-- The name of a tag that YAML itself gives a meaning to. -/
def standardTag (name : String) : String := "tag:yaml.org,2002:" ++ name

/-- The text of a scalar that may stand for something else than a text: a plain one, or one written
as lines whose tag says what they stand for. -/
def literal? (kind : String) : Document → Option String
  | scalar s .plain _ => some s
  | scalar s .literal tag => if tag = some (standardTag kind) then some s else none
  | _ => none

/-- A count: digits without leading zeros, or of a base named by their start. -/
def count? (d : Document) : Option Nat := do
  let cs := match (← d.literal? "int").toList with
    | '+' :: cs => cs
    | cs => cs
  match cs with
  | '0' :: 'x' :: ds => digitsInBase? 16 ds
  | '0' :: 'o' :: ds => digitsInBase? 8 ds
  | '0' :: 'b' :: ds => digitsInBase? 2 ds
  | '0' :: _ :: _ => none
  | ds => digitsInBase? 10 ds

/-- A truth value. -/
def flag? (d : Document) : Option Bool := do
  let s ← d.literal? "bool"
  if ["true", "True", "TRUE"].contains s then some true
  else if ["false", "False", "FALSE"].contains s then some false
  else none

/-- A name out of a fixed set: the text of a scalar, or a tag of the document's own, which begins
with an exclamation mark and has no value behind it. -/
def name? : Document → Option String
  | scalar s style (some tag) =>
    match tag.toList with
    | '!' :: name =>
      if style == .plain && (s.isEmpty || isNullWord s) then some (String.ofList name) else none
    | _ => some s
  | scalar s _ none => some s
  | _ => none

/-- A map with fixed fields: none of them may be given twice. -/
def record? (fields : List String) (d : Document) : Option (List (String × Document)) := do
  let entries ← d.named?
  if fields.all fun f => entries.countP (fun e => e.1 == f) ≤ 1 then some entries else none

/-- A field of a record, read by a reader, or a default where the field is missing. -/
def fieldOr {α : Type} (entries : List (String × Document)) (name : String)
    (read : Document → Option α) (default : α) : Option α :=
  match entries.lookup name with
  | some d => read d
  | none => some default

/-- A field of a record that has to be there. -/
def field? {α : Type} (entries : List (String × Document)) (name : String)
    (read : Document → Option α) : Option α :=
  (entries.lookup name).bind read

/-- A field that may be missing or null. A plain scalar is null if it is empty or a word for null,
and a scalar whose tag calls it null has to be such a word. -/
def optional? {α : Type} (read : Document → Option α) (d : Document) : Option (Option α) :=
  match d with
  | scalar s .plain none => if s.isEmpty || isNullWord s then some none else (read d).map some
  | scalar s .plain (some tag) =>
    if tag == standardTag "null" then if isNullWord s then some none else none
    else (read d).map some
  | _ => (read d).map some

/-- A list, all of whose items can be read. -/
def listOf? {α : Type} (read : Document → Option α) (d : Document) : Option (List α) := do
  (← d.items?).mapM read

/-- A map, all of whose values can be read; of entries with one key the last counts. -/
def mapOf? {α : Type} (read : Document → Option α) (d : Document) :
    Option (SortedMap String α) := do
  let entries ← (← d.named?).mapM fun (k, v) => return (k, ← read v)
  return .ofList entries

end Document

end TraversalSql
