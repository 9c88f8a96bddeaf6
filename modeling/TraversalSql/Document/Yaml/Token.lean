import TraversalSql.Document.Basic

/-!
# Tokens of YAML

What a text consists of once its scalars are read and its indentation is turned into brackets:
blocks begin and end with tokens as collections in brackets do, and every key has a token in front.
-/

set_option autoImplicit false

namespace TraversalSql.Yaml

/-- One token of a text. -/
inductive Token where
  /-- The version of the format that a text asks for. -/
  | version (major minor : Nat)
  /-- What a handle of tags stands for. -/
  | handle (name meaning : String)
  | documentStart
  | documentEnd
  | blockListStart
  | blockMapStart
  | blockEnd
  | flowListStart
  | flowListEnd
  | flowMapStart
  | flowMapEnd
  /-- A hyphen before an item. -/
  | blockEntry
  /-- A comma. -/
  | flowEntry
  | key
  | value
  | anchor (name : String)
  | alias (name : String)
  /-- A tag, by its handle and the rest of its name. -/
  | tag (handle name : String)
  | scalar (text : String) (style : ScalarStyle)
deriving DecidableEq, Repr

end TraversalSql.Yaml
