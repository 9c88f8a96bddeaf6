import TraversalSql.Value.Predicate

/-!
# Sort keys and slices

What an `order()` step sorts by, and which part of the rows a `range()` step keeps.
-/

set_option autoImplicit false

namespace TraversalSql

/-- Ascending or descending. -/
inductive SortDirection where
  | asc
  | desc
deriving DecidableEq, Repr

namespace SortDirection

def text : SortDirection → String
  | asc => "asc"
  | desc => "desc"

def keyword : SortDirection → String
  | asc => "ASC"
  | desc => "DESC"

end SortDirection

/-- What rows are sorted by. -/
inductive SortKey where
  | id
  | property (name : String)
  /-- The element bound to a label, by its id or by one of its properties. -/
  | select (label : String) (property : Option String)
  /-- A nested traversal, such as a count. -/
  | aggregate (text : String)
  | lambda (code : String)
deriving DecidableEq, Repr

namespace SortKey

def text : SortKey → String
  | id => "id"
  | property p => Text.inQuotes p
  | select label none => "select('" ++ label ++ "')"
  | select label (some p) => "select('" ++ label ++ "').by('" ++ p ++ "')"
  | aggregate text => text
  | lambda code => "\x7b" ++ code ++ "\x7d"

/-- The key is not a column: no statement can sort by it. -/
def isComputed : SortKey → Bool
  | aggregate _ | lambda _ => true
  | id | property _ | select .. => false

end SortKey

/-- A sort key with its direction. -/
structure SortSpec where
  key : SortKey
  direction : SortDirection
deriving DecidableEq, Repr

namespace SortSpec

def text (s : SortSpec) : String := s.key.text ++ "," ++ s.direction.text

/-- An `order()` step with its keys. -/
def orderText (specs : List SortSpec) : String :=
  "order()" ++ String.join (specs.map fun s => ".by(" ++ s.text ++ ")")

end SortSpec

/-- The rows from position `low` up to, but not including, `high`; without `high`, to the end. -/
structure Slice where
  low : Nat
  high : Option Nat
deriving DecidableEq, Repr

namespace Slice

/-- The first `n` rows. -/
def limit (n : Nat) : Slice := ⟨0, some n⟩

/-- How many rows a slice keeps at most. -/
def count (s : Slice) : Option Nat := s.high.map (· - s.low)

def text (s : Slice) : String :=
  match s.high with
  | some high => "range(" ++ toString s.low ++ "," ++ toString high ++ ")"
  | none => "skip(" ++ toString s.low ++ ")"

/-- The rows of a list that a slice keeps. -/
def apply {α : Type} (s : Slice) (rows : List α) : List α :=
  let rows := rows.drop s.low
  match s.count with
  | some n => rows.take n
  | none => rows

end Slice

end TraversalSql
