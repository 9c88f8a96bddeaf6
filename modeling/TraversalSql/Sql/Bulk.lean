import TraversalSql.Sql.Dialect

/-!
# Membership through temporary tables

A long membership list is not written into the statement: its values are inserted into a temporary
table, and the statement joins that table. The list is first brought into order and freed of
repetitions, since a value held twice would repeat every row it is joined to.

Temporary tables are called by numbers. A number stands for a name that is drawn at random when the
statement is composed: no two tables have the same, and there is no quote mark, no dot and no
question mark in it. Nothing else is read off a name, and statements are told apart only up to the
names of their temporary tables.
-/

set_option autoImplicit false

namespace TraversalSql

/-- How a statement joins a temporary table of values. -/
inductive BulkKind where
  /-- A row is kept if its value is listed. -/
  | within
  /-- A row is kept if its value is not listed. -/
  | without
deriving DecidableEq, Repr

/-- The name of the temporary table's only column. -/
def BulkKind.column : BulkKind → String
  | within => "within"
  | without => "without"

/-- A value as it is stored: a record id counts as the id in its table. -/
def Value.stored : Value → Value
  | .record r => .int r.id
  | v => v

/-- Put a value at its place in an ascending list, in place of one that compares equal to it. -/
def Value.placeInto (v : Value) : List Value → List Value
  | [] => [v]
  | w :: ws =>
    match v.order w with
    | .lt => v :: w :: ws
    | .eq => v :: ws
    | .gt => w :: v.placeInto ws

/-- The stored values of a list, ascending; of values that compare equal, the last. -/
def Value.distinct (vs : List Value) : List Value :=
  vs.foldl (fun placed v => v.stored.placeInto placed) []

namespace Predicate

/-- The membership test that a predicate is, or that a disjunction of memberships comes down
to. -/
def membership? : Predicate → Option (BulkKind × List Value)
  | within vs => some (.within, vs)
  | without vs => some (.without, vs)
  | or ps =>
    if !ps.isEmpty && ps.all isWithin then some (.within, (or ps).values) else none
  | _ => none

/-- The distinct values of a membership test that has more of them than the threshold. -/
def bulk? (threshold : Nat) (p : Predicate) : Option (BulkKind × List Value) := do
  let (kind, vs) ← p.membership?
  let distinct := Value.distinct vs
  if distinct.length > threshold then some (kind, distinct) else none

end Predicate

/-- A temporary table that holds the values of a membership test. -/
structure BulkTable where
  /-- The table's number among those of all statements, in place of a random name. -/
  number : Nat
  kind : BulkKind
  values : List Value
deriving DecidableEq, Repr

namespace BulkTable

def name (t : BulkTable) : String := "bulk_" ++ toString t.number

def column (t : BulkTable) : String := t.kind.column

def type (t : BulkTable) : PropertyType := Value.columnType t.values

def text (t : BulkTable) : String :=
  t.name ++ "(" ++ t.column ++ " " ++ toString t.values.length ++ " values)"

/-- The table's column, qualified by the table. -/
def columnRef (d : Dialect) (t : BulkTable) : String := d.qualified t.name t.column

end BulkTable

end TraversalSql
