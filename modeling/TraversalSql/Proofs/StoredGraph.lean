import TraversalSql.Proofs.Topology
import TraversalSql.Tree.Expand

/-!
# Stored graphs, and what a hop asks of a row

The statements of a run are read against a stored graph, and this file says what that is: per
table a finite list of rows, each with an id that is unique in its table, a value for each property
and, in an edge table, a vertex id or nothing for each foreign key. What a property predicate means
is left open as far as it can be: a `Truth` is any assignment of truth to predicates on values
under which nothing is in an empty membership and the connectives are what they are called.

Filters on ids are different. A literal id may name a row of another table, so such a filter is
read on a whole element, its table and its id (`Predicate.HoldsOf`). A query tree holds the filter
after it was resolved against the table; there it is a test of the integer alone
(`Predicate.HoldsAt`). That the two readings agree is `Proofs/IdFilters.lean`.
-/

set_option autoImplicit false

namespace TraversalSql

/-! ## 1. Rows -/

/-- One stored element. -/
structure Row where
  id : Int64
  /-- The value of each property, null where there is none. -/
  value : String → Value
  /-- The vertex id in each foreign-key column, none where the column is null. -/
  key : ForeignKey → Option Int64

/-- A graph stored over a topology. Only tables of the topology have rows, and only the foreign
keys of its table have a value in a row. -/
structure StoredGraph (T : Topology) where
  rows : Table → List Row
  uniqueIds : ∀ table, ((rows table).map Row.id).Nodup
  ownTables : ∀ {table row}, row ∈ rows table → ∃ ps, T.properties? table = some ps
  ownKeys : ∀ {table row k i}, row ∈ rows table → row.key k = some i → T.HasKey table k

/-- A row on the way of a walk: the table it is in and the direction it was reached in. The first
row of a walk was reached in none. -/
structure Visit where
  table : Table
  direction : Option Direction
  row : Row

/-- What predicates say of values. Nothing is assumed of a predicate but that an empty membership
has no members, and that conjunctions and disjunctions are what they are called. -/
structure Truth where
  holds : Predicate → Value → Prop
  withinNil : ∀ v, ¬ holds (.within []) v
  andIff : ∀ ps v, holds (.and ps) v ↔ ∀ p ∈ ps, holds p v
  orIff : ∀ ps v, holds (.or ps) v ↔ ∃ p ∈ ps, holds p v

/-! ## 2. Filters on ids -/

/-- A comparison of two integers. -/
def Comparison.Relates : Comparison → Int64 → Int64 → Prop
  | eq, a, b => a = b
  | neq, a, b => a ≠ b
  | lt, a, b => a < b
  | lte, a, b => a ≤ b
  | gt, a, b => b < a
  | gte, a, b => b ≤ a

namespace Predicate

variable (truth : Truth)

mutual

/-- The predicate as a plain test of an integer. What is no test of integers at all, such as a
test of characters, says of the integer what it says of that value. -/
def HoldsAt (id : Int64) : Predicate → Prop
  | compare op v => ∃ i, v.toInt? = some i ∧ op.Relates id i
  | within vs => ∃ v ∈ vs, v.toInt? = some id
  | without vs => ¬ ∃ v ∈ vs, v.toInt? = some id
  | between a b => ∃ low high, a.toInt? = some low ∧ b.toInt? = some high ∧ low ≤ id ∧ id < high
  | inside a b => ∃ low high, a.toInt? = some low ∧ b.toInt? = some high ∧ low < id ∧ id < high
  | outside a b => ∃ low high, a.toInt? = some low ∧ b.toInt? = some high ∧ (id < low ∨ high < id)
  | and ps => AllHoldAt id ps
  | or ps => AnyHoldsAt id ps
  | other => truth.holds other (.int id)

def AllHoldAt (id : Int64) : List Predicate → Prop
  | [] => True
  | p :: ps => p.HoldsAt id ∧ AllHoldAt id ps

def AnyHoldsAt (id : Int64) : List Predicate → Prop
  | [] => False
  | p :: ps => p.HoldsAt id ∨ AnyHoldsAt id ps

end

mutual

/-- The predicate read on the element of a table with an id. A literal that denotes no row of the
table differs from every id of it, and is neither below nor above any. -/
def HoldsOf (table : Table) (id : Int64) : Predicate → Prop
  | compare .neq v => v.idIn? table ≠ some id
  | compare op v => ∃ i, v.idIn? table = some i ∧ op.Relates id i
  | within vs => ∃ v ∈ vs, v.idIn? table = some id
  | without vs => ¬ ∃ v ∈ vs, v.idIn? table = some id
  | and ps => AllHoldOf table id ps
  | or ps => AnyHoldsOf table id ps
  | other => other.HoldsAt truth id

def AllHoldOf (table : Table) (id : Int64) : List Predicate → Prop
  | [] => True
  | p :: ps => p.HoldsOf table id ∧ AllHoldOf table id ps

def AnyHoldsOf (table : Table) (id : Int64) : List Predicate → Prop
  | [] => False
  | p :: ps => p.HoldsOf table id ∨ AnyHoldsOf table id ps

end

end Predicate

/-! ## 3. What a hop asks of a row -/

/-- The row passes a filter on a property. A table without the property has rows for the filter
only if the property is to be absent. -/
def Filter.Passes (T : Topology) (truth : Truth) (f : Filter) (v : Visit) : Prop :=
  if ((T.properties? v.table).getD ∅).contains f.key then
    truth.holds f.predicate (v.row.value f.key)
  else f.predicate.isAbsent = true

/-- The row passes the hop's filters on label, id and properties. -/
structure Hop.Passes (T : Topology) (truth : Truth) (h : Hop) (v : Visit) : Prop where
  label : ∀ p ∈ h.labelPredicates, p.matchesTable v.table = true
  id : ∀ p ∈ h.idPredicates, p.HoldsOf truth v.table v.row.id
  filters : ∀ f ∈ h.filters, f.Passes T truth v

end TraversalSql
