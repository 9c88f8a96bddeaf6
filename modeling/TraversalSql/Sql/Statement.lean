import TraversalSql.Sql.Error
import TraversalSql.Sql.Select
import TraversalSql.Tree.Paths

/-!
# Statements

A statement is a select with all that is needed to run it and to read its rows: what its root is
bound to, which elements its rows hold, and which temporary tables have to be there.
-/

set_option autoImplicit false

namespace TraversalSql

/-- A select for one path of a query tree. -/
structure Statement where
  dialect : Dialect
  phase : Phase
  select : Select
  /-- The elements of a row, from the root on; the last is the one the row ends at. -/
  fragments : List FragmentKey
  /-- The slice of the results that is asked for. -/
  range : Option Slice
  /-- The slice is left out of the SQL, to be cut out in memory. -/
  rangeStripped : Bool
  rootTable : Table
  rootBinding : RootBinding

namespace Statement

variable (s : Statement)

def fragment : Fragment := s.select.fragment s.dialect

def sql : String := s.fragment.sql

def parameters : List Parameter := s.fragment.parameters

def aliases : AliasTable := s.select.aliases

def bulkTables : List BulkTable := s.select.bulkTables

/-- The aliases that rows are sorted by. -/
def orderBy : List (String × SortDirection) :=
  s.select.orderBy.map fun (k, direction) => (s.aliases.name k, direction)

/-- The element that a row ends at. -/
def terminal? : Option FragmentKey := s.fragments.getLast?

/-- The statement runs for one root id at a time. -/
def bindsRootId : Bool := s.parameters.contains .rootId

/-- The values of the parameters for one execution. -/
def bind (rootId : Option Int64) : Except SqlError (List Value) :=
  let sql := s.sql
  s.parameters.mapM fun
    | .value v => .ok v
    | .rootId =>
      match rootId with
      | some i => .ok (.int i)
      | none => .error (.invalidPlan (.missingRootId sql))

def text : String := "[" ++ s.phase.text ++ "] " ++ s.sql

end Statement

end TraversalSql
