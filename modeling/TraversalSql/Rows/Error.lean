import TraversalSql.Sql.Error
import TraversalSql.Value.Basic

/-!
# Faults of an execution
-/

set_option autoImplicit false

namespace TraversalSql

/-- Why a result row cannot be read. -/
inductive DecodeFault where
  /-- A foreign key that points both ways. -/
  | twoEndpoints (column : String)
  | noIdColumn (table : String) (depth : Nat)
  | noSortColumn (column : String)
  /-- A row that is too short for a column that is read. -/
  | shortRow (length column : Nat)
  | idNotInteger (table : String) (value : Value)
  /-- A row that shares more with the path before it than that path has. -/
  | overlongShare (shared length : Nat)
deriving DecidableEq, Repr

def DecodeFault.text : DecodeFault → String
  | twoEndpoints column => "column " ++ column ++ " has no single endpoint"
  | noIdColumn table depth => "no ID column for " ++ table ++ " at depth " ++ toString depth
  | noSortColumn column => "sort column " ++ column ++ " is not in the result"
  | shortRow length column =>
    "row has " ++ toString length ++ " column(s), wanted #" ++ toString column
  | idNotInteger table value => "ID of " ++ table ++ " is not an integer: " ++ value.text
  | overlongShare shared length =>
    "row shares " ++ toString shared ++ " fragment(s) with a path of " ++ toString length

/-- Why the execution of a plan ends early. -/
inductive ExecutionError where
  /-- The database refused a statement. -/
  | refused (sql reason : String)
  | undecodable (fault : DecodeFault)
  | unwritable (e : SqlError)
  /-- A statement starts from elements that flow in, and none were given. -/
  | noIncoming (sql : String)
deriving DecidableEq, Repr

def ExecutionError.message : ExecutionError → String
  | refused sql reason => "SQL execution failed: " ++ reason ++ "\n  SQL: " ++ sql
  | undecodable fault => "Cannot decode result row: " ++ fault.text
  | unwritable e => e.message
  | noIncoming sql => "Statement needs incoming root ids but none were supplied: " ++ sql

end TraversalSql
