import TraversalSql.Traversal.Ordering

/-!
# SQL dialects

What databases write differently: quoted names, the clause that keeps a slice of the rows, column
types and temporary tables. Everything else of a statement is common to them.
-/

set_option autoImplicit false

namespace TraversalSql

/-- A database whose SQL is written. -/
inductive Dialect where
  | sqlite
  | clickhouse
deriving DecidableEq, Repr

namespace Dialect

def name : Dialect → String
  | sqlite => "sqlite"
  | clickhouse => "clickhouse"

/-- The dialect of a name, in capitals or small letters. -/
def ofName? (s : String) : Option Dialect :=
  [sqlite, clickhouse].find? fun d => d.name == s.toLower

/-- The character that a quoted name stands between. -/
def quoteMark : Dialect → Char
  | sqlite => '"'
  | clickhouse => '\x60'

/-- What a quote mark inside a name is written as: doubled, or behind a backslash. -/
def escapedMark : Dialect → List Char
  | sqlite => ['"', '"']
  | clickhouse => ['\\', '\x60']

/-- A name between quote marks. -/
def quote (d : Dialect) (name : String) : String :=
  let mark := String.singleton d.quoteMark
  mark ++ Text.replaceChar d.quoteMark d.escapedMark name ++ mark

/-- Two quoted names with a dot between, as in `"a1"."alias1"`. -/
def qualified (d : Dialect) (owner name : String) : String := d.quote owner ++ "." ++ d.quote name

/-- A table under its schema, as in `"public"."V_Person"`. -/
def table (d : Dialect) (t : Table) : String := d.qualified t.schema t.tableName

/-- The clause that skips rows without a limit. -/
def skipClause (d : Dialect) (low : Nat) : String :=
  match d with
  | sqlite => " LIMIT -1 OFFSET " ++ toString low
  | clickhouse => " OFFSET " ++ toString low ++ " ROWS"

/-- The clause that keeps a slice of the rows; none is needed for all of them. -/
def sliceClause? (d : Dialect) (s : Slice) : Option String :=
  match s.low, s.count with
  | 0, none => none
  | low, none => some (d.skipClause low)
  | 0, some count => some (" LIMIT " ++ toString count)
  | low, some count => some (" LIMIT " ++ toString count ++ " OFFSET " ++ toString low)

/-- Texts can be searched for words. -/
def supportsFullText : Dialect → Bool
  | sqlite => false
  | clickhouse => true

/-- The type of a column that holds values of a property type. -/
def columnType : Dialect → PropertyType → String
  | sqlite, .integer | sqlite, .boolean => "INTEGER"
  | sqlite, .float => "REAL"
  | sqlite, .string => "TEXT"
  | clickhouse, .integer => "Int64"
  | clickhouse, .float => "Float64"
  | clickhouse, .string => "String"
  | clickhouse, .boolean => "Bool"

/-- Create a temporary table of one column. -/
def createTemporary (d : Dialect) (name column : String) (type : PropertyType) : String :=
  "CREATE TEMPORARY TABLE " ++ d.quote name ++ " (" ++ d.quote column ++ " " ++ d.columnType type
    ++ ")" ++ (match d with
      | sqlite => ""
      | clickhouse => " ENGINE = Memory")

/-- Insert one row, given as a parameter, into a temporary table. -/
def insertTemporary (d : Dialect) (name column : String) : String :=
  "INSERT INTO " ++ d.quote name ++ " (" ++ d.quote column ++ ") VALUES (?)"

def dropTemporary (d : Dialect) (name : String) : String :=
  "DROP TABLE IF EXISTS " ++ d.quote name

end Dialect

end TraversalSql
