import TraversalSql.Sql.Alias
import TraversalSql.Sql.Bulk
import TraversalSql.Sql.Fragment

/-!
# Select statements

A statement in structured form, and its text. A flat select joins tables that are all distinct; a
path that visits a table twice is a chain of sub-selects, each flat, that export key columns to be
joined on. Columns are named by what they stand for, and aliases are numbered only when the text
is written: `Select.requests` lists the uses of aliases in the order in which they get their
numbers.
-/

set_option autoImplicit false

namespace TraversalSql

/-- A column of a table that a select reads. -/
structure ColumnRef where
  table : Table
  column : Column
deriving DecidableEq, Repr

def ColumnRef.sql (d : Dialect) (c : ColumnRef) : String :=
  d.table c.table ++ "." ++ d.quote c.column.name

/-- The column of a table that an alias stands for. -/
def AliasKey.ref (k : AliasKey) : ColumnRef := ⟨k.table, k.column⟩

/-- A table joined to one before it, on equal columns. -/
structure TableJoin where
  table : Table
  left : ColumnRef
  right : ColumnRef
deriving DecidableEq, Repr

/-- A temporary table joined to a filtered column. -/
structure BulkJoin where
  bulk : BulkTable
  column : ColumnRef
deriving DecidableEq, Repr

/-- A condition of a `WHERE` clause. -/
inductive Condition where
  /-- The column equals the id that the execution is for. -/
  | rootId (column : ColumnRef)
  /-- A predicate on a column, as SQL. -/
  | filter (column : ColumnRef) (sql : Fragment)
  /-- The joined temporary table holds no matching value. -/
  | unlisted (bulk : BulkTable)
deriving DecidableEq, Repr

/-- A select over distinct tables. -/
structure FlatSelect where
  columns : List AliasKey
  source : Table
  joins : List TableJoin
  bulkJoins : List BulkJoin
  conditions : List Condition
deriving DecidableEq, Repr

/-- A select that stands in parentheses, under a name of its own. -/
structure SubSelect where
  number : Nat
  body : FlatSelect
deriving DecidableEq, Repr

/-- A column that a sub-select exports. -/
structure ExportedColumn where
  owner : Nat
  key : AliasKey
deriving DecidableEq, Repr

/-- A sub-select joined to one before it, on equal exported columns. -/
structure LinkedSelect where
  sub : SubSelect
  left : ExportedColumn
  right : ExportedColumn
deriving DecidableEq, Repr

/-- Sub-selects joined one after the other. -/
structure ChainedSelect where
  outputs : List ExportedColumn
  first : SubSelect
  rest : List LinkedSelect
deriving DecidableEq, Repr

/-- A select over a path. -/
inductive PathSelect where
  | flat (s : FlatSelect)
  | chained (s : ChainedSelect)
deriving DecidableEq, Repr

/-- A branch that must not match: it is joined from the left, and the column of its last node must
be null. -/
structure AbsentBranch where
  number : Nat
  body : PathSelect
  carried : ExportedColumn
  joined : AliasKey
  terminal : AliasKey
deriving DecidableEq, Repr

/-- A complete select. -/
structure Select where
  body : PathSelect
  absences : List AbsentBranch
  orderBy : List (AliasKey × SortDirection)
  slice : Option Slice
deriving DecidableEq, Repr

/-- The elements of a list whose keys did not occur before. -/
def distinctOn {α κ : Type} [BEq κ] (key : α → κ) (seen : List κ) : List α → List α
  | [] => []
  | a :: as =>
    if seen.contains (key a) then distinctOn key seen as
    else a :: distinctOn key (key a :: seen) as

/-! ## Uses of aliases, in the order of numbering -/

def LinkedSelect.requests (l : LinkedSelect) : List AliasKey :=
  l.sub.body.columns ++ [l.left.key, l.right.key]

def ChainedSelect.requests (s : ChainedSelect) : List AliasKey :=
  s.first.body.columns ++ s.rest.flatMap LinkedSelect.requests
    ++ s.outputs.map ExportedColumn.key

def PathSelect.requests : PathSelect → List AliasKey
  | flat s => s.columns
  | chained s => s.requests

def AbsentBranch.requests (b : AbsentBranch) : List AliasKey :=
  b.body.requests ++ [b.carried.key, b.joined, b.terminal]

def Select.requests (s : Select) : List AliasKey :=
  s.body.requests ++ s.absences.flatMap AbsentBranch.requests ++ s.orderBy.map Prod.fst

/-- The aliases of a select. -/
def Select.aliases (s : Select) : AliasTable := .ofList s.requests

/-! ## Temporary tables, in the order of numbering -/

def FlatSelect.bulkTables (s : FlatSelect) : List BulkTable := s.bulkJoins.map BulkJoin.bulk

def PathSelect.bulkTables : PathSelect → List BulkTable
  | flat s => s.bulkTables
  | chained s => s.first.body.bulkTables ++ s.rest.flatMap fun l => l.sub.body.bulkTables

/-- The temporary tables that a select joins. -/
def Select.bulkTables (s : Select) : List BulkTable :=
  s.body.bulkTables ++ s.absences.flatMap fun b => b.body.bulkTables

/-! ## Text -/

/-- The name of a sub-select. -/
def subSelectName (number : Nat) : String := "a" ++ toString number

/-- How the text of a select is written: the dialect, and the aliases. -/
structure SqlWriter where
  dialect : Dialect
  aliases : AliasTable

namespace SqlWriter

variable (w : SqlWriter)

def aliasText (k : AliasKey) : String := w.dialect.quote (w.aliases.name k)

/-- A column that a sub-select exports, as in `"a1"."alias2"`. -/
def exported (owner : Nat) (k : AliasKey) : String :=
  w.dialect.qualified (subSelectName owner) (w.aliases.name k)

def selected (k : AliasKey) : String := k.ref.sql w.dialect ++ " AS " ++ w.aliasText k

def tableJoin (j : TableJoin) : String :=
  " INNER JOIN " ++ w.dialect.table j.table ++ " ON " ++ j.left.sql w.dialect ++ " = "
    ++ j.right.sql w.dialect

def bulkJoin (j : BulkJoin) : String :=
  (match j.bulk.kind with
    | .within => " INNER JOIN "
    | .without => " LEFT JOIN ")
    ++ w.dialect.quote j.bulk.name ++ " ON " ++ j.column.sql w.dialect ++ " = "
    ++ j.bulk.columnRef w.dialect

def condition : Condition → Fragment
  | .rootId c => [.text (c.sql w.dialect ++ " = "), .param .rootId]
  | .filter _ f => f
  | .unlisted bulk => [.text (bulk.columnRef w.dialect ++ " IS NULL")]

/-- The conditions of a flat select, all of which must hold. -/
def conditions (cs : List Condition) : Fragment :=
  if cs.isEmpty then []
  else .text " WHERE " :: Fragment.joined " AND " (cs.map w.condition)

def flat (s : FlatSelect) : Fragment :=
  .text ("SELECT " ++ Text.joined ", " ((distinctOn id [] s.columns).map w.selected)
      ++ " FROM " ++ w.dialect.table s.source
      ++ String.join (s.joins.map w.tableJoin) ++ String.join (s.bulkJoins.map w.bulkJoin))
    :: w.conditions s.conditions

/-- A select in parentheses, with its name, behind the words that join it. -/
def named (join : String) (number : Nat) (body : Fragment) : Fragment :=
  .text (join ++ "(") :: body ++ [.text (") AS " ++ w.dialect.quote (subSelectName number))]

def exportedAs (e : ExportedColumn) : String :=
  w.exported e.owner e.key ++ " AS " ++ w.aliasText e.key

def linked (l : LinkedSelect) : Fragment :=
  w.named " INNER JOIN " l.sub.number (w.flat l.sub.body)
    ++ [.text (" ON " ++ w.exported l.left.owner l.left.key ++ " = "
      ++ w.exported l.right.owner l.right.key)]

def chained (s : ChainedSelect) : Fragment :=
  .text ("SELECT " ++ Text.joined ", " (s.outputs.map w.exportedAs))
    :: w.named " FROM " s.first.number (w.flat s.first.body) ++ s.rest.flatMap w.linked

def path : PathSelect → Fragment
  | .flat s => w.flat s
  | .chained s => w.chained s

def absentJoin (b : AbsentBranch) : Fragment :=
  w.named " LEFT JOIN " b.number (w.path b.body)
    ++ [.text (" ON " ++ w.exported b.carried.owner b.carried.key ++ " = "
      ++ w.exported b.number b.joined)]

def absentTest (b : AbsentBranch) : String :=
  "(" ++ w.exported b.number b.terminal ++ " IS NULL)"

def absences (bs : List AbsentBranch) : Fragment :=
  if bs.isEmpty then []
  else bs.flatMap w.absentJoin ++ [.text (" WHERE " ++ Text.joined " AND " (bs.map w.absentTest))]

def orderBy (keys : List (AliasKey × SortDirection)) : String :=
  if keys.isEmpty then ""
  else " ORDER BY "
    ++ Text.joined ", " (keys.map fun (k, direction) => w.aliasText k ++ " " ++ direction.keyword)

def slice (s : Option Slice) : String := (s.bind w.dialect.sliceClause?).getD ""

def select (s : Select) : Fragment :=
  w.path s.body ++ w.absences s.absences ++ [.text (w.orderBy s.orderBy ++ w.slice s.slice)]

end SqlWriter

/-- The SQL of a select, with its parameters. -/
def Select.fragment (d : Dialect) (s : Select) : Fragment :=
  SqlWriter.select ⟨d, s.aliases⟩ s

end TraversalSql
