import TraversalSql.Schema.Topology
import TraversalSql.Sql.Select

/-!
# Deleting elements

The ids of the elements to delete are first collected in a temporary table, one for each table
that elements are deleted from. Deleting a vertex takes the edges at it along: every foreign key
that points at the vertex table has a deletion of its own, and the vertex table comes last.

The numbers of these tables stand for random names too, apart from those of membership tests.
-/

set_option autoImplicit false

namespace TraversalSql

/-- Delete the rows of a table whose value in a column is one of the collected ids. -/
structure Deletion where
  table : Table
  column : Column
deriving DecidableEq, Repr

/-- The deletion of elements of one table. -/
structure DropTarget where
  /-- The number of the temporary table that collects the ids, in place of a random name. -/
  number : Nat
  table : Table
  /-- Deletions in the order they run. -/
  deletions : List Deletion
deriving DecidableEq, Repr

/-- The deletions for elements of a table: the edges at a vertex first. -/
def deletionsFor (topology : Topology) (table : Table) : List Deletion :=
  let edges := if table.isVertex then
      (topology.foreignKeysInto table).map fun (edge, key) => ⟨edge, .foreignKey key⟩
    else []
  edges ++ [⟨table, .id⟩]

namespace DropTarget

variable (t : DropTarget) (d : Dialect)

/-- The name of the temporary table's only column. -/
def idColumn : String := "within"

/-- The temporary table that collects the ids. -/
def idTable : String := "drop_" ++ toString t.number

def createSql : String := d.createTemporary t.idTable idColumn .integer

def insertSql : String := d.insertTemporary t.idTable idColumn

def cleanupSql : String := d.dropTemporary t.idTable

/-- The query that lists the collected ids. -/
def idsSql : String := "SELECT " ++ d.quote idColumn ++ " FROM " ++ d.quote t.idTable

def deletionSql (del : Deletion) : String :=
  "DELETE FROM " ++ d.table del.table ++ " WHERE " ++ d.quote del.column.name ++ " IN ("
    ++ t.idsSql d ++ ")"

def deletes : List String := t.deletions.map (t.deletionSql d)

end DropTarget

/-- The deletion of elements of several tables, each mentioned once and in the order of tables;
the temporary tables are numbered on from `dropTables`. -/
def dropTargets (topology : Topology) (dropTables : Nat) (tables : List Table) :
    List DropTarget :=
  (SortedSet.ofList tables).toList.zipIdx.map fun (table, i) =>
    { number := dropTables + i + 1, table := table, deletions := deletionsFor topology table }

end TraversalSql
