import TraversalSql.Rows.Error
import TraversalSql.Sql.Bulk
import TraversalSql.Sql.Drop

/-!
# Talking to a database

A database is anything that answers calls and may change with each of them. A session keeps the
calls that were made, and the temporary tables that have to be dropped in the end. A fault does
not undo what was done before it.

A temporary table is created and then filled by one call for each value. Some databases have a way
of their own to fill a table, in one go and undone where it fails; that way is left out, and so is
the number of rows that a call has changed, which nobody asks for. Whatever makes a database refuse
a call is a text here, and is reported with the statement.
-/

set_option autoImplicit false

namespace TraversalSql

/-- Columns and rows of an answer. -/
structure ResultSet where
  columns : List String
  rows : List (List Value)
deriving DecidableEq, Repr

/-- A call of the database. -/
inductive DatabaseCall where
  /-- A statement that answers with rows. -/
  | query (sql : String) (params : List Value)
  /-- A statement that is only carried out. -/
  | execute (sql : String) (params : List Value)
deriving DecidableEq, Repr

/-- A database with states of type `σ`. An answer is a result or the reason of a refusal; that a
table is filled is seen as calls of `execute`, one after the other. -/
structure Database (σ : Type) where
  query : String → List Value → σ → Except String ResultSet × σ
  execute : String → List Value → σ → Except String Unit × σ

/-- The course of a conversation with a database. -/
structure Session (σ : Type) where
  world : σ
  /-- All calls so far, in order. -/
  calls : List DatabaseCall := []
  /-- The statements, by their position in the plan, whose temporary tables are filled. -/
  loaded : List Nat := []
  /-- The temporary tables to be dropped, in the order they were filled. -/
  temporaries : List String := []

/-- Something done in a session, which may fail on the way. -/
abbrev Act (σ : Type) := ExceptT ExecutionError (StateM (Session σ))

namespace Database

variable {σ : Type} (db : Database σ)

/-- Ask for rows. -/
def ask (sql : String) (params : List Value) : Act σ ResultSet := fun s =>
  let (answer, world) := db.query sql params s.world
  (answer.mapError (.refused sql),
    { s with world := world, calls := s.calls ++ [.query sql params] })

/-- Have a statement carried out. -/
def perform (sql : String) (params : List Value) : Act σ Unit := fun s =>
  let (answer, world) := db.execute sql params s.world
  (answer.mapError (.refused sql),
    { s with world := world, calls := s.calls ++ [.execute sql params] })

/-- Have a statement carried out, whether it is refused or not. -/
def attempt (sql : String) : Act σ Unit := fun s => (.ok (), (db.perform sql [] s).2)

/-- Insert values, one after the other. -/
def insertAll (insert : String) : List Value → Act σ Unit
  | [] => pure ()
  | v :: vs => do
    db.perform insert [v]
    insertAll insert vs

/-- Create a temporary table and insert values into it. -/
def materialize (create insert : String) (values : List Value) : Act σ Unit := do
  db.perform create []
  db.insertAll insert values

/-- Fill temporary tables for membership tests. -/
def loadTables (d : Dialect) : List BulkTable → Act σ Unit
  | [] => pure ()
  | t :: ts => do
    db.materialize (d.createTemporary t.name t.column t.type) (d.insertTemporary t.name t.column)
      t.values
    modify fun s => { s with temporaries := s.temporaries ++ [t.name] }
    loadTables d ts

/-- Drop temporary tables, whether refused or not. -/
def dropAll (d : Dialect) : List String → Act σ Unit
  | [] => pure ()
  | name :: names => do
    db.attempt (d.dropTemporary name)
    dropAll d names

/-- Drop all temporary tables of the session. -/
def cleanUp (d : Dialect) (s : Session σ) : Session σ :=
  ((db.dropAll d s.temporaries) { s with temporaries := [] }).2

/-- Run deletions up to the first that is refused. -/
def runDeletes : List String → Act σ Unit
  | [] => pure ()
  | sql :: rest => do
    db.perform sql []
    runDeletes rest

/-- Delete the elements of one table that have the given ids. The temporary table of the ids is
dropped also where a deletion is refused. -/
def dropElements (d : Dialect) (t : DropTarget) (ids : List Int64) : Act σ Unit := do
  db.materialize (t.createSql d) (t.insertSql d) (ids.map .int)
  let result ← (fun s => match db.runDeletes (t.deletes d) s with
    | (r, s) => (.ok r, s) : Act σ (Except ExecutionError Unit))
  db.attempt (t.cleanupSql d)
  match result with
  | .ok () => pure ()
  | .error e => throw e

end Database

end TraversalSql
