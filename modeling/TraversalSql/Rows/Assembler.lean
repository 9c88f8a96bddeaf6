import TraversalSql.Rows.Decoder
import TraversalSql.Rows.Session
import TraversalSql.Sql.Plan

/-!
# Running a plan

The statements of a plan run in order, each once for every root it is bound to, and their rows are
handed out one by one. In lazy mode a statement runs only when its rows are asked for; in eager
mode, and where rows are sorted or cut in memory, everything is read before the first row. A plan
that deletes hands out no rows.

In memory rows are compared by their sort keys, place by place; a missing place counts as null. The
sort is stable, and the slice is taken after it.

Temporary tables are dropped at the end, at a fault, and when no more rows are wanted.
-/

set_option autoImplicit false

namespace TraversalSql

/-- The order of two values in a direction. -/
def SortDirection.orient : SortDirection → Ordering → Ordering
  | asc, o => o
  | desc, o => o.swap

/-- Compare sort keys place by place. The direction is that of the left key, where it has one. -/
def RowKey.compare : RowKey → RowKey → Ordering
  | [], [] => .eq
  | (a, d) :: as, [] => (d.orient (a.order .null)).then (RowKey.compare as [])
  | [], (b, d) :: bs => (d.orient (Value.order .null b)).then (RowKey.compare [] bs)
  | (a, d) :: as, (b, _) :: bs => (d.orient (a.order b)).then (RowKey.compare as bs)

/-- The row may stand before the other. -/
def PathRow.precedes (r s : PathRow) : Bool := (RowKey.compare r.sortKey s.sortKey).isLE

/-- Bring rows into order and keep the window's slice of them. -/
def ResultWindow.apply (w : ResultWindow) (rows : List PathRow) : List PathRow :=
  let sorted := rows.mergeSort PathRow.precedes
  match w.range with
  | some s => s.apply sorted
  | none => sorted

/-- One run of a statement, with its position in the plan. -/
structure Execution where
  index : Nat
  statement : Statement
  rootId : Option Int64

/-- What a plan is run with. -/
structure Assembler (σ : Type) where
  database : Database σ
  plan : Plan
  lazyResults : Bool
  /-- The elements that flow in, if there are any to flow in. -/
  incoming : Option (List RecordId)

/-- How far a run has come. -/
inductive Progress where
  | fresh
  | running (pending : List Execution) (buffer : List PathRow) (previous : List Element)
  | done

namespace Assembler

variable {σ : Type} (a : Assembler σ)

/-- The executions of one statement. -/
def executionsOf (index : Nat) (s : Statement) : Except ExecutionError (List Execution) :=
  match s.rootBinding with
  | .unconstrained => .ok [⟨index, s, none⟩]
  | .ids ids => .ok (ids.map fun id => ⟨index, s, some id⟩)
  | .incoming =>
    match a.incoming with
    | none => .error (.noIncoming s.sql)
    | some records =>
      .ok ((records.filter fun r => r.table == s.rootTable).map fun r => ⟨index, s, some r.id⟩)

/-- All executions of the plan, in order. -/
def schedule : Except ExecutionError (List Execution) := do
  let executions ← a.plan.statements.zipIdx.mapM fun (s, index) => a.executionsOf index s
  return executions.flatten

/-- Fill the temporary tables of a statement, unless it was done before. -/
def load (index : Nat) (s : Statement) : Act σ Unit := do
  if (← get).loaded.contains index then return
  modify fun session => { session with loaded := index :: session.loaded }
  a.database.loadTables a.plan.dialect s.bulkTables

/-- The rows of a result; rows without an element are passed over. -/
def pathRows (s : Statement) (result : ResultSet) : Except DecodeFault (List PathRow) := do
  let decoder ← s.rowFormat.decoder result.columns
  let rows ← result.rows.mapM decoder.decode
  return (rows.filter fun (elements, _) => !elements.isEmpty).map fun (elements, sortKey) =>
    { phase := s.phase, sharedPrefix := 0, fragments := elements, sortKey := sortKey }

/-- Run a statement once and read its rows. -/
def run (e : Execution) : Act σ (List PathRow) := do
  a.load e.index e.statement
  let params ← (e.statement.bind e.rootId).mapError ExecutionError.unwritable
  let result ← a.database.ask e.statement.sql params
  (pathRows e.statement result).mapError ExecutionError.undecodable

/-- Run statements one after the other and collect their rows. -/
def drain : List Execution → Act σ (List PathRow)
  | [] => return []
  | e :: es => do
    let rows ← a.run e
    return rows ++ (← drain es)

/-- The ids of the elements of a table that rows end at, ascending. -/
def terminalIds (rows : List PathRow) (table : Table) : List Int64 :=
  let terminals := rows.filterMap PathRow.terminal?
  (SortedSet.ofList ((terminals.filter fun e => e.record.table == table).map
    fun e => e.record.id)).toList

/-- Delete the elements that rows end at. -/
def dropRows (rows : List PathRow) : List DropTarget → Act σ Unit
  | [] => pure ()
  | t :: ts => do
    match terminalIds rows t.table with
    | [] => pure ()
    | ids => a.database.dropElements a.plan.dialect t ids
    dropRows rows ts

/-- Begin: what is still to run, and the rows that are read already. -/
def start : Act σ (List Execution × List PathRow) := do
  let pending ← a.schedule
  match a.plan.drop with
  | some targets =>
    a.dropRows (← a.drain pending) targets
    return ([], [])
  | none =>
    match a.plan.window with
    | some w => return ([], w.apply (← a.drain pending))
    | none => if a.lazyResults then return (pending, []) else return ([], ← a.drain pending)

/-- What a request for a row brings: a row, a fault, or the end. -/
abbrev Item := Option (Except ExecutionError PathRow)

/-- End the run: nothing more comes, and the temporary tables are dropped. -/
def finish (item : Item) (s : Session σ) : Item × Progress × Session σ :=
  (item, .done, a.database.cleanUp a.plan.dialect s)

/-- Hand out the first buffered row, running statements until there is one. -/
def advance (previous : List Element) (s : Session σ) :
    (pending : List Execution) → (buffer : List PathRow) → Item × Progress × Session σ
  | pending, row :: buffer =>
    (some (.ok (row.share previous)), .running pending buffer row.fragments, s)
  | [], [] => a.finish none s
  | e :: pending, [] =>
    match a.run e s with
    | (.error fault, s) => a.finish (some (.error fault)) s
    | (.ok rows, s) => advance previous s pending rows

/-- Ask for one row. -/
def next (p : Progress) (s : Session σ) : Item × Progress × Session σ :=
  match p with
  | .done => (none, .done, s)
  | .running pending buffer previous => a.advance previous s pending buffer
  | .fresh =>
    match a.start s with
    | (.error fault, s) => a.finish (some (.error fault)) s
    | (.ok (pending, buffer), s) => a.advance [] s pending buffer

/-- No more rows are wanted: the temporary tables that are left are dropped. -/
def close (s : Session σ) : Session σ := a.database.cleanUp a.plan.dialect s

/-- Ask for all rows from where a run stands, up to the first fault. -/
def rowsFrom (previous : List Element) (s : Session σ) :
    (pending : List Execution) → (buffer : List PathRow) →
      Except ExecutionError (List PathRow) × Session σ
  | pending, row :: buffer =>
    let (rows, s) := rowsFrom row.fragments s pending buffer
    (rows.map (row.share previous :: ·), s)
  | [], [] => (.ok [], a.close s)
  | e :: pending, [] =>
    match a.run e s with
    | (.error fault, s) => (.error fault, a.close s)
    | (.ok rows, s) => rowsFrom previous s pending rows
termination_by pending buffer => (pending.length, buffer.length)

/-- Ask for all rows of a run, up to the first fault. -/
def allRows (s : Session σ) : Except ExecutionError (List PathRow) × Session σ :=
  match a.start s with
  | (.error fault, s) => (.error fault, a.close s)
  | (.ok (pending, buffer), s) => a.rowsFrom [] s pending buffer

end Assembler

/-- The full path of a row: what it shares with the path before it, then its own elements. -/
def PathRow.rebuild (previous : List Element) (r : PathRow) :
    Except ExecutionError (List Element) :=
  if r.sharedPrefix ≤ previous.length then .ok (previous.take r.sharedPrefix ++ r.fragments)
  else .error (.undecodable (.overlongShare r.sharedPrefix previous.length))

/-- The full paths of rows; the first row shares nothing. -/
def rebuildPaths (previous : List Element) : List PathRow → Except ExecutionError (List (List Element))
  | [] => .ok []
  | r :: rs => do
    let path ← r.rebuild previous
    return path :: (← rebuildPaths path rs)

/-- All full paths of a run. -/
def Assembler.paths {σ : Type} (a : Assembler σ) (s : Session σ) :
    Except ExecutionError (List (List Element)) × Session σ :=
  let (rows, s) := a.allRows s
  (rows.bind (rebuildPaths []), s)

end TraversalSql
