import TraversalSql.Fusion.Chain
import TraversalSql.Sql.Compose
import TraversalSql.Sql.Drop
import TraversalSql.Tree.Build

/-!
# Plans

The plan of a run lists its statements, phase by phase and tree by tree. A slice or an order over
rows that come from more than one execution cannot be left to the database: then the statements
are written without a slice, and the rows are brought into order and cut in memory.
-/

set_option autoImplicit false

namespace TraversalSql

/-- The order and the slice of a run's rows are taken in memory. -/
structure ResultWindow where
  range : Option Slice
deriving DecidableEq, Repr

/-- How many temporary tables were named so far. It is handed on from plan to plan, so that the
numbers differ as random names would. -/
structure Numbering where
  bulkTables : Nat := 0
  dropTables : Nat := 0
deriving DecidableEq, Repr

/-- All that is needed to run one fused run. -/
structure Plan where
  dialect : Dialect
  statements : List Statement
  window : Option ResultWindow
  /-- What is to be deleted, if the run deletes. -/
  drop : Option (List DropTarget)
  /-- How many executions there will be; elements that flow in count as many. -/
  executions : Nat

/-- How often a statement with a given root runs. -/
def RootBinding.executions : RootBinding → Nat
  | ids is => is.length
  | incoming => 2
  | unconstrained => 1

namespace Plan

variable (p : Plan)

def isEmpty : Bool := p.statements.isEmpty

/-- Some statement starts from elements that flow in. -/
def needsIncoming : Bool := p.statements.any fun s => s.rootBinding == .incoming

/-- The numbers in use after a plan. -/
def numbering (n : Numbering) : Numbering where
  bulkTables := p.statements.foldl (fun k s => k + s.bulkTables.length) n.bulkTables
  dropTables := n.dropTables + (p.drop.getD []).length

/-- The text of an optional number. -/
def boundText : Option Nat → String
  | none => "None"
  | some n => "Some(" ++ toString n ++ ")"

/-- The slice of a window, in full. -/
def windowText : Option Slice → String
  | none => "None"
  | some s =>
    "Some(RangeSpec \x7b low: " ++ toString s.low ++ ", high: " ++ boundText s.high ++ " \x7d)"

def text : String :=
  Text.joined "\n" (p.statements.map Statement.text)
    ++ (match p.window with
      | some w => "\n[WINDOW] " ++ windowText w.range
      | none => "")
    ++ String.join (((p.drop.getD []).flatMap fun t => t.deletes p.dialect).map ("\n[DROP] " ++ ·))

end Plan

/-- The stacks of a list of trees, phase by phase, each with its tree. -/
def stacksOf (trees : List QueryTree) : Except TreeError (List (QueryTree × PathStack)) := do
  let found ← Phase.all.mapM fun phase => trees.mapM fun t =>
    return (← t.pathStacks phase).map fun stack => (t, stack)
  return (found.map List.flatten).flatten

/-- The statements of a list of stacks; temporary tables are numbered on from `bulkTables`. -/
def statementsOf (settings : Settings) (strip : Bool) :
    (bulkTables : Nat) → List (QueryTree × PathStack) → Except SqlError (List Statement)
  | _, [] => return []
  | bulkTables, (t, stack) :: rest => do
    let s ← t.statement settings bulkTables stack strip
    return s :: (← statementsOf settings strip (bulkTables + s.bulkTables.length) rest)

/-- The slice asked for last in a run. -/
def Run.lastRange (run : Run) : Option Slice := run.hops.reverse.findSome? Hop.range

/-- The plan of a run. -/
def Run.plan (settings : Settings) (topology : Topology) (n : Numbering) (run : Run) :
    Except SqlError Plan := do
  let trees ← (run.trees settings topology).mapError .tree
  let queue ← (stacksOf trees).mapError .tree
  let executions := queue.foldl (fun k (t, _) => k + t.binding.executions) 0
  let windowed := executions > 1 && run.hasOrderOrRange
  let statements ← statementsOf settings windowed n.bulkTables queue
  let terminals := statements.filterMap Statement.terminal?
  return {
    dialect := settings.dialect
    statements := statements
    window := if windowed then some ⟨run.lastRange⟩ else none
    drop := if run.isDrop then
        some (dropTargets topology n.dropTables (terminals.map FragmentKey.table))
      else none
    executions := executions }

/-- The plans of several runs, with temporary tables numbered across all of them. -/
def planRuns (settings : Settings) (topology : Topology) :
    Numbering → List Run → Except SqlError (List Plan)
  | _, [] => return []
  | n, run :: runs => do
    let plan ← run.plan settings topology n
    return plan :: (← planRuns settings topology (plan.numbering n) runs)

/-- The plans of every run of a chain, in order. -/
def FusedChain.plans (r : FusedChain) (settings : Settings) (topology : Topology) :
    Except SqlError (List Plan) :=
  planRuns settings topology {} r.runs

end TraversalSql
