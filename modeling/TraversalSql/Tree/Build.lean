import TraversalSql.Settings
import TraversalSql.Tree.Expand
import TraversalSql.Tree.Prune

/-!
# The trees of a run

A run has one query tree for every table that its root may be in. The tree is grown hop by hop
and pruned at the end.
-/

set_option autoImplicit false

namespace TraversalSql.Run

/-- The ids that the only filter on the root's id pins it to, unless they are too many to run a
statement for each. -/
def rootIds? (settings : Settings) (root : Hop) (table : Table) : Option (List Int64) :=
  match root.idPredicates with
  | [p] => do
    let ids ← p.boundIds? table
    if ids.length ≤ settings.bulkThreshold then some ids else none
  | _ => none

/-- What the root is bound to in a table; none if none of its ids belongs to the table. -/
def rootBinding? (settings : Settings) (root : Hop) (table : Table) : Option RootBinding :=
  match root.kind with
  | .incomingRoot _ => some .incoming
  | _ =>
    match rootIds? settings root table with
    | some [] => none
    | some ids => some (.ids ids)
    | none => some .unconstrained

/-- The root's own filters on the id are dropped if its binding says the same. -/
def keepsIds : RootBinding → Bool
  | .ids _ => false
  | .unconstrained | .incoming => true

/-- Expand a hop at every node of a frontier. -/
def expandAll (topology : Topology) (hop : Hop) :
    QueryTree → List Nat → Except TreeError (QueryTree × List Nat)
  | t, [] => return (t, [])
  | t, parent :: parents => do
    let (t, ids) ← hop.expand topology t parent
    let (t, more) ← expandAll topology hop t parents
    return (t, ids ++ more)

/-- Mark where an optional part begins. -/
def markFrontier (hop : Hop) (t : QueryTree) (frontier : List Nat) : QueryTree :=
  if hop.leftJoin then
    frontier.foldl (fun t id => t.modify id fun n => { n with leftJoin := true }) t
  else t

/-- Expand one hop after the other, starting at the nodes of a frontier. -/
def expandHops (topology : Topology) : QueryTree → List Nat → List Hop → Except TreeError QueryTree
  | t, _, [] => return t
  | t, frontier, hop :: hops => do
    let (t, next) ← expandAll topology hop (markFrontier hop t frontier) frontier
    expandHops topology t next hops

/-- The tree of a run whose root is in a given table. -/
def tree (topology : Topology) (root : Hop) (rest : List Hop) (table : Table)
    (binding : RootBinding) : Except TreeError QueryTree := do
  let seed := QueryTree.new table ((topology.properties? table).getD ∅) binding
  let seed ← root.applyTo topology seed QueryTree.root (keepsIds binding)
  let grown ← expandHops topology seed [QueryTree.root] rest
  { grown with fullDepth := rest.length }.pruned

/-- The trees of a run, one for each table that its root may be in. -/
def trees (settings : Settings) (topology : Topology) (run : Run) :
    Except TreeError (List QueryTree) :=
  match run.hops with
  | [] => .ok []
  | root :: rest =>
    (root.rootTables topology).filterMap (fun table =>
      (rootBinding? settings root table).map fun binding => (table, binding))
    |>.mapM fun (table, binding) => tree topology root rest table binding

end TraversalSql.Run
