import TraversalSql.Tree.Basic

/-!
# Pruning

A branch that cannot produce rows is cut off: first the nodes with a filter that lets nothing
through, then, again and again, the childless nodes at which no result ends. Results end at full
depth, at emitted nodes and where an optional part begins; never at an edge table that is only
crossed.

Pruning goes through `removeSubtree` and hands its refusals on (`pruned`). On a tree whose links
are whole none comes, and what is left is `prune`.
-/

set_option autoImplicit false

namespace TraversalSql.QueryTree

/-- Cut off one node whose filters let nothing through. At the root nothing can be cut off, and
the whole tree is without results. -/
def dropBlocked (t : QueryTree) (id : Nat) : QueryTree :=
  if id = root then { t with unsatisfiable := true }
  else if t.nodes[id]?.any (!·.removed) then t.dropSubtree id
  else t

/-- As `dropBlocked`, by a removal that may be refused. -/
def removeBlocked (t : QueryTree) (id : Nat) : Except TreeError QueryTree := do
  if id = root then return { t with unsatisfiable := true }
  let n ← t.node id
  if n.removed then return t else t.removeSubtree id

/-- No result ends at the node. -/
def isBarren (t : QueryTree) (n : QueryNode) : Bool :=
  n.intermediate || (n.depth < t.fullDepth && !n.emit && !n.leftJoin)

/-- Childless nodes at which no result ends. -/
def barrenLeaves (t : QueryTree) : List Nat :=
  t.liveWhere fun id n => id != root && n.children.isEmpty && t.isBarren n

/-- Cut off barren leaves until none is left, for at most the given number of rounds. -/
def dropBarren : Nat → QueryTree → QueryTree
  | 0, t => t
  | rounds + 1, t =>
    match t.barrenLeaves with
    | [] => t
    | ids => dropBarren rounds (ids.foldl dropSubtree t)

/-- As `dropBarren`, by removals that may be refused. -/
def removeBarren : Nat → QueryTree → Except TreeError QueryTree
  | 0, t => return t
  | rounds + 1, t =>
    match t.barrenLeaves with
    | [] => return t
    | ids => do removeBarren rounds (← ids.foldlM removeSubtree t)

/-- Cut off every branch that cannot produce rows. Each round removes a node, so as many rounds as
there are nodes are enough. -/
def prune (t : QueryTree) : QueryTree :=
  let blocked := t.liveWhere fun _ n => n.isBlocked
  let t := blocked.foldl dropBlocked t
  dropBarren t.nodes.size t

/-- As `prune`, by removals that may be refused. -/
def pruned (t : QueryTree) : Except TreeError QueryTree := do
  let blocked := t.liveWhere fun _ n => n.isBlocked
  let t ← blocked.foldlM removeBlocked t
  removeBarren t.nodes.size t

end TraversalSql.QueryTree
