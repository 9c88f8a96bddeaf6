import TraversalSql.Tree.Basic

/-!
# Path stacks

Each statement reads one path of a tree, from the root to the node that its rows end at. Statements
come in three phases. The regular ones end at full depth. The optional ones end where an optional
part begins and carry the branches of the part, all of which must come back empty. The emit ones
end at emitted nodes on the way.
-/

set_option autoImplicit false

namespace TraversalSql

/-- The phases, in the order in which their statements run. -/
inductive Phase where
  | regular
  | optional
  | emit
deriving DecidableEq, Repr

namespace Phase

def all : List Phase := [regular, optional, emit]

def text : Phase → String
  | regular => "REGULAR"
  | optional => "OPTIONAL"
  | emit => "EMIT"

end Phase

/-- A path of a tree, for one statement. -/
structure PathStack where
  phase : Phase
  /-- The nodes from the root on. -/
  nodes : List Nat
  /-- Only in the optional phase: paths below the last node that must come back empty. -/
  branches : List (List Nat) := []
deriving DecidableEq, Repr

/-- The node that a stack's rows end at. -/
def PathStack.terminal? (s : PathStack) : Option Nat := s.nodes.getLast?

namespace QueryTree

/-- Childless nodes at full depth that no optional part begins at. -/
def regularLeaves (t : QueryTree) : List Nat :=
  t.liveWhere fun _ n => n.children.isEmpty && n.depth == t.fullDepth && !n.leftJoin

/-- Nodes at which an optional part begins. -/
def frontiers (t : QueryTree) : List Nat := t.liveWhere fun _ n => n.leftJoin

/-- Emitted nodes that no other phase ends at. -/
def emitted (t : QueryTree) : List Nat :=
  let regular := t.regularLeaves
  t.liveWhere fun id n => n.emit && !n.leftJoin && !regular.contains id

/-- The paths down from a node to the first nodes that are childless or begin an optional part. -/
def branchesFrom (t : QueryTree) : Nat → Nat → List (List Nat)
  | 0, _ => []
  | depth + 1, id =>
    match t.nodes[id]? with
    | none => []
    | some n =>
      if n.children.isEmpty || n.leftJoin then [[id]]
      else (n.children.flatMap (t.branchesFrom depth)).map (id :: ·)

/-- The branches of the optional part that begins at a node. -/
def branchesBelow (t : QueryTree) (frontier : Nat) : List (List Nat) :=
  match t.nodes[frontier]? with
  | some n => n.children.flatMap (t.branchesFrom t.nodes.size)
  | none => []

/-- As `branchesFrom`, refused where a child is missing. -/
def findBranches (t : QueryTree) : Nat → Nat → Except TreeError (List (List Nat))
  | 0, _ => return []
  | depth + 1, id => do
    let n ← t.node id
    if n.children.isEmpty || n.leftJoin then return [[id]]
    return (← n.children.mapM (t.findBranches depth)).flatten.map (id :: ·)

/-- As `branchesBelow`, refused where a child is missing. -/
def findBranchesBelow (t : QueryTree) (frontier : Nat) : Except TreeError (List (List Nat)) := do
  let n ← t.node frontier
  return (← n.children.mapM (t.findBranches t.nodes.size)).flatten

/-- The stacks of a phase, in the order of the nodes they end at. -/
def pathStacks (t : QueryTree) (phase : Phase) : Except TreeError (List PathStack) :=
  if t.unsatisfiable then .ok []
  else
    let stackOf (ends : List Nat) (branches : Nat → Except TreeError (List (List Nat))) :=
      ends.mapM fun id => do
        let branches ← branches id
        return { phase := phase, nodes := ← t.pathTo id, branches := branches }
    match phase with
    | .regular => stackOf t.regularLeaves fun _ => return []
    | .optional => stackOf t.frontiers t.findBranchesBelow
    | .emit => stackOf t.emitted fun _ => return []

end QueryTree

end TraversalSql
