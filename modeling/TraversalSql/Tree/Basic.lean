import TraversalSql.Schema.Topology
import TraversalSql.Traversal.Hop
import TraversalSql.Tree.Ids

/-!
# Query trees

A query tree holds one node for every table that a run can visit on its way, below the node it is
reached from; vertex and edge tables alternate. Nodes are numbered in the order they are added,
the root is node 0, and a removed node keeps its number. The tree also keeps the list of its
leaves, in the order in which they became leaves.

A `TreeError` is no mistake of the user; it is a request that the tree's shape rules out.
-/

set_option autoImplicit false

namespace TraversalSql

/-- A request that the shape of a query tree rules out. -/
inductive TreeError where
  | notRoot (node : Nat)
  | rootRemoval (node : Nat)
  | unresolvedDirection (node : Nat)
  | kindAlternation (parent child : String)
  | unknownNode (node : Nat)
  | notExpandable (hop : String)
  | schema (e : SchemaError)
deriving DecidableEq, Repr

def TreeError.message : TreeError → String
  | notRoot node => "Path-stack must start at the tree root, got node " ++ toString node
  | rootRemoval node => "The root node " ++ toString node ++ " cannot be removed"
  | unresolvedDirection node =>
    "Direction BOTH reached physical join construction at node " ++ toString node
  | kindAlternation parent child =>
    "Cannot attach " ++ child ++ " below " ++ parent
      ++ ": vertex and edge tables must alternate"
  | unknownNode node => "Unknown query tree node " ++ toString node
  | notExpandable hop => "Hop of kind " ++ hop ++ " cannot expand an existing node"
  | schema e => e.message

/-- Which kind of hop a node comes from. -/
inductive NodeOrigin where
  | graphRoot
  | vertexHop
  | edgeVertexHop
deriving DecidableEq, Repr

/-- What is known about the root's id when a statement runs. -/
inductive RootBinding where
  | unconstrained
  /-- The statement runs once for each id. -/
  | ids (ids : List Int64)
  /-- The ids arrive with the elements that flow in. -/
  | incoming
deriving DecidableEq, Repr

def RootBinding.isBound : RootBinding → Bool
  | unconstrained => false
  | ids _ | incoming => true

/-- One visit of a table. -/
structure QueryNode where
  table : Table
  /-- The direction the node was reached in; the root has none. -/
  direction : Option Direction
  origin : NodeOrigin
  depth : Nat
  labels : SortedSet ResultLabel := ∅
  /-- The foreign key that joins the node to its parent. It is a column of whichever of the two
  is an edge table. -/
  joinKey : Option ForeignKey
  /-- All foreign keys of an edge table that a hop ends at. -/
  foreignKeys : SortedSet ForeignKey := ∅
  emit : Bool := false
  leftJoin : Bool := false
  untilFirst : Bool := false
  drop : Bool := false
  /-- The edge table that a hop between vertices crosses. -/
  intermediate : Bool := false
  parent : Option Nat
  children : List Nat := []
  properties : Properties
  filters : List Filter := []
  idPredicates : List Predicate := []
  order : List SortSpec := []
  range : Option Slice := none
  removed : Bool := false

namespace QueryNode

/-- The user named the node so. -/
def hasUserLabel (n : QueryNode) (name : String) : Bool :=
  n.labels.toList.any fun l => l.isUser && l.name == name

def userLabels (n : QueryNode) : SortedSet String := .ofList (ResultLabel.userNames n.labels)

def hasFilters (n : QueryNode) : Bool := !n.filters.isEmpty || !n.idPredicates.isEmpty

/-- Some filter of the node lets no row through. -/
def isBlocked (n : QueryNode) : Bool :=
  n.idPredicates.any Predicate.isEmptyMembership
    || n.filters.any fun f => f.predicate.isEmptyMembership

end QueryNode

/-- What a new node is told. -/
structure NewNode where
  table : Table
  direction : Direction
  origin : NodeOrigin
  depth : Nat
  joinKey : ForeignKey
  properties : Properties
  intermediate : Bool

/-- A tree of table visits. -/
structure QueryTree where
  nodes : Array QueryNode
  binding : RootBinding
  leaves : List Nat
  /-- The depth of the run's last hop. -/
  fullDepth : Nat := 0
  /-- A filter of the root lets no row through. -/
  unsatisfiable : Bool := false

namespace QueryTree

/-- The number of the root. -/
def root : Nat := 0

/-- A tree of one node. -/
def new (table : Table) (properties : Properties) (binding : RootBinding) : QueryTree where
  nodes := #[{
    table := table, direction := none, origin := .graphRoot, depth := 0, joinKey := none
    parent := none, properties := properties }]
  binding := binding
  leaves := [root]

def node (t : QueryTree) (id : Nat) : Except TreeError QueryNode :=
  match t.nodes[id]? with
  | some n => .ok n
  | none => .error (.unknownNode id)

/-- Change a node, if there is one of the number. -/
def modify (t : QueryTree) (id : Nat) (f : QueryNode → QueryNode) : QueryTree :=
  { t with nodes := t.nodes.modify id f }

/-- The nodes that were not removed, with their numbers. -/
def live (t : QueryTree) : List (Nat × QueryNode) :=
  (t.nodes.toList.zipIdx.filter fun (n, _) => !n.removed).map fun (n, id) => (id, n)

/-- The numbers of the live nodes that satisfy a condition. -/
def liveWhere (t : QueryTree) (p : Nat → QueryNode → Bool) : List Nat :=
  (t.live.filter fun (id, n) => p id n).map Prod.fst

/-- Attach a node below another one. Kinds must alternate, and the direction must be resolved. -/
def addChild (t : QueryTree) (parent : Nat) (child : NewNode) :
    Except TreeError (QueryTree × Nat) := do
  let parentNode ← t.node parent
  if parentNode.table.kind = child.table.kind then
    throw (.kindAlternation parentNode.table.text child.table.text)
  if child.direction = .both then
    throw (.unresolvedDirection t.nodes.size)
  let id := t.nodes.size
  let node : QueryNode := {
    table := child.table, direction := some child.direction, origin := child.origin
    depth := child.depth, joinKey := some child.joinKey, intermediate := child.intermediate
    parent := some parent, properties := child.properties }
  let nodes := (t.nodes.push node).modify parent fun n => { n with children := n.children ++ [id] }
  return ({ t with nodes := nodes, leaves := t.leaves.filter (· != parent) ++ [id] }, id)

/-- A node and all nodes below it, down to the given depth. -/
def below (t : QueryTree) : Nat → Nat → List Nat
  | 0, _ => []
  | depth + 1, id =>
    match t.nodes[id]? with
    | some n => id :: n.children.flatMap (t.below depth)
    | none => []

/-- As `below`, refused where a child is missing. -/
def findBelow (t : QueryTree) : Nat → Nat → Except TreeError (List Nat)
  | 0, _ => return []
  | depth + 1, id => do
    let n ← t.node id
    return id :: (← n.children.mapM (t.findBelow depth)).flatten

/-- Cut a node out of its parent's children; a parent without children becomes a leaf. -/
def detach (t : QueryTree) (parent id : Nat) : QueryTree :=
  let t := t.modify parent fun n => { n with children := n.children.filter (· != id) }
  match t.nodes[parent]? with
  | some n =>
    if n.children.isEmpty && !n.removed then { t with leaves := t.leaves ++ [parent] } else t
  | none => t

/-- Remove a node, which is not the root, with everything below it. -/
def dropSubtree (t : QueryTree) (id : Nat) : QueryTree :=
  let doomed := t.below t.nodes.size id
  let parent := t.nodes[id]?.bind QueryNode.parent
  let bare := doomed.foldl
    (fun t i => t.modify i fun n => { n with removed := true, children := [] }) t
  let bare := { bare with leaves := t.leaves.filter fun l => !doomed.contains l }
  match parent with
  | some p => bare.detach p id
  | none => bare

/-- Remove a node with everything below it. The root stays, and no node that the removal comes by
may be missing. -/
def removeSubtree (t : QueryTree) (id : Nat) : Except TreeError QueryTree := do
  if id = root then throw (.rootRemoval id)
  let n ← t.node id
  let _ ← t.findBelow t.nodes.size id
  let _ ← n.parent.mapM t.node
  return t.dropSubtree id

/-- The node and its ancestors, nearest first; parents have smaller numbers. -/
def ancestors (t : QueryTree) : Nat → Nat → List Nat
  | 0, _ => []
  | steps + 1, id =>
    match t.nodes[id]?.bind QueryNode.parent with
    | some p => id :: t.ancestors steps p
    | none => [id]

/-- As `ancestors`, refused where a parent is missing. -/
def findAncestors (t : QueryTree) : Nat → Nat → Except TreeError (List Nat)
  | 0, _ => return []
  | steps + 1, id => do
    let n ← t.node id
    match n.parent with
    | some p => return id :: (← t.findAncestors steps p)
    | none => return [id]

/-- The nodes from the root to a node, both included. -/
def pathTo (t : QueryTree) (id : Nat) : Except TreeError (List Nat) :=
  return (← t.findAncestors (id + 1) id).reverse

/-- Add filters on the id to a node, resolved against its table. -/
def addIdPredicates (t : QueryTree) (id : Nat) (ps : List Predicate) :
    Except TreeError QueryTree := do
  let n ← t.node id
  let resolved := ps.filterMap (Predicate.resolveIds? n.table)
  return t.modify id fun n => { n with idPredicates := n.idPredicates ++ resolved }

end QueryTree

end TraversalSql
