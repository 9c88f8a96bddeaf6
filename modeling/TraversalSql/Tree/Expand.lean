import TraversalSql.Tree.Basic

/-!
# Expanding a hop

From a table a hop arrives at other tables along the foreign keys of the topology. Tables that its
filters rule out are left away: a label that does not match, ids that all belong to other tables,
or a filter on a property that the table does not have. A hop between vertices crosses an edge
table, which is left away if no table behind it remains.
-/

set_option autoImplicit false

namespace TraversalSql

/-- A label, given as a literal, matches a table. -/
def Value.matchesLabel (table : Table) : Value → Bool
  | .string label => table.matchesLabel label
  | _ => false

namespace Predicate

mutual

/-- A filter on the label, read on a table. What is neither a comparison nor a membership rules
nothing out. -/
def matchesTable (table : Table) : Predicate → Bool
  | compare .eq v => v.matchesLabel table
  | compare .neq v => !v.matchesLabel table
  | within vs => vs.any (Value.matchesLabel table)
  | without vs => !vs.any (Value.matchesLabel table)
  | and ps => allMatchTable table ps
  | or ps => anyMatchesTable table ps
  | _ => true

def allMatchTable (table : Table) : List Predicate → Bool
  | [] => true
  | p :: ps => p.matchesTable table && allMatchTable table ps

def anyMatchesTable (table : Table) : List Predicate → Bool
  | [] => false
  | p :: ps => p.matchesTable table || anyMatchesTable table ps

end

/-- The literals that an equality or a membership pins its value to. -/
def pinned? : Predicate → Option (List Value)
  | compare .eq v => some [v]
  | within vs => some vs
  | _ => none

end Predicate

/-- The table that an id literal names; a plain integer names none. -/
def Value.recordTable? (kind : ElementKind) : Value → Option Table
  | .record r => some r.table
  | .string s => (RecordId.parse? s kind).map RecordId.table
  | _ => none

namespace Hop

variable (h : Hop) (topology : Topology)

/-- The tables that a hop's ids belong to, if every filter on the id is a list of record ids. -/
def idTables? (kind : ElementKind) : Option (List Table) :=
  if h.idPredicates.isEmpty then none
  else do
    let pinned ← h.idPredicates.mapM Predicate.pinned?
    pinned.flatten.mapM (Value.recordTable? kind)

/-- The filters that apply to a table; none if one of them asks for a property that the table does
not have, unless the property is to be absent. -/
def filtersFor? (table : Table) : Option (List Filter) := do
  let properties ← topology.properties? table
  if h.filters.all fun f => properties.contains f.key || f.predicate.isAbsent then
    some (h.filters.filter fun f => properties.contains f.key)
  else none

/-- The hop's filters on label, id and properties leave the table. -/
def matchesTable (table : Table) : Bool :=
  h.labelPredicates.all (Predicate.matchesTable table)
    && (match h.idTables? table.kind with
      | some tables => tables.contains table
      | none => true)
    && (h.filtersFor? topology table).isSome

/-- The tables that a root hop may start from. -/
def rootTables : List Table :=
  (topology.tables h.kind.target).filter (h.matchesTable topology)

/-- Put labels, flags, filters, sort keys and slice of a hop onto a node. The filters on the id
are left out if the root's binding says the same. -/
def applyTo (t : QueryTree) (id : Nat) (withIds : Bool) : Except TreeError QueryTree := do
  let table := (← t.node id).table
  let t := t.modify id fun n => { n with
    foreignKeys :=
      if table.isEdge then (topology.foreignKeys? table).getD ∅ else n.foreignKeys
    labels := n.labels.insertAll h.labels.toList
    emit := n.emit || h.emit
    untilFirst := h.untilFirst
    drop := h.drop
    filters := n.filters ++ (h.filtersFor? topology table).getD []
    order := n.order ++ h.order
    range := h.range <|> n.range }
  if withIds then t.addIdPredicates id h.idPredicates else return t

/-- A table that a hop arrives at, or an edge table with the tables behind it. -/
inductive Arrival where
  | direct (node : NewNode)
  | across (edge : NewNode) (targets : List NewNode)

/-- The visit of a table. -/
def visit (origin : NodeOrigin) (table : Table) (direction : Direction) (joinKey : ForeignKey)
    (intermediate : Bool) : NewNode where
  table := table
  direction := direction
  origin := origin
  depth := h.depth
  joinKey := joinKey
  properties := (topology.properties? table).getD ∅
  intermediate := intermediate

/-- The visits of the vertex tables at one end of an edge table. -/
def endpoints (origin : NodeOrigin) (edge : Table) (side direction : Direction) : List NewNode :=
  let keys := ((topology.foreignKeys? edge).getD ∅).toList.filter fun k =>
    k.direction == side && h.matchesTable topology k.vertex
  keys.map fun k => h.visit topology origin k.vertex direction k false

/-- Where a hop from a vertex table arrives along one edge table. -/
def arrivalAlong (parent : Table) (returns : ElementKind) (direction : Direction) (edge : Table) :
    Option Arrival :=
  let visit := h.visit topology .vertexHop edge direction ⟨parent, direction⟩ (returns == .vertex)
  match returns with
  | .edge => if h.matchesTable topology edge then some (.direct visit) else none
  | .vertex =>
    match h.endpoints topology .vertexHop edge direction.opposite direction with
    | [] => none
    | targets => some (.across visit targets)

/-- The edge table has one of the labels; without labels, any table has. -/
def followsEdge (labels : List String) (edge : Table) : Bool :=
  labels.isEmpty || labels.any edge.matchesLabel

/-- Where a hop arrives from a table. -/
def arrivals (parent : Table) : Except TreeError (List Arrival) :=
  match h.kind with
  | .graphRoot _ | .incomingRoot _ => .error (.notExpandable h.text)
  | .move (.follow direction labels returns) =>
    if parent.isVertex then
      match topology.incidence? parent with
      | none => .error (.schema (.unknownTable parent.text ("While expanding " ++ h.text)))
      | some incidence =>
        .ok (direction.resolved.flatMap fun d =>
          ((incidence.side d).toList.filter (followsEdge labels)).filterMap
            (h.arrivalAlong topology parent returns d))
    else .error (.kindAlternation parent.text h.text)
  | .move (.endpoint direction) =>
    if parent.isEdge then
      .ok (direction.resolved.flatMap fun d =>
        (h.endpoints topology .edgeVertexHop parent d d).map .direct)
    else .error (.kindAlternation parent.text h.text)

/-- Attach nodes that the hop arrives at; their numbers are returned. -/
def attach (parent : Nat) : QueryTree → List NewNode → Except TreeError (QueryTree × List Nat)
  | t, [] => return (t, [])
  | t, n :: ns => do
    let (t, id) ← t.addChild parent n
    let t ← h.applyTo topology t id true
    let (t, ids) ← attach parent t ns
    return (t, id :: ids)

/-- Attach everything that the hop arrives at below a node. -/
def grow (parent : Nat) : QueryTree → List Arrival → Except TreeError (QueryTree × List Nat)
  | t, [] => return (t, [])
  | t, .direct n :: rest => do
    let (t, ids) ← h.attach topology parent t [n]
    let (t, more) ← grow parent t rest
    return (t, ids ++ more)
  | t, .across edge targets :: rest => do
    let (t, id) ← t.addChild parent edge
    let (t, ids) ← h.attach topology id t targets
    let (t, more) ← grow parent t rest
    return (t, ids ++ more)

/-- Grow a tree below a node; the nodes that the hop arrives at are returned. -/
def expand (t : QueryTree) (parent : Nat) : Except TreeError (QueryTree × List Nat) := do
  let table := (← t.node parent).table
  h.grow topology parent t (← h.arrivals topology table)

end Hop

end TraversalSql
