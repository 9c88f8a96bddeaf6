import TraversalSql.Settings
import TraversalSql.Sql.Condition
import TraversalSql.Sql.Statement

/-!
# Composing statements

A path of a query tree becomes one select. Neighbours on the path are joined on the foreign key
between them. A table can be read only once in one select, so the path is cut where a table would
come again, and the parts become sub-selects that are joined on the columns they export.

Where the root id is given and nothing is read from the root vertex, the root table is left out
and the id is compared with the foreign key of the first edge.
-/

set_option autoImplicit false

namespace TraversalSql

/-- Cut a list so that no key comes twice in a part; `current` is the part being filled. -/
def cutAtRepeats {α κ : Type} [BEq κ] (key : α → κ) (current : List α) : List α → List (List α)
  | [] => if current.isEmpty then [] else [current]
  | a :: as =>
    if current.any fun b => key b == key a then current :: cutAtRepeats key [a] as
    else cutAtRepeats key (current ++ [a]) as

/-- A column of a node. -/
abbrev NodeColumn := Nat × Column

/-- The column that equals the given root id, and the node it belongs to. -/
structure RootCondition where
  node : Nat
  column : Column
deriving DecidableEq, Repr

/-- What has been used up while a statement is composed. -/
structure Workspace where
  /-- The columns that nodes have to export from their sub-select. -/
  wanted : List NodeColumn := []
  /-- How many sub-selects have a name. -/
  subSelects : Nat := 0
  /-- The number of the last temporary table. -/
  bulkTables : Nat

/-- A computation that uses up names and may fail. -/
abbrev Compose := StateT Workspace (Except SqlError)

/-- Have a node export a column. -/
def want (id : Nat) (c : Column) : Compose Unit :=
  modify fun w => if (id, c) ∈ w.wanted then w else { w with wanted := w.wanted ++ [(id, c)] }

/-- Have all the columns exported. -/
def wantAll : List NodeColumn → Compose Unit
  | [] => pure ()
  | (id, c) :: rest => do
    want id c
    wantAll rest

/-- The next number of a sub-select. -/
def nextSubSelect : Compose Nat := do
  modify fun w => { w with subSelects := w.subSelects + 1 }
  return (← get).subSelects

/-- A new temporary table. -/
def nextBulkTable (kind : BulkKind) (values : List Value) : Compose BulkTable := do
  modify fun w => { w with bulkTables := w.bulkTables + 1 }
  return { number := (← get).bulkTables, kind := kind, values := values }

/-- The element that a node stands for. -/
def QueryNode.fragmentKey (n : QueryNode) : FragmentKey := ⟨n.depth, n.table, n.labels⟩

/-- The columns that make up the element of a node: id, properties and, of an edge, its foreign
keys. -/
def QueryNode.elementColumns (n : QueryNode) : List Column :=
  .id :: n.properties.keys.map .property
    ++ if n.table.isEdge then n.foreignKeys.toList.map .foreignKey else []

/-- The element of the node is not needed, and its table neither if its id is known. -/
def QueryNode.isSilent (n : QueryNode) : Bool :=
  n.table.isVertex && n.labels.isEmpty && !n.emit && !n.leftJoin && !n.hasFilters
    && n.order.isEmpty && n.range.isNone

/-- What statements are composed from: a tree, and the settings that say how. -/
structure Composer where
  tree : QueryTree
  settings : Settings

namespace Composer

variable (c : Composer)

def node (id : Nat) : Except SqlError QueryNode := (c.tree.node id).mapError .tree

def key (id : Nat) (column : Column) : Except SqlError AliasKey :=
  return (← c.node id).fragmentKey.column column

def columnRef (id : Nat) (column : Column) : Except SqlError ColumnRef :=
  return ⟨(← c.node id).table, column⟩

/-- The columns that are equal where a node follows its parent: an edge holds the foreign key, and
a vertex the id. The parent's column is first. -/
def joinColumns (id : Nat) : Except SqlError (Column × Column) := do
  let n ← c.node id
  match n.joinKey with
  | none => throw (.invalidPlan (.noJoinKey n.table.text))
  | some k => return if n.table.isEdge then (.id, .foreignKey k) else (.foreignKey k, .id)

/-- A path, cut where a table would come again. -/
def segments (nodes : List Nat) : Except SqlError (List (List Nat)) := do
  let tables ← nodes.mapM fun id => return (id, (← c.node id).table)
  return (cutAtRepeats Prod.snd [] tables).map fun segment => segment.map Prod.fst

/-- The joins between neighbours of a path. -/
def joins : List Nat → Except SqlError (List TableJoin)
  | a :: b :: rest => do
    let n ← c.node b
    let (l, r) ← c.joinColumns b
    let join := ⟨n.table, ← c.columnRef a l, ← c.columnRef b r⟩
    return join :: (← joins (b :: rest))
  | _ => return []

/-- The filters of a node: those on the id first. -/
def nodeFilters (id : Nat) : Except SqlError (List (ColumnRef × Predicate)) := do
  let n ← c.node id
  return n.idPredicates.map (fun p => (⟨n.table, .id⟩, p))
    ++ n.filters.map fun f => (⟨n.table, .property f.key⟩, f.predicate)

/-- The filters of a path's nodes, from the first node on. -/
def filters (nodes : List Nat) : Except SqlError (List (ColumnRef × Predicate)) :=
  return (← nodes.mapM c.nodeFilters).flatten

/-- What the columns stand for. -/
def keys (columns : List NodeColumn) : Except SqlError (List AliasKey) :=
  columns.mapM fun (id, column) => c.key id column

/-- Add a filter to a select: as a condition, or through a temporary table. -/
def addFilter (s : FlatSelect) (filter : ColumnRef × Predicate) : Compose FlatSelect := do
  let (column, p) := filter
  match p.bulk? c.settings.bulkThreshold with
  | some (kind, values) => do
    let bulk ← nextBulkTable kind values
    let unlisted := match kind with
      | .within => []
      | .without => [.unlisted bulk]
    return { s with
      bulkJoins := s.bulkJoins ++ [⟨bulk, column⟩]
      conditions := s.conditions ++ unlisted }
  | none => do
    let sql ← p.condition c.settings.dialect (column.sql c.settings.dialect)
    return { s with conditions := s.conditions ++ [.filter column sql] }

/-- Add filters to a select, one after the other. -/
def addFilters (s : FlatSelect) : List (ColumnRef × Predicate) → Compose FlatSelect
  | [] => return s
  | f :: fs => do addFilters (← c.addFilter s f) fs

/-- The comparison with the root id, if its node is on the path. -/
def rootConditions (nodes : List Nat) : Option RootCondition → Except SqlError (List Condition)
  | some r =>
    if nodes.contains r.node then return [.rootId (← c.columnRef r.node r.column)] else return []
  | none => return []

/-- A path of distinct tables as one select. -/
def flat (nodes : List Nat) (root : Option RootCondition) (columns : List NodeColumn) :
    Compose FlatSelect := do
  match nodes with
  | [] => throw .emptyStack
  | first :: _ =>
    let keys ← c.keys columns
    let source := (← c.node first).table
    let joins ← c.joins nodes
    let conditions ← c.rootConditions nodes root
    let filters ← c.filters nodes
    c.addFilters
      { columns := keys, source := source, joins := joins, bulkJoins := [],
        conditions := conditions }
      filters

/-- One part of a path as a sub-select of the columns it has to export. -/
def subSelect (segment : List Nat) (root : Option RootCondition) : Compose SubSelect := do
  let wanted := (← get).wanted
  let columns := segment.flatMap fun id => wanted.filter fun w => w.1 == id
  let body ← c.flat segment root columns
  return ⟨← nextSubSelect, body⟩

/-- The first and the last node of a segment. -/
def ends (segment : List Nat) : Except SqlError (Nat × Nat) :=
  match segment.head?, segment.getLast? with
  | some first, some last => return (first, last)
  | _, _ => throw .emptyStack

/-- Request the columns on which neighbouring segments are joined. -/
def wantCarried : List (List Nat) → Compose Unit
  | a :: b :: rest => do
    match a.getLast?, b.head? with
    | some left, some right =>
      let (l, r) ← c.joinColumns right
      want left l
      want right r
    | _, _ => pure ()
    wantCarried (b :: rest)
  | _ => pure ()

/-- The segments behind the first, each joined to the one before, which ends at node `left` and is
the sub-select `owner`. -/
def linked (root : Option RootCondition) (left owner : Nat) :
    List (List Nat) → Compose (List LinkedSelect)
  | [] => return []
  | segment :: rest => do
    let sub ← c.subSelect segment root
    let (first, last) ← ends segment
    let (l, r) ← c.joinColumns first
    let link := ⟨sub, ⟨owner, ← c.key left l⟩, ⟨sub.number, ← c.key first r⟩⟩
    return link :: (← linked root last sub.number rest)

/-- The sub-select that exports a node's columns: the last one that holds the node. -/
def owner? (segments : List (List Nat)) (numbers : List Nat) (id : Nat) : Option Nat :=
  ((segments.zip numbers).reverse.find? fun (segment, _) => segment.contains id).map Prod.snd

/-- The columns of a select over sub-selects. -/
def exports (segments : List (List Nat)) (numbers : List Nat) :
    List NodeColumn → Except SqlError (List ExportedColumn)
  | [] => return []
  | (id, column) :: rest => do
    let key ← c.key id column
    match owner? segments numbers id with
    | none => throw (.invalidPlan (.strayOutput id))
    | some owner => return ⟨owner, key⟩ :: (← exports segments numbers rest)

/-- The segments of a path as sub-selects joined one after the other, and their numbers. -/
def chained (segments : List (List Nat)) (outputs : List NodeColumn)
    (root : Option RootCondition) : Compose (ChainedSelect × List Nat) := do
  match segments with
  | [] => throw .emptyStack
  | segment :: rest =>
    let first ← c.subSelect segment root
    let (_, last) ← ends segment
    let links ← c.linked root last first.number rest
    let numbers := first.number :: links.map fun l => l.sub.number
    let exported ← c.exports segments numbers outputs
    return (⟨distinctOn ExportedColumn.key [] exported, first, links⟩, numbers)

/-- A path cut into segments as a select: flat if there is only one segment. -/
def segmented (segments : List (List Nat)) (outputs : List NodeColumn)
    (root : Option RootCondition) : Compose PathSelect := do
  match segments with
  | [segment] => return .flat (← c.flat segment root outputs)
  | _ =>
    c.wantCarried segments
    return .chained (← c.chained segments outputs root).1

/-- The path of a branch as a select. -/
def branchPath (nodes : List Nat) (outputs : List NodeColumn) : Compose PathSelect := do
  let segments ← c.segments nodes
  if segments.length != 1 then wantAll outputs
  c.segmented segments outputs none

/-- A branch of an optional part, with its ends and the columns that join it to the frontier. -/
structure BranchLink where
  nodes : List Nat
  first : Nat
  last : Nat
  carried : Column
  joined : Column

/-- How the branches are joined; the frontier has to export its columns. -/
def branchLinks (frontier : Nat) : List (List Nat) → Compose (List BranchLink)
  | [] => return []
  | branch :: rest => do
    let (first, last) ← ends branch
    let (carried, joined) ← c.joinColumns first
    want frontier carried
    return ⟨branch, first, last, carried, joined⟩ :: (← branchLinks frontier rest)

/-- The branches as selects, none of which may match. -/
def absentBranches (frontier owner : Nat) : List BranchLink → Compose (List AbsentBranch)
  | [] => return []
  | link :: rest => do
    let body ← c.branchPath link.nodes [(link.first, link.joined), (link.last, .id)]
    let number ← nextSubSelect
    let branch : AbsentBranch := {
      number := number, body := body
      carried := ⟨owner, ← c.key frontier link.carried⟩
      joined := ← c.key link.first link.joined
      terminal := ← c.key link.last .id }
    return branch :: (← absentBranches frontier owner rest)

/-- A path to where an optional part begins, together with the part's branches. -/
def optional (stack : PathStack) (segments : List (List Nat)) (outputs : List NodeColumn)
    (root : Option RootCondition) : Compose (PathSelect × List AbsentBranch) := do
  match stack.terminal? with
  | none => throw .emptyStack
  | some frontier =>
    let links ← c.branchLinks frontier stack.branches
    c.wantCarried segments
    let (main, numbers) ← c.chained segments outputs root
    match owner? segments numbers frontier with
    | none => throw (.invalidPlan (.strayFrontier frontier))
    | some owner => return (.chained main, ← c.absentBranches frontier owner links)

/-- The comparison with the root id, if one is given, and the nodes whose tables are read. -/
def rootCondition (nodes : List Nat) : Except SqlError (Option RootCondition × List Nat) := do
  match nodes with
  | [] => throw .emptyStack
  | root :: below =>
    if c.tree.binding.isBound then
      let n ← c.node root
      -- a root that shows nothing is left out: the next table's key holds its id
      match n.isSilent, below with
      | true, first :: _ =>
        match (← c.node first).joinKey with
        | none => throw (.invalidPlan .noFirstJoinKey)
        | some k => return (some ⟨first, .foreignKey k⟩, below)
      | _, _ => return (some ⟨root, .id⟩, nodes)
    else return (none, nodes)

/-- The nodes of a path, with their numbers. -/
def path (nodes : List Nat) : Except SqlError (List (Nat × QueryNode)) :=
  nodes.mapM fun id => return (id, ← c.node id)

/-- The nodes whose elements are part of a row: the last one and the labelled ones. -/
def projected (terminal : Option Nat) (path : List (Nat × QueryNode)) : List (Nat × QueryNode) :=
  path.filter fun (id, n) => some id == terminal || !n.labels.isEmpty

/-- A property of a node, if its table has it. -/
def property? (id : Nat) (n : QueryNode) (name : String) : Option NodeColumn :=
  if n.properties.contains name then some (id, .property name) else none

/-- The column that a sort key of a node denotes; none if the table lacks the property. -/
def sortColumn? (path : List (Nat × QueryNode)) (id : Nat) (n : QueryNode) (spec : SortSpec) :
    Except SqlError (Option NodeColumn) :=
  match spec.key with
  | .id => .ok (some (id, .id))
  | .property name => .ok (property? id n name)
  | .select label property =>
    match path.find? fun (_, m) => m.hasUserLabel label with
    | none => .error (.unknownLabel label)
    | some (target, m) =>
      match property with
      | none => .ok (some (target, .id))
      | some name => .ok (property? target m name)
  | .aggregate _ | .lambda _ => .error (.untranslatable (.sortKey spec.text))

/-- The columns that rows are sorted by: those of the last node first. -/
def sortColumns (path : List (Nat × QueryNode)) :
    Except SqlError (List (NodeColumn × SortDirection)) := do
  let columns ← path.reverse.mapM fun (id, n) => n.order.mapM fun spec =>
    return (← sortColumn? path id n spec).map fun column => (column, spec.direction)
  return columns.flatten.filterMap id

/-- The columns with others added that are not yet among them. -/
def extended (outputs : List NodeColumn) (more : List NodeColumn) : List NodeColumn :=
  more.foldl (fun cs c => if c ∈ cs then cs else cs ++ [c]) outputs

/-- The select of a stack, without its slice, and the elements of its rows. -/
def stackSelect (stack : PathStack) : Compose (Select × List FragmentKey) := do
  let (root, active) ← c.rootCondition stack.nodes
  let path ← c.path stack.nodes
  let projected := projected stack.terminal? path
  let elements := projected.flatMap fun (id, n) => n.elementColumns.map fun column => (id, column)
  let sort ← sortColumns path
  let outputs := extended elements (sort.map Prod.fst)
  -- every request comes before the first sub-select, which exports what was asked for until then
  wantAll outputs
  let segments ← c.segments active
  let (body, absences) ← match stack.phase with
    | .optional => c.optional stack segments outputs root
    | _ => do pure (← c.segmented segments outputs root, [])
  let orderBy ← c.keys (sort.map Prod.fst)
  return (⟨body, absences, orderBy.zip (sort.map Prod.snd), none⟩, projected.map fun (_, n) => n.fragmentKey)

/-- The slice asked for last on a path. -/
def lastRange (nodes : List Nat) : Option Slice :=
  nodes.reverse.findSome? fun id => c.tree.nodes[id]?.bind QueryNode.range

/-- The statement of a stack. With `strip` the slice is left out of the SQL. -/
def statement (stack : PathStack) (strip : Bool) : Compose Statement := do
  let (select, fragments) ← c.stackSelect stack
  let range := c.lastRange stack.nodes
  let root ← c.node QueryTree.root
  return {
    dialect := c.settings.dialect
    phase := stack.phase
    select := { select with slice := if strip then none else range }
    fragments := fragments
    range := range
    rangeStripped := strip && range.isSome
    rootTable := root.table
    rootBinding := c.tree.binding }

end Composer

/-- The statement of one path of a tree, which starts at the root. Temporary tables are numbered
on from `bulkTables`. -/
def QueryTree.statement (t : QueryTree) (settings : Settings) (bulkTables : Nat)
    (stack : PathStack) (strip : Bool) : Except SqlError Statement := do
  match stack.nodes with
  | [] => throw .emptyStack
  | first :: _ =>
    if first != root then throw (.tree (.notRoot first))
    let compose := Composer.statement ⟨t, settings⟩ stack strip
    return (← compose.run { bulkTables := bulkTables }).1

end TraversalSql
