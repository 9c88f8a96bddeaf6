import TraversalSql.Rows.Element
import TraversalSql.Rows.Error
import TraversalSql.Sql.Statement

/-!
# Reading result rows

The columns of a result are aliases, and a statement knows what each of them stands for. From the
names of the columns a decoder is made, which knows the place of each part of an element in a row;
it then reads any number of rows. Columns that are no alias of the statement are passed over.
-/

set_option autoImplicit false

namespace TraversalSql

/-- What is known about the columns of a result. -/
structure RowFormat where
  aliases : SortedMap String AliasKey
  fragments : List FragmentKey
  orderBy : List (String × SortDirection)

def Statement.rowFormat (s : Statement) : RowFormat := ⟨s.aliases.snapshot, s.fragments, s.orderBy⟩

/-- Where the parts of an element stand in a row. -/
structure ElementLayout where
  key : FragmentKey
  id : Nat
  properties : List (String × Nat)
  outVertices : List (Table × Nat)
  inVertices : List (Table × Nat)
deriving DecidableEq, Repr

/-- Where everything that is read stands in a row. -/
structure RowDecoder where
  layouts : List ElementLayout
  sortColumns : List (Nat × SortDirection)
deriving DecidableEq, Repr

/-- A column of a result that belongs to an element. -/
structure FoundColumn where
  name : String
  column : Column
  index : Nat

namespace FoundColumn

def id? (c : FoundColumn) : Option Nat :=
  match c.column with
  | .id => some c.index
  | _ => none

def property? (c : FoundColumn) : Option (String × Nat) :=
  match c.column with
  | .property name => some (name, c.index)
  | _ => none

/-- The vertex table at one end of an edge. -/
def vertex? (side : Direction) (c : FoundColumn) : Option (Table × Nat) :=
  match c.column with
  | .foreignKey k => if k.direction = side then some (k.vertex, c.index) else none
  | _ => none

/-- The column is a foreign key without a single end. -/
def isAmbiguous (c : FoundColumn) : Bool :=
  match c.column with
  | .foreignKey k => k.direction == .both
  | _ => false

end FoundColumn

namespace RowFormat

variable (f : RowFormat)

/-- The columns of a result that belong to an element, in the order of their names. Columns that
a statement keeps to its sub-selects are not among them. -/
def found (columns : List String) (fragment : FragmentKey) : List FoundColumn :=
  (f.aliases.entries.filter fun (_, k) => fragment.owns k).filterMap fun (name, k) =>
    (columns.idxOf? name).map fun index => ⟨name, k.column, index⟩

/-- Where the parts of one element stand. -/
def layout (columns : List String) (fragment : FragmentKey) :
    Except DecodeFault ElementLayout := do
  let found := f.found columns fragment
  match found.find? FoundColumn.isAmbiguous with
  | some c => throw (.twoEndpoints c.name)
  | none =>
    match (found.filterMap FoundColumn.id?).getLast? with
    | none => throw (.noIdColumn fragment.table.text fragment.depth)
    | some id =>
      return {
        key := fragment
        id := id
        properties := found.filterMap FoundColumn.property?
        outVertices := found.filterMap (FoundColumn.vertex? .outgoing)
        inVertices := found.filterMap (FoundColumn.vertex? .incoming) }

/-- Where a sort column stands. -/
def sortColumn (columns : List String) (key : String × SortDirection) :
    Except DecodeFault (Nat × SortDirection) :=
  match columns.idxOf? key.1 with
  | some index => .ok (index, key.2)
  | none => .error (.noSortColumn key.1)

/-- The decoder for a result with the given columns. -/
def decoder (columns : List String) : Except DecodeFault RowDecoder := do
  let layouts ← f.fragments.mapM (f.layout columns)
  let sortColumns ← f.orderBy.mapM (sortColumn columns)
  return ⟨layouts, sortColumns⟩

end RowFormat

/-- A cell of a row. -/
def cell (row : List Value) (index : Nat) : Except DecodeFault Value :=
  match row[index]? with
  | some v => .ok v
  | none => .error (.shortRow row.length index)

/-- The first of several vertices whose column holds an id. -/
def endpoint (row : List Value) : List (Table × Nat) → Except DecodeFault (Option RecordId)
  | [] => .ok none
  | (table, index) :: rest => do
    match (← cell row index).toInt? with
    | some id => return some ⟨table, id⟩
    | none => endpoint row rest

/-- Read the element at its place in a row; it is not there if its id is null. -/
def ElementLayout.read (l : ElementLayout) (row : List Value) :
    Except DecodeFault (Option Element) := do
  match ← cell row l.id with
  | .null => return none
  | v =>
    match v.toInt? with
    | none => throw (.idNotInteger l.key.table.text v)
    | some id =>
      let properties ← l.properties.mapM fun (name, index) => return (name, ← cell row index)
      return some {
        record := ⟨l.key.table, id⟩
        properties := .ofList properties
        labels := .ofList (ResultLabel.userNames l.key.labels)
        depth := l.key.depth
        outVertex := ← endpoint row l.outVertices
        inVertex := ← endpoint row l.inVertices }

/-- Read the elements of a row and its sort key. -/
def RowDecoder.decode (d : RowDecoder) (row : List Value) :
    Except DecodeFault (List Element × RowKey) := do
  let elements ← d.layouts.mapM fun l => l.read row
  let sortKey ← d.sortColumns.mapM fun (index, direction) => return (← cell row index, direction)
  return (elements.filterMap id, sortKey)

end TraversalSql
