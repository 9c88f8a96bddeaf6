import TraversalSql.Schema.Table
import TraversalSql.Schema.Error

/-!
# Topologies

A topology lists the vertex tables, the edge tables with their foreign keys, and for every vertex
table the edge tables that go out of it and come in to it. The last is the foreign-key graph seen
from the vertices; both views grow together.
-/

set_option autoImplicit false

namespace TraversalSql

/-- An edge table: its properties, and a foreign key per vertex table and end. -/
structure EdgeTable where
  properties : Properties := ∅
  foreignKeys : SortedSet ForeignKey := ∅

/-- The edge tables at a vertex table. -/
structure Incidence where
  incoming : SortedSet Table := ∅
  outgoing : SortedSet Table := ∅

/-- The edge tables at the given side. -/
def Incidence.side (i : Incidence) : Direction → SortedSet Table
  | .outgoing => i.outgoing
  | _ => i.incoming

/-- The tables of a graph and the foreign keys between them. -/
structure Topology where
  vertices : SortedMap Table Properties := ∅
  edges : SortedMap Table EdgeTable := ∅
  incidence : SortedMap Table Incidence := ∅

namespace Topology

instance : Inhabited Topology := ⟨{}⟩

/-- Add a vertex table; its label must be new in its schema. -/
def addVertexLabel (t : Topology) (schema label : String) (properties : Properties) :
    Except SchemaError (Table × Topology) :=
  let table : Table := ⟨schema, label, .vertex⟩
  if t.vertices.contains table then .error (.duplicateLabel schema label)
  else .ok (table, { t with
    vertices := t.vertices.insert table properties
    incidence := t.incidence.alter table fun old => old.getD {} })

/-- The first end of a connection that is no vertex table. -/
def danglingEnd? (t : Topology) (connections : List (Table × Table)) : Option Table :=
  (connections.flatMap fun (source, target) => [source, target]).find? fun v =>
    !t.vertices.contains v

/-- Add one connection of an edge table, from `source` to `target`. -/
def connect (t : Topology) (edge source target : Table) : Topology :=
  { t with
    edges := t.edges.alter edge fun old =>
      let old := old.getD {}
      { old with
        foreignKeys := (old.foreignKeys.insert ⟨source, .outgoing⟩).insert ⟨target, .incoming⟩ }
    incidence :=
      let out := t.incidence.alter source fun old =>
        let old := old.getD {}
        { old with outgoing := old.outgoing.insert edge }
      out.alter target fun old =>
        let old := old.getD {}
        { old with incoming := old.incoming.insert edge } }

/-- Add an edge table, or properties and connections to one that is there. Every end of a
connection must be a vertex table; otherwise nothing changes. -/
def addEdgeLabel (t : Topology) (schema label : String) (properties : Properties)
    (connections : List (Table × Table)) : Except SchemaError (Table × Topology) :=
  let table : Table := ⟨schema, label, .edge⟩
  match t.danglingEnd? connections with
  | some v => .error (.invalidConnection table.text v.text)
  | none =>
    let grown := { t with
      edges := t.edges.alter table fun old =>
        let old := old.getD {}
        { old with properties := old.properties.insertAll properties.entries } }
    .ok (table, connections.foldl (fun t (source, target) => t.connect table source target) grown)

def contains (t : Topology) (table : Table) : Bool :=
  match table.kind with
  | .vertex => t.vertices.contains table
  | .edge => t.edges.contains table

/-- The property columns of a table. -/
def properties? (t : Topology) (table : Table) : Option Properties :=
  match table.kind with
  | .vertex => t.vertices.find? table
  | .edge => (t.edges.find? table).map EdgeTable.properties

/-- The edge tables at a vertex table. -/
def incidence? (t : Topology) (vertex : Table) : Option Incidence := t.incidence.find? vertex

def foreignKeys? (t : Topology) (edge : Table) : Option (SortedSet ForeignKey) :=
  (t.edges.find? edge).map EdgeTable.foreignKeys

/-- The foreign keys that point at a vertex table, with their edge tables. -/
def foreignKeysInto (t : Topology) (vertex : Table) : List (Table × ForeignKey) :=
  t.edges.entries.flatMap fun (edge, e) =>
    (e.foreignKeys.toList.filter fun k => k.vertex == vertex).map fun k => (edge, k)

/-- The tables of a kind, in order. -/
def tables (t : Topology) : ElementKind → List Table
  | .vertex => t.vertices.keys
  | .edge => t.edges.keys

/-- The first table of a kind that a bare or qualified label matches. -/
def resolve (t : Topology) (kind : ElementKind) (label : String) : Except SchemaError Table :=
  match (t.tables kind).find? fun table => table.matchesLabel label with
  | some table => .ok table
  | none => .error (match kind with
    | .vertex => .noVertexTable label
    | .edge => .noEdgeTable label)

end Topology

end TraversalSql
