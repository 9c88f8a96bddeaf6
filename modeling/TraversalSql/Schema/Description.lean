import TraversalSql.Document.Basic
import TraversalSql.Schema.Topology

/-!
# Schema descriptions

A schema is described by a document that lists vertex labels and edge labels with their
properties, and for every edge label the pairs of vertex labels it connects. A topology is built
from it in the order of the document; names must be identifiers, so that no name of a table or
column needs care.
-/

set_option autoImplicit false

namespace TraversalSql

/-- A vertex label of a schema; without a schema of its own it is in the default one. -/
structure VertexDescription where
  label : String
  schema : Option String
  properties : Properties

/-- An edge label with the vertex labels it goes from and to. -/
structure EdgeDescription where
  label : String
  schema : Option String
  properties : Properties
  connections : List (String × String)

/-- The description of a graph's tables. -/
structure SchemaDescription where
  schema : String
  vertices : List VertexDescription
  edges : List EdgeDescription

/-- The property type of a name. -/
def PropertyType.ofName? : String → Option PropertyType
  | "integer" => some .integer
  | "float" => some .float
  | "string" => some .string
  | "boolean" => some .boolean
  | _ => none

namespace Document

def propertyType? (d : Document) : Option PropertyType := d.name?.bind PropertyType.ofName?

def vertexDescription? (d : Document) : Option VertexDescription := do
  let r ← d.record? ["label", "schema", "properties"]
  return {
    label := ← field? r "label" text?
    schema := ← fieldOr r "schema" (optional? text?) none
    properties := ← fieldOr r "properties" (mapOf? propertyType?) ∅ }

def connection? (d : Document) : Option (String × String) := do
  let r ← d.record? ["out", "in"]
  return (← field? r "out" text?, ← field? r "in" text?)

def edgeDescription? (d : Document) : Option EdgeDescription := do
  let r ← d.record? ["label", "schema", "properties", "connections"]
  return {
    label := ← field? r "label" text?
    schema := ← fieldOr r "schema" (optional? text?) none
    properties := ← fieldOr r "properties" (mapOf? propertyType?) ∅
    connections := ← fieldOr r "connections" (listOf? connection?) [] }

def schemaDescription? (d : Document) : Option SchemaDescription := do
  let r ← d.record? ["schema", "vertices", "edges"]
  return {
    schema := ← fieldOr r "schema" text? Table.defaultSchema
    vertices := ← fieldOr r "vertices" (listOf? vertexDescription?) []
    edges := ← fieldOr r "edges" (listOf? edgeDescription?) [] }

end Document

/-- A letter or underscore, followed by letters, digits and underscores of ASCII. -/
def isIdentifier (s : String) : Bool :=
  match s.toList with
  | [] => false
  | c :: cs => (c.isAlpha || c == '_') && cs.all fun c => c.isAlphanum || c == '_'

def checkIdentifier (role : IdentifierRole) (s : String) : Except SchemaError Unit :=
  if isIdentifier s then .ok () else .error (.invalidIdentifier s role)

/-- The names of a label: its schema, itself, and its properties. -/
def checkNames (schema label : String) (role : IdentifierRole) (properties : Properties) :
    Except SchemaError Unit := do
  checkIdentifier .schema schema
  checkIdentifier role label
  properties.keys.forM (checkIdentifier .propertyName)

namespace SchemaDescription

variable (d : SchemaDescription)

/-- The vertex table of a label, bare or qualified by a schema. -/
def vertexTable (label : String) : Table :=
  match Text.splitFirst '.' label with
  | some (schema, bare) => ⟨schema, bare, .vertex⟩
  | none => ⟨d.schema, label, .vertex⟩

def addVertex (t : Topology) (v : VertexDescription) : Except SchemaError Topology := do
  let schema := v.schema.getD d.schema
  checkNames schema v.label .vertexLabel v.properties
  return (← t.addVertexLabel schema v.label v.properties).2

def addEdge (t : Topology) (e : EdgeDescription) : Except SchemaError Topology := do
  let schema := e.schema.getD d.schema
  checkNames schema e.label .edgeLabel e.properties
  let connections := e.connections.map fun (source, target) =>
    (d.vertexTable source, d.vertexTable target)
  return (← t.addEdgeLabel schema e.label e.properties connections).2

/-- The topology that a description stands for. -/
def topology : Except SchemaError Topology := do
  checkIdentifier .schema d.schema
  let t ← d.vertices.foldlM d.addVertex {}
  d.edges.foldlM d.addEdge t

end SchemaDescription

/-- The topology that a document describes. -/
def Topology.ofDocument (d : Document) : Except SchemaError Topology :=
  match d.schemaDescription? with
  | some s => s.topology
  | none => .error .malformed

end TraversalSql
