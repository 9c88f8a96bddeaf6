/-!
# Faults of a schema
-/

set_option autoImplicit false

namespace TraversalSql

/-- What an identifier of a schema document names. -/
inductive IdentifierRole where
  | schema
  | vertexLabel
  | edgeLabel
  | propertyName
deriving DecidableEq, Repr

def IdentifierRole.text : IdentifierRole → String
  | schema => "schema"
  | vertexLabel => "vertex label"
  | edgeLabel => "edge label"
  | propertyName => "property name"

/-- What is wrong with a schema, or with a reference into it. -/
inductive SchemaError where
  | noVertexTable (label : String)
  | noEdgeTable (label : String)
  /-- A table that the schema does not have, and what was being done. -/
  | unknownTable (table context : String)
  | invalidIdentifier (identifier : String) (role : IdentifierRole)
  | invalidConnection (edge vertex : String)
  | duplicateLabel (schema label : String)
  /-- The document has not the form of a schema. -/
  | malformed
deriving DecidableEq, Repr

def SchemaError.message : SchemaError → String
  | noVertexTable label => "No vertex table found for `" ++ label ++ "`"
  | noEdgeTable label => "No edge table found for `" ++ label ++ "`."
  | unknownTable table context => "Unknown table `" ++ table ++ "\n  Context: " ++ context ++ "`"
  | invalidIdentifier identifier role =>
    "Invalid identifier '" ++ identifier ++ "' (" ++ role.text
      ++ " must match [A-Za-z_][A-Za-z0-9_]*)"
  | invalidConnection edge vertex =>
    "Edge `" ++ edge ++ "` references unknown vertex label `" ++ vertex ++ "`"
  | duplicateLabel schema label =>
    "Duplicate label `" ++ label ++ "` in schema `" ++ schema ++ "`"
  | malformed => "Failed to parse configuration"

end TraversalSql
