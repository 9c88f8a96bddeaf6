import TraversalSql.Rows.Element

/-!
# Paths as JSON

Result paths are exported as one JSON text without blanks, fields in a fixed order. Numbers keep
their point, a number that is not finite becomes null, and the vertices of an edge appear only
where they are known.
-/

set_option autoImplicit false

namespace TraversalSql.Export

/-- A digit of base sixteen, in small letters. -/
def hexDigit (n : Nat) : Char :=
  if n < 10 then Char.ofNat ('0'.toNat + n) else Char.ofNat ('a'.toNat + (n - 10))

/-- A character of a text: quotes, backslashes and control characters are escaped. -/
def escaped (c : Char) : List Char :=
  match c with
  | '"' => ['\\', '"']
  | '\\' => ['\\', '\\']
  | '\n' => ['\\', 'n']
  | '\r' => ['\\', 'r']
  | '\t' => ['\\', 't']
  | c =>
    if c.toNat = 8 then ['\\', 'b']
    else if c.toNat = 12 then ['\\', 'f']
    else if c.toNat < 32 then
      ['\\', 'u', '0', '0', hexDigit (c.toNat / 16), hexDigit (c.toNat % 16)]
    else [c]

def text (s : String) : String := "\"" ++ String.ofList (s.toList.flatMap escaped) ++ "\""

def list (items : List String) : String := "[" ++ Text.joined "," items ++ "]"

def object (fields : List (String × String)) : String :=
  "\x7b" ++ Text.joined "," (fields.map fun (k, v) => text k ++ ":" ++ v) ++ "\x7d"

def kind : ElementKind → String
  | .vertex => text "vertex"
  | .edge => text "edge"

def table (t : Table) : String :=
  object [("schema", text t.schema), ("label", text t.label), ("kind", kind t.kind)]

def record (r : RecordId) : String := object [("table", table r.table), ("id", intText r.id)]

def value : Value → String
  | .null => "null"
  | .bool b => if b then "true" else "false"
  | .int i => intText i
  | .float x => x.exportText?.getD "null"
  | .string s => text s
  | .record r => record r

/-- A field that is there only if its value is known. -/
def optional (name : String) (r : Option RecordId) : List (String × String) :=
  (r.map fun r => (name, record r)).toList

def element (e : Element) : String :=
  object ([("kind", kind e.kind), ("record", record e.record),
      ("properties", object (e.properties.entries.map fun (k, v) => (k, value v))),
      ("labels", list (e.labels.toList.map text)), ("depth", toString e.depth)]
    ++ optional "out_vertex" e.outVertex ++ optional "in_vertex" e.inVertex)

/-- The JSON text of paths. -/
def paths (ps : List (List Element)) : String := list (ps.map fun p => list (p.map element))

end TraversalSql.Export
