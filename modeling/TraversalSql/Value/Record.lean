import TraversalSql.Schema.Table
import TraversalSql.Number.Reading

/-!
# Record ids

A stored element is identified by its table and the value of its id column. The text form is
`schema.Label:id`; a label without a dot belongs to the default schema.
-/

set_option autoImplicit false

namespace TraversalSql

/-- The identity of one stored element. -/
structure RecordId where
  table : Table
  id : Int64
deriving DecidableEq, Repr

/-- A 64-bit integer in decimal. -/
def intText (i : Int64) : String := toString i.toInt

namespace RecordId

/-- The text form, as `public.Person:4`. -/
def text (r : RecordId) : String :=
  r.table.schema ++ "." ++ r.table.label ++ ":" ++ intText r.id

/-- Read a text form: the id stands behind the last colon, the schema before the first dot. An
empty schema or label is refused. -/
def parse? (s : String) (kind : ElementKind) : Option RecordId := do
  let (qualified, id) ← Text.splitLast ':' s
  let id ← Reading.integer? id
  let (schema, label) := (Text.splitFirst '.' qualified).getD (Table.defaultSchema, qualified)
  if schema.isEmpty || label.isEmpty then none else some ⟨⟨schema, label, kind⟩, id⟩

/-- Records are ordered by table, then id. -/
def order : RecordId → RecordId → Ordering := compareLex (compareOn table) (compareOn id)

instance : Ord RecordId := ⟨order⟩

end RecordId

instance : Std.TransOrd RecordId :=
  inferInstanceAs (Std.TransCmp (compareLex (compareOn RecordId.table) (compareOn RecordId.id)))

end TraversalSql
