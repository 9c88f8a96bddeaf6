import TraversalSql.Tree.Paths
import TraversalSql.Value.Basic

/-!
# Elements and rows

What a statement's rows are decoded into. A row is a path of elements that ends at the one asked
for. Of a path that begins like the one before it, only the rest is handed out, with the number of
elements left out.
-/

set_option autoImplicit false

namespace TraversalSql

/-- A vertex or an edge, read from a result row. -/
structure Element where
  record : RecordId
  properties : SortedMap String Value
  /-- The names that the user gave to the element's place on the path. -/
  labels : SortedSet String
  depth : Nat
  /-- The vertex that an edge goes out of. -/
  outVertex : Option RecordId
  /-- The vertex that an edge comes in to. -/
  inVertex : Option RecordId
deriving DecidableEq, Repr

namespace Element

def kind (e : Element) : ElementKind := e.record.table.kind

/-- The two stand for one record at one place of the path. -/
def sameVisit (e f : Element) : Bool := e.record == f.record && e.depth == f.depth

def text (e : Element) : String :=
  (match e.kind with
    | .vertex => "v["
    | .edge => "e[") ++ e.record.text ++ "]"

end Element

/-- The values that rows are sorted by, each with its direction. -/
abbrev RowKey := List (Value × SortDirection)

/-- A path of elements, less what it shares with the path before it. -/
structure PathRow where
  phase : Phase
  sharedPrefix : Nat
  fragments : List Element
  sortKey : RowKey
deriving DecidableEq, Repr

namespace PathRow

/-- The element that the row ends at. -/
def terminal? (r : PathRow) : Option Element := r.fragments.getLast?

def text (r : PathRow) : String :=
  "[" ++ r.phase.text ++ "]"
    ++ (if r.sharedPrefix > 0 then " (+" ++ toString r.sharedPrefix ++ ")" else "")
    ++ String.join (r.fragments.map fun e => " " ++ e.text)

/-- How many elements the path has in common with the path before it, from the front on. The last
element never counts. -/
def sharedWith (previous : List Element) (r : PathRow) : Nat :=
  ((previous.zip r.fragments).take (r.fragments.length - 1)
    |>.takeWhile fun (a, b) => a.sameVisit b).length

/-- Leave out what the row shares with the path before it. -/
def share (previous : List Element) (r : PathRow) : PathRow :=
  let shared := r.sharedWith previous
  { r with sharedPrefix := shared, fragments := r.fragments.drop shared }

end PathRow

end TraversalSql
