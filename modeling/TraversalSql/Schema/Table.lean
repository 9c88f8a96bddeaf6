import TraversalSql.Sorted.Set
import TraversalSql.Sorted.Map
import TraversalSql.Text.Cut

/-!
# Tables of a graph

A graph is stored in vertex tables and edge tables. A table is named by its schema, its label and
its kind; an edge table holds one foreign key per vertex table and end that its edges may touch.
Tables are ordered by schema, label and kind, foreign keys by their vertex table and end.
-/

set_option autoImplicit false

namespace TraversalSql

/-- A vertex or an edge. -/
inductive ElementKind where
  | vertex
  | edge
deriving DecidableEq, Repr

namespace ElementKind

/-- What a physical table name starts with. -/
def tablePrefix : ElementKind → String
  | vertex => "V_"
  | edge => "E_"

def rank : ElementKind → Nat
  | vertex => 0
  | edge => 1

end ElementKind

/-- The way a step leaves a vertex along an edge, or the end of an edge it goes to. Nodes of a
query tree have one of the first two; `both` occurs in steps only. -/
inductive Direction where
  | outgoing
  | incoming
  | both
deriving DecidableEq, Repr

namespace Direction

def opposite : Direction → Direction
  | outgoing => incoming
  | incoming => outgoing
  | both => both

/-- What a foreign-key column's name ends with. -/
def columnSuffix : Direction → String
  | outgoing => "__O"
  | incoming => "__I"
  | both => ""

/-- The single directions a step's direction stands for, in the order they are followed. -/
def resolved : Direction → List Direction
  | outgoing => [outgoing]
  | incoming => [incoming]
  | both => [outgoing, incoming]

def rank : Direction → Nat
  | outgoing => 0
  | incoming => 1
  | both => 2

end Direction

/-- A vertex or edge table, named by schema and label. -/
structure Table where
  schema : String
  label : String
  kind : ElementKind
deriving DecidableEq, Repr

namespace Table

instance : Inhabited Table := ⟨⟨"", "", .vertex⟩⟩

/-- The schema of a label that names none. -/
def defaultSchema : String := "public"

/-- The column that holds an element's id. -/
def idColumn : String := "ID"

def isVertex (t : Table) : Bool := t.kind == .vertex

def isEdge (t : Table) : Bool := t.kind == .edge

/-- The name of the physical table, as `V_Person` or `E_knows`. -/
def tableName (t : Table) : String := t.kind.tablePrefix ++ t.label

/-- The name qualified by the schema, as `public.V_Person`. -/
def text (t : Table) : String := t.schema ++ "." ++ t.tableName

/-- A label matches bare (`knows`), or qualified by the schema (`public.knows`) when it holds a
dot. -/
def matchesLabel (t : Table) (label : String) : Bool :=
  match Text.splitFirst '.' label with
  | some (schema, bare) => t.schema == schema && t.label == bare
  | none => t.label == label

/-- Tables are ordered by schema, then label, then kind. -/
def order : Table → Table → Ordering :=
  compareLex (compareOn schema) (compareLex (compareOn label) (compareOn (ElementKind.rank ∘ kind)))

instance : Ord Table := ⟨order⟩

end Table

/-- A column of an edge table that points at one vertex table: the vertex the edge goes out of,
or the one it comes in to. -/
structure ForeignKey where
  vertex : Table
  direction : Direction
deriving DecidableEq, Repr

namespace ForeignKey

/-- The column's name, as `public.Person__O`. -/
def column (k : ForeignKey) : String :=
  k.vertex.schema ++ "." ++ k.vertex.label ++ k.direction.columnSuffix

/-- Foreign keys are ordered by vertex table, then direction. -/
def order : ForeignKey → ForeignKey → Ordering :=
  compareLex (compareOn vertex) (compareOn (Direction.rank ∘ direction))

instance : Ord ForeignKey := ⟨order⟩

end ForeignKey

/-- The type of a property's values. -/
inductive PropertyType where
  | integer
  | float
  | string
  | boolean
deriving DecidableEq, Repr

/-- The property columns of a table, without its id and foreign keys. -/
abbrev Properties := SortedMap String PropertyType

/-! ## The orders are lawful -/

theorem ElementKind.rank_injective {a b : ElementKind} (h : a.rank = b.rank) : a = b := by
  cases a <;> cases b <;> simp_all [rank]

theorem Direction.rank_injective {a b : Direction} (h : a.rank = b.rank) : a = b := by
  cases a <;> cases b <;> simp_all [rank]

instance : Std.TransOrd Table :=
  inferInstanceAs (Std.TransCmp (compareLex (compareOn Table.schema)
    (compareLex (compareOn Table.label) (compareOn (ElementKind.rank ∘ Table.kind)))))

instance : Std.LawfulEqOrd Table where
  eq_of_compare {a b} h := by
    have h : Table.order a b = .eq := h
    simp only [Table.order, compareLex, compareOn, Ordering.then_eq_eq] at h
    obtain ⟨h₁, h₂, h₃⟩ := h
    have e₁ := Std.LawfulEqOrd.eq_of_compare h₁
    have e₂ := Std.LawfulEqOrd.eq_of_compare h₂
    have e₃ := ElementKind.rank_injective (Std.LawfulEqOrd.eq_of_compare h₃)
    cases a
    cases b
    simp_all

instance : Std.TransOrd ForeignKey :=
  inferInstanceAs (Std.TransCmp (compareLex (compareOn ForeignKey.vertex)
    (compareOn (Direction.rank ∘ ForeignKey.direction))))

instance : Std.LawfulEqOrd ForeignKey where
  eq_of_compare {a b} h := by
    have h : ForeignKey.order a b = .eq := h
    simp only [ForeignKey.order, compareLex, compareOn, Ordering.then_eq_eq] at h
    obtain ⟨h₁, h₂⟩ := h
    have e₁ : a.vertex = b.vertex := Std.LawfulEqOrd.eq_of_compare h₁
    have e₂ := Direction.rank_injective (Std.LawfulEqOrd.eq_of_compare h₂)
    cases a
    cases b
    simp_all

end TraversalSql
