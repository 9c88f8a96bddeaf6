import TraversalSql.Traversal.Hop

/-!
# Column aliases

Every column that a statement selects has an alias, `alias1`, `alias2` and so on in the order of
first use. What an alias stands for is kept as a key of depth, table, column and labels, not as a
text, so that no two columns are mixed up whatever characters their names have.
-/

set_option autoImplicit false

namespace TraversalSql

/-- A column of a vertex or edge table. -/
inductive Column where
  | id
  | property (name : String)
  | foreignKey (key : ForeignKey)
deriving DecidableEq, Repr

/-- The column's name in the database. -/
def Column.name : Column → String
  | id => Table.idColumn
  | property p => p
  | foreignKey k => k.column

/-- What an alias stands for: a column of the node of a given depth, table and labels. -/
structure AliasKey where
  depth : Nat
  table : Table
  column : Column
  labels : SortedSet ResultLabel
deriving DecidableEq, Repr

/-- The alias of a number. -/
def aliasName (number : Nat) : String := "alias" ++ toString number

/-- The keys that have an alias, in the order of their numbers, from 1 on. -/
structure AliasTable where
  keys : List AliasKey := []

namespace AliasTable

instance : EmptyCollection AliasTable := ⟨{}⟩

/-- The alias of a key. -/
def find? (t : AliasTable) (k : AliasKey) : Option String :=
  (t.keys.idxOf? k).map fun i => aliasName (i + 1)

/-- Keys and their aliases, in the order of the numbers. -/
def entries (t : AliasTable) : List (String × AliasKey) :=
  t.keys.zipIdx.map fun (k, i) => (aliasName (i + 1), k)

/-- The key of an alias. -/
def keyOf? (t : AliasTable) (name : String) : Option AliasKey := t.entries.lookup name

/-- Give a key the next alias, unless it has one. -/
def add (t : AliasTable) (k : AliasKey) : AliasTable :=
  if k ∈ t.keys then t else ⟨t.keys ++ [k]⟩

/-- The alias of a key, which is added if it has none. -/
def request (t : AliasTable) (k : AliasKey) : String × AliasTable :=
  match t.find? k with
  | some name => (name, t)
  | none => (aliasName (t.keys.length + 1), ⟨t.keys ++ [k]⟩)

/-- Aliases for the keys of a list, in the order of first use. -/
def ofList (ks : List AliasKey) : AliasTable := ks.foldl add ∅

/-- The alias of a key that has one. -/
def name (t : AliasTable) (k : AliasKey) : String := aliasName (t.keys.idxOf k + 1)

/-- Aliases with what they stand for, in the order of their texts. -/
def snapshot (t : AliasTable) : SortedMap String AliasKey := .ofList t.entries

end AliasTable

/-- The identity of one element of a result row. -/
structure FragmentKey where
  depth : Nat
  table : Table
  labels : SortedSet ResultLabel
deriving DecidableEq, Repr

namespace FragmentKey

/-- A column of the element. -/
def column (f : FragmentKey) (c : Column) : AliasKey := ⟨f.depth, f.table, c, f.labels⟩

/-- The key stands for a column of the element. -/
def owns (f : FragmentKey) (k : AliasKey) : Bool :=
  k.depth == f.depth && k.table == f.table && k.labels == f.labels

end FragmentKey

end TraversalSql
