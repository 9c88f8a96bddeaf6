/-!
# Sorted maps

A map is kept as the list of its entries in ascending order of their keys. Tables, properties
and alias maps are listed in key order, whatever the order in which they were written.
-/

set_option autoImplicit false

namespace TraversalSql

/-- A finite map, by its entries in ascending order of the keys. -/
structure SortedMap (κ ν : Type) where
  /-- Key and value pairs, keys ascending. -/
  entries : List (κ × ν)
deriving DecidableEq, Repr

namespace SortedMap

variable {κ ν : Type}

instance : Inhabited (SortedMap κ ν) := ⟨⟨[]⟩⟩

instance : EmptyCollection (SortedMap κ ν) := ⟨⟨[]⟩⟩

/-- Change the value at `k` in an ascending list of entries; `f` sees the old value, if any. -/
def alterIn [Ord κ] (k : κ) (f : Option ν → ν) : List (κ × ν) → List (κ × ν)
  | [] => [(k, f none)]
  | (k', v) :: l =>
    match compare k k' with
    | .lt => (k, f none) :: (k', v) :: l
    | .eq => (k', f (some v)) :: l
    | .gt => (k', v) :: alterIn k f l

/-- Change the value at `k`; `f` sees the old value, if there is one. -/
def alter [Ord κ] (m : SortedMap κ ν) (k : κ) (f : Option ν → ν) : SortedMap κ ν :=
  ⟨alterIn k f m.entries⟩

/-- The map with `v` at `k`, in place of any value that was there. -/
def insert [Ord κ] (m : SortedMap κ ν) (k : κ) (v : ν) : SortedMap κ ν := m.alter k fun _ => v

/-- The map with each pair of a list written into it, from the left. -/
def insertAll [Ord κ] (m : SortedMap κ ν) (l : List (κ × ν)) : SortedMap κ ν :=
  l.foldl (fun m e => m.insert e.1 e.2) m

/-- The map of a list of pairs; the last pair with a key wins. -/
def ofList [Ord κ] (l : List (κ × ν)) : SortedMap κ ν := insertAll ∅ l

def find? [BEq κ] (m : SortedMap κ ν) (k : κ) : Option ν := m.entries.lookup k

def contains [BEq κ] (m : SortedMap κ ν) (k : κ) : Bool := (m.find? k).isSome

def keys (m : SortedMap κ ν) : List κ := m.entries.map Prod.fst

def isEmpty (m : SortedMap κ ν) : Bool := m.entries.isEmpty

@[simp] theorem entries_empty : (∅ : SortedMap κ ν).entries = [] := rfl

@[simp] theorem entries_alter [Ord κ] (m : SortedMap κ ν) (k : κ) (f : Option ν → ν) :
    (m.alter k f).entries = alterIn k f m.entries := rfl

end SortedMap

end TraversalSql
