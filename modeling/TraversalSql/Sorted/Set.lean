/-!
# Sorted sets

A set is kept as the strictly ascending list of its members, so listing a set is reading its
list. Label sets, foreign keys and incident tables are all of this kind: their order shows in
generated statements, and it is the order of the members and never that of arrival.
-/

set_option autoImplicit false

namespace TraversalSql

/-- A finite set, by the ascending list of its members. -/
structure SortedSet (α : Type) where
  /-- The members, in ascending order. -/
  toList : List α
deriving DecidableEq, Repr

namespace SortedSet

variable {α β : Type}

instance : Inhabited (SortedSet α) := ⟨⟨[]⟩⟩

instance : EmptyCollection (SortedSet α) := ⟨⟨[]⟩⟩

instance : Membership α (SortedSet α) := ⟨fun s a => a ∈ s.toList⟩

/-- `insertInto a l` puts `a` at its place in the ascending list `l`; a member that is already
there stays as it is. -/
def insertInto [Ord α] (a : α) : List α → List α
  | [] => [a]
  | b :: l =>
    match compare a b with
    | .lt => a :: b :: l
    | .eq => b :: l
    | .gt => b :: insertInto a l

/-- The set with `a` added. -/
def insert [Ord α] (s : SortedSet α) (a : α) : SortedSet α := ⟨insertInto a s.toList⟩

/-- The set with every element of a list added, from the left. -/
def insertAll [Ord α] (s : SortedSet α) (l : List α) : SortedSet α := l.foldl insert s

/-- The set of a list's elements. -/
def ofList [Ord α] (l : List α) : SortedSet α := insertAll ∅ l

def isEmpty (s : SortedSet α) : Bool := s.toList.isEmpty

def contains [BEq α] (s : SortedSet α) (a : α) : Bool := s.toList.contains a

@[simp] theorem toList_empty : (∅ : SortedSet α).toList = [] := rfl

@[simp] theorem toList_insert [Ord α] (s : SortedSet α) (a : α) :
    (s.insert a).toList = insertInto a s.toList := rfl

/-- Insertion adds its element and nothing else. -/
theorem mem_insertInto [Ord α] [Std.LawfulEqOrd α] (a x : α) (l : List α) :
    x ∈ insertInto a l ↔ x = a ∨ x ∈ l := by
  induction l with
  | nil => simp [insertInto]
  | cons b l ih =>
    simp only [insertInto]
    split
    · simp
    · rename_i h
      have hab : a = b := Std.LawfulEqOrd.eq_of_compare h
      subst hab
      simp
    · simp only [List.mem_cons, ih]
      constructor
      · rintro (h | h | h) <;> simp [h]
      · rintro (h | h | h) <;> simp [h]

end SortedSet

end TraversalSql
