import TraversalSql.Value.Basic

/-!
# SQL with parameters

A piece of SQL is a list of texts and parameters. Its text has a question mark for each parameter,
so texts and parameters cannot get out of step: both are read off one list.
-/

set_option autoImplicit false

namespace TraversalSql

/-- A parameter of a statement. -/
inductive Parameter where
  /-- The id of a root, given anew for each execution. -/
  | rootId
  | value (v : Value)
deriving DecidableEq, Repr

/-- A stretch of SQL text, or one parameter. -/
inductive Piece where
  | text (s : String)
  | param (p : Parameter)
deriving DecidableEq, Repr

namespace Piece

def sql : Piece → String
  | text s => s
  | param _ => "?"

def parameter? : Piece → Option Parameter
  | text _ => none
  | param p => some p

/-- A literal, passed as a parameter. -/
def value (v : Value) : Piece := param (.value v)

instance : Coe String Piece := ⟨text⟩

end Piece

/-- A stretch of SQL with its parameters. -/
abbrev Fragment := List Piece

namespace Fragment

/-- The SQL text, with a question mark for each parameter. -/
def sql (f : Fragment) : String := String.join (f.map Piece.sql)

/-- The parameters, from left to right. -/
def parameters (f : Fragment) : List Parameter := f.filterMap Piece.parameter?

/-- The fragments with a text between neighbours. -/
def joined (sep : String) : List Fragment → Fragment
  | [] => []
  | [f] => f
  | f :: fs => f ++ [.text sep] ++ joined sep fs

@[simp] theorem parameters_append (f g : Fragment) :
    parameters (f ++ g) = parameters f ++ parameters g :=
  List.filterMap_append

theorem sql_append (f g : Fragment) : sql (f ++ g) = sql f ++ sql g := by
  simp [sql, String.join_append]

theorem sql_cons (piece : Piece) (f : Fragment) : sql (piece :: f) = piece.sql ++ f.sql := by
  simp [sql, String.join_cons]

theorem sql_singleton (piece : Piece) : sql [piece] = piece.sql := by simp [sql]

theorem sql_joined (sep : String) (l : List Fragment) :
    (joined sep l).sql = Text.joined sep (l.map sql) := by
  unfold Text.joined
  induction l with
  | nil => rfl
  | cons f l ih =>
    cases l with
    | nil => simp [joined]
    | cons g l =>
      rw [joined, sql_append, sql_append, ih, sql_singleton]
      · simp only [List.map_cons, String.intercalate_cons_cons, Piece.sql]
      · exact List.cons_ne_nil g l

end Fragment

end TraversalSql
