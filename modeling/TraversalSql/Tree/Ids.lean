import TraversalSql.Value.Predicate

/-!
# Ids resolved against a table

A literal id is a plain integer, which may belong to any table, or the id of a record, which
belongs to one; texts can spell either. Against a fixed table a filter on the id turns into a
filter on the integer column: literals of other tables drop out of memberships and make equality
fail. A filter that holds for every row of the table turns into none at all.
-/

set_option autoImplicit false

namespace TraversalSql

/-- The integer that an id literal denotes in a table, if it denotes a row there. -/
def Value.idIn? (table : Table) : Value → Option Int64
  | .int i => some i
  | .record r => if r.table = table then some r.id else none
  | .string s =>
    match Reading.integer? s with
    | some i => some i
    | none =>
      (RecordId.parse? s table.kind).bind fun r => if r.table = table then some r.id else none
  | _ => none

/-- The literals that denote rows of a table, as integers. -/
def idsIn (table : Table) (vs : List Value) : List Value :=
  (vs.filterMap (Value.idIn? table)).map .int

namespace Predicate

mutual

/-- A filter on ids, resolved against a table; `none` if it holds for every row. -/
def resolveIds? (table : Table) : Predicate → Option Predicate
  | compare .neq v => (v.idIn? table).map fun i => compare .neq (.int i)
  | compare op v =>
    match v.idIn? table with
    | some i => some (compare op (.int i))
    | none => some (within [])
  | within vs => some (within (idsIn table vs))
  | without vs =>
    match idsIn table vs with
    | [] => none
    | vs => some (without vs)
  | and ps =>
    match resolveSome table ps with
    | [] => none
    | ps => some (and ps)
  | or ps => (resolveEach? table ps).map or
  | other => some other

/-- The parts of a conjunction that restrict anything. -/
def resolveSome (table : Table) : List Predicate → List Predicate
  | [] => []
  | p :: ps =>
    match p.resolveIds? table with
    | some q => q :: resolveSome table ps
    | none => resolveSome table ps

/-- The parts of a disjunction; none if one of them always holds. -/
def resolveEach? (table : Table) : List Predicate → Option (List Predicate)
  | [] => some []
  | p :: ps =>
    match p.resolveIds? table with
    | none => none
    | some q => (resolveEach? table ps).map (q :: ·)

end

/-- The ids that a filter pins a table's rows to, if it is an equality or a membership. -/
def boundIds? (table : Table) (p : Predicate) : Option (List Int64) := do
  match ← p.resolveIds? table with
  | compare .eq v => return [← v.toInt?]
  | within vs => vs.mapM Value.toInt?
  | _ => none

mutual

/-- The predicate is an empty membership, or a connective that comes down to one: no value
satisfies it. -/
def isEmptyMembership : Predicate → Bool
  | within vs => vs.isEmpty
  | and ps => anyEmptyMembership ps
  | or ps => !ps.isEmpty && allEmptyMembership ps
  | _ => false

def anyEmptyMembership : List Predicate → Bool
  | [] => false
  | p :: ps => p.isEmptyMembership || anyEmptyMembership ps

def allEmptyMembership : List Predicate → Bool
  | [] => true
  | p :: ps => p.isEmptyMembership && allEmptyMembership ps

end

end Predicate

end TraversalSql
