import TraversalSql.Value.Predicate

/-!
# Which filters a hop can carry

A hop takes over a filter on the id, on the label, or on a property whose predicate a statement
can express. The reserved keys are decided first: a filter on the id that is no test of ids is not
tried as a property filter, and likewise for labels. What no hop can carry stays with the
interpreter.
-/

set_option autoImplicit false

namespace TraversalSql

/-- The part of a hop that takes a filter over. -/
inductive Bucket where
  | label
  | id
  /-- Comparisons, and tests for presence. -/
  | compare
  /-- Membership in a list. -/
  | contains
  /-- Intervals and connectives. -/
  | range
  | text
deriving DecidableEq, Repr

namespace Value

def isLabel : Value → Bool
  | string _ => true
  | _ => false

def isIdLiteral : Value → Bool
  | int _ | string _ | record _ => true
  | _ => false

end Value

namespace Predicate

mutual

/-- A test that can be decided for a table by its label alone. -/
def testsLabels : Predicate → Bool
  | compare op v => (op == .eq || op == .neq) && v.isLabel
  | within vs | without vs => vs.all Value.isLabel
  | and ps | or ps => allTestLabels ps
  | _ => false

def allTestLabels : List Predicate → Bool
  | [] => true
  | p :: ps => p.testsLabels && allTestLabels ps

end

mutual

/-- A test that compares with id literals only. -/
def testsIds : Predicate → Bool
  | compare _ v => v.isIdLiteral
  | within vs | without vs => vs.all Value.isIdLiteral
  | between a b | inside a b | outside a b => a.isIdLiteral && b.isIdLiteral
  | and ps | or ps => allTestIds ps
  | _ => false

def allTestIds : List Predicate → Bool
  | [] => true
  | p :: ps => p.testsIds && allTestIds ps

end

mutual

/-- A statement can express the predicate. Full-text search depends on the dialect, and a
connective needs parts. -/
def isTranslatable (fullText : Bool) : Predicate → Bool
  | lambda _ => false
  | .fullText .. => fullText
  | and ps | or ps => !ps.isEmpty && allTranslatable fullText ps
  | _ => true

def allTranslatable (fullText : Bool) : List Predicate → Bool
  | [] => true
  | p :: ps => p.isTranslatable fullText && allTranslatable fullText ps

end

/-- The bucket of a property filter, by the shape of its predicate. -/
def shape? : Predicate → Option Bucket
  | compare .. | present | absent => some .compare
  | within _ | without _ => some .contains
  | or ps => some (if ps.all isWithin then .contains else .range)
  | between .. | inside .. | outside .. | and _ => some .range
  | text .. | fullText .. => some .text
  | lambda _ => none

end Predicate

/-- The bucket of a filter, if a hop can carry it. -/
def Filter.bucket? (fullText : Bool) (f : Filter) : Option Bucket :=
  if f.isId then if f.predicate.testsIds then some .id else none
  else if f.isLabel then if f.predicate.testsLabels then some .label else none
  else if f.predicate.isTranslatable fullText then f.predicate.shape?
  else none

/-- The filters of one step, told apart. -/
structure SortedFilters where
  labels : List Predicate
  ids : List Predicate
  properties : List Filter
  /-- What no hop can carry. -/
  remaining : List Filter

namespace SortedFilters

/-- Tell filters apart; each part keeps their order. -/
def ofFilters (fullText : Bool) (fs : List Filter) : SortedFilters :=
  let inBucket (p : Option Bucket → Bool) := fs.filter fun f => p (f.bucket? fullText)
  { labels := (inBucket (· == some .label)).map Filter.predicate
    ids := (inBucket (· == some .id)).map Filter.predicate
    properties := inBucket fun b => b.isSome && b != some .label && b != some .id
    remaining := inBucket Option.isNone }

/-- A hop can carry every filter. -/
def isComplete (s : SortedFilters) : Bool := s.remaining.isEmpty

/-- A hop can carry no filter. -/
def isEmpty (s : SortedFilters) : Bool :=
  s.labels.isEmpty && s.ids.isEmpty && s.properties.isEmpty

end SortedFilters

/-- A hop can carry every filter of a step. -/
def allCarried (fullText : Bool) (fs : List Filter) : Bool :=
  (SortedFilters.ofFilters fullText fs).isComplete

end TraversalSql
