import TraversalSql.Value.Basic

/-!
# Predicates

What a filter may ask of one value, and the pairs of a key and a predicate that filters are made
of. Two keys are reserved: `id` asks for the element's id and `label` for its table.
-/

set_option autoImplicit false

namespace TraversalSql

/-- A comparison with one value. -/
inductive Comparison where
  | eq
  | neq
  | lt
  | lte
  | gt
  | gte
deriving DecidableEq, Repr

namespace Comparison

def name : Comparison → String
  | eq => "eq"
  | neq => "neq"
  | lt => "lt"
  | lte => "lte"
  | gt => "gt"
  | gte => "gte"

def sqlOperator : Comparison → String
  | eq => "="
  | neq => "<>"
  | lt => "<"
  | lte => "<="
  | gt => ">"
  | gte => ">="

end Comparison

/-- A test on the characters of a text. -/
inductive TextTest where
  | containing
  | notContaining
  | startingWith
  | notStartingWith
  | endingWith
  | notEndingWith
deriving DecidableEq, Repr

namespace TextTest

def name : TextTest → String
  | containing => "containing"
  | notContaining => "notContaining"
  | startingWith => "startingWith"
  | notStartingWith => "notStartingWith"
  | endingWith => "endingWith"
  | notEndingWith => "notEndingWith"

def isNegated : TextTest → Bool
  | notContaining | notStartingWith | notEndingWith => true
  | containing | startingWith | endingWith => false

end TextTest

/-- A condition on one value. -/
inductive Predicate where
  | compare (op : Comparison) (value : Value)
  /-- The value is there. -/
  | present
  /-- The value is not there. -/
  | absent
  | within (values : List Value)
  | without (values : List Value)
  /-- From `low` up to, but not including, `high`. -/
  | between (low high : Value)
  /-- Strictly between `low` and `high`. -/
  | inside (low high : Value)
  /-- Below `low` or above `high`. -/
  | outside (low high : Value)
  | and (parts : List Predicate)
  | or (parts : List Predicate)
  | text (test : TextTest) (pattern : String)
  | fullText (query : String) (configuration : Option String)
  /-- User code, which no statement can express. -/
  | lambda (code : String)
deriving Repr

namespace Predicate

instance : Inhabited Predicate := ⟨.present⟩

/-- The values of a membership test. -/
def membershipValues? : Predicate → Option (List Value)
  | within vs | without vs => some vs
  | _ => none

mutual

/-- Every value a predicate mentions, from left to right. -/
def values : Predicate → List Value
  | compare _ v => [v]
  | within vs | without vs => vs
  | between a b | inside a b | outside a b => [a, b]
  | and ps | or ps => valuesOfAll ps
  | present | absent | text .. | fullText .. | lambda _ => []

/-- The values of all parts, from left to right. -/
def valuesOfAll : List Predicate → List Value
  | [] => []
  | p :: ps => p.values ++ valuesOfAll ps

end

/-- A membership list as it is written: long lists only by their length. -/
def membershipText (name : String) (vs : List Value) : String :=
  if vs.length > 8 then name ++ "([" ++ toString vs.length ++ " values])"
  else name ++ "(" ++ Value.listText vs ++ ")"

/-- A call with two values. -/
def pairText (name : String) (a b : Value) : String :=
  name ++ "(" ++ a.text ++ "," ++ b.text ++ ")"

mutual

/-- The predicate as a traversal writes it. -/
def toText : Predicate → String
  | compare op v => op.name ++ "(" ++ v.text ++ ")"
  | present => "exists"
  | absent => "notExists"
  | within vs => membershipText "within" vs
  | without vs => membershipText "without" vs
  | between a b => pairText "between" a b
  | inside a b => pairText "inside" a b
  | outside a b => pairText "outside" a b
  | and ps => "and(" ++ Text.joined "," (textsOfAll ps) ++ ")"
  | or ps => "or(" ++ Text.joined "," (textsOfAll ps) ++ ")"
  | text t s => t.name ++ "('" ++ s ++ "')"
  | fullText query _ => "fullText('" ++ query ++ "')"
  | lambda code => "\x7b" ++ code ++ "\x7d"

def textsOfAll : List Predicate → List String
  | [] => []
  | p :: ps => p.toText :: textsOfAll ps

end

/-- Lists of values that agree place by place. -/
def valuesAlike : List Value → List Value → Bool
  | [], [] => true
  | a :: as, b :: bs => a.alike b && valuesAlike as bs
  | _, _ => false

mutual

/-- The two predicates are built alike from values that are alike. -/
def alike : Predicate → Predicate → Bool
  | compare o v, compare o' v' => o == o' && v.alike v'
  | present, present => true
  | absent, absent => true
  | within vs, within vs' => valuesAlike vs vs'
  | without vs, without vs' => valuesAlike vs vs'
  | between a b, between a' b' => a.alike a' && b.alike b'
  | inside a b, inside a' b' => a.alike a' && b.alike b'
  | outside a b, outside a' b' => a.alike a' && b.alike b'
  | and ps, and ps' => allAlike ps ps'
  | or ps, or ps' => allAlike ps ps'
  | text t s, text t' s' => t == t' && s == s'
  | fullText q c, fullText q' c' => q == q' && c == c'
  | lambda c, lambda c' => c == c'
  | _, _ => false

def allAlike : List Predicate → List Predicate → Bool
  | [], [] => true
  | p :: ps, q :: qs => p.alike q && allAlike ps qs
  | _, _ => false

end

def isWithin : Predicate → Bool
  | within _ => true
  | _ => false

def isAbsent : Predicate → Bool
  | absent => true
  | _ => false

end Predicate

/-- The key that asks for an element's id. -/
def idKey : String := "id"

/-- The key that asks for an element's label. -/
def labelKey : String := "label"

/-- One pair of a key and the predicate that its value is to satisfy. -/
structure Filter where
  key : String
  predicate : Predicate
deriving Repr

namespace Filter

def isId (f : Filter) : Bool := f.key == idKey

def isLabel (f : Filter) : Bool := f.key == labelKey

def text (f : Filter) : String := f.key ++ "." ++ f.predicate.toText

def alike (f g : Filter) : Bool := f.key == g.key && f.predicate.alike g.predicate

/-- The filters agree place by place. -/
def allAlike : List Filter → List Filter → Bool
  | [], [] => true
  | f :: fs, g :: gs => f.alike g && allAlike fs gs
  | _, _ => false

end Filter

end TraversalSql
