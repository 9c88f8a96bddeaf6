import TraversalSql.Value.Record
import TraversalSql.Number.Notation

/-!
# Values

The scalars that occur as literals of a traversal, as ids and as cells of a result row. Values of
all types are ordered together: nulls first, then booleans, numbers, texts and record ids, where
integers and doubles are compared as numbers.
-/

set_option autoImplicit false

namespace TraversalSql

/-- A scalar value. -/
inductive Value where
  | null
  | bool (b : Bool)
  | int (i : Int64)
  | float (x : Double)
  | string (s : String)
  | record (r : RecordId)
deriving DecidableEq, Repr

namespace Value

def isNull : Value → Bool
  | null => true
  | _ => false

/-- The integer a value holds: a record id counts as the id in its table. -/
def toInt? : Value → Option Int64
  | int i => some i
  | record r => some r.id
  | _ => none

/-- Place of a value's type among the types. -/
def rank : Value → Nat
  | null => 0
  | bool _ => 1
  | int _ | float _ => 2
  | string _ => 3
  | record _ => 4

/-- The order of values in memory. An integer meets a double as the double nearest to it. -/
def order : Value → Value → Ordering
  | bool a, bool b => compare a b
  | int a, int b => compare a b
  | int a, float b => (Double.ofInt a.toInt).compareTotal b
  | float a, int b => a.compareTotal (Double.ofInt b.toInt)
  | float a, float b => a.compareTotal b
  | string a, string b => compare a b
  | record a, record b => compare a b
  | a, b => compare a.rank b.rank

/-- Equality as a filter's literals are compared: as numbers where both are doubles, and part by
part otherwise. -/
def alike : Value → Value → Bool
  | float a, float b => a.numericallyEqual b
  | a, b => a == b

/-- The literal as a traversal writes it. A quote inside a text gets a backslash. -/
def text : Value → String
  | null => "null"
  | bool b => if b then "true" else "false"
  | int i => intText i
  | float x => x.text
  | string s => Text.inQuotes (Text.replaceChar '\'' ['\\', '\''] s)
  | record r => Text.inQuotes r.text

/-- The texts of a list of values, with commas between. -/
def listText (vs : List Value) : String := Text.joined "," (vs.map text)

/-- The type that can hold values of two types; unlike types meet in strings. -/
def unify : PropertyType → PropertyType → PropertyType
  | .integer, .float => .float
  | .float, .integer => .float
  | a, b => if a = b then a else .string

/-- The property type of one value; nulls have none. -/
def propertyType? : Value → Option PropertyType
  | null => none
  | bool _ => some .boolean
  | int _ | record _ => some .integer
  | float _ => some .float
  | string _ => some .string

/-- A column type that can hold every value of a list: texts, or a mixture that is not numeric,
make it a string column, and a list of nulls an integer one. -/
def columnType (vs : List Value) : PropertyType :=
  match vs.filterMap propertyType? with
  | [] => .integer
  | t :: ts => ts.foldl unify t

end Value

end TraversalSql
