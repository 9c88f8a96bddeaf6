import TraversalSql.Sql.Error
import TraversalSql.Sql.Fragment
import TraversalSql.Text.Blank

/-!
# Conditions

A predicate on a column as a condition of a `WHERE` clause. Literals always become parameters.
User code has no such form, and neither has full-text search where the dialect lacks it.
-/

set_option autoImplicit false

namespace TraversalSql

/-- A pattern that matches a text literally: the three characters with a meaning of their own are
put into a class of one character. -/
def globEscaped (s : String) : String :=
  String.ofList (s.toList.flatMap fun c =>
    if c = '*' ∨ c = '?' ∨ c = '[' then ['[', c, ']'] else [c])

namespace Dialect

/-- The literal that a text test is given: the text, or a pattern made from it. -/
def textLiteral (d : Dialect) (test : TextTest) (s : String) : String :=
  match d, test with
  | sqlite, .startingWith | sqlite, .notStartingWith => globEscaped s ++ "*"
  | sqlite, .endingWith | sqlite, .notEndingWith => "*" ++ globEscaped s
  | _, _ => s

/-- What stands before and after the literal of a text test. -/
def textFrame (d : Dialect) (test : TextTest) (column : String) : String × String :=
  match d, test with
  | sqlite, .containing => ("instr(" ++ column ++ ", ", ") > 0")
  | sqlite, .notContaining => ("instr(" ++ column ++ ", ", ") = 0")
  | sqlite, .startingWith | sqlite, .endingWith => (column ++ " GLOB ", "")
  | sqlite, .notStartingWith | sqlite, .notEndingWith => (column ++ " NOT GLOB ", "")
  | clickhouse, .containing => ("position(" ++ column ++ ", ", ") > 0")
  | clickhouse, .notContaining => ("position(" ++ column ++ ", ", ") = 0")
  | clickhouse, .startingWith => ("startsWith(" ++ column ++ ", ", ")")
  | clickhouse, .notStartingWith => ("NOT startsWith(" ++ column ++ ", ", ")")
  | clickhouse, .endingWith => ("endsWith(" ++ column ++ ", ", ")")
  | clickhouse, .notEndingWith => ("NOT endsWith(" ++ column ++ ", ", ")")

/-- A text test on a column. -/
def textCondition (d : Dialect) (column : String) (test : TextTest) (s : String) : Fragment :=
  let (before, after) := d.textFrame test column
  [.text before, .value (.string (d.textLiteral test s)), .text after]

/-- A search for every word of a query in a column. -/
def fullTextCondition (d : Dialect) (column query : String) : Except SqlError Fragment :=
  if d.supportsFullText then
    match Text.words query with
    | [] => .error (.untranslatable (.emptySearch query))
    | ws =>
      let word (w : String) : Fragment :=
        [.text ("hasToken(" ++ column ++ ", "), .value (.string w), .text ")"]
      .ok (.text "(" :: Fragment.joined " AND " (ws.map word) ++ [.text ")"])
  else .error (.fullTextUnsupported d)

end Dialect

namespace Predicate

/-- Two comparisons of a column, joined by a connective. -/
def pairCondition (column lowOp : String) (low : Value) (connective highOp : String)
    (high : Value) : Fragment :=
  [.text ("(" ++ column ++ " " ++ lowOp ++ " "), .value low,
   .text (" " ++ connective ++ " " ++ column ++ " " ++ highOp ++ " "), .value high, .text ")"]

/-- A membership test on a column; an empty list is decided at once. -/
def memberCondition (column : String) (negated : Bool) (vs : List Value) : Fragment :=
  if vs.isEmpty then [.text (if negated then "1 = 1" else "1 = 0")]
  else
    .text (column ++ (if negated then " NOT IN (" else " IN ("))
      :: Fragment.joined ", " (vs.map fun v => [.value v]) ++ [.text ")"]

/-- Conditions joined by a connective, or what an empty list of them comes down to. -/
def connected (connective empty : String) (parts : List Fragment) : Fragment :=
  if parts.isEmpty then [.text empty]
  else .text "(" :: Fragment.joined connective parts ++ [.text ")"]

mutual

/-- A predicate on a column, given by its SQL text. -/
def condition (d : Dialect) (column : String) : Predicate → Except SqlError Fragment
  | compare .eq .null => .ok [.text (column ++ " IS NULL")]
  | compare .neq .null => .ok [.text (column ++ " IS NOT NULL")]
  | compare op v => .ok [.text (column ++ " " ++ op.sqlOperator ++ " "), .value v]
  | present => .ok [.text (column ++ " IS NOT NULL")]
  | absent => .ok [.text (column ++ " IS NULL")]
  | within vs => .ok (memberCondition column false vs)
  | without vs => .ok (memberCondition column true vs)
  | between low high => .ok (pairCondition column ">=" low "AND" "<" high)
  | inside low high => .ok (pairCondition column ">" low "AND" "<" high)
  | outside low high => .ok (pairCondition column "<" low "OR" ">" high)
  | and ps => (conditions d column ps).map (connected " AND " "1 = 1")
  | or ps => (conditions d column ps).map (connected " OR " "1 = 0")
  | text test s => .ok (d.textCondition column test s)
  | fullText query _ => d.fullTextCondition column query
  | lambda code => .error (.untranslatable (.lambda (lambda code).toText column))

/-- The conditions of a list of predicates, or the first fault among them. -/
def conditions (d : Dialect) (column : String) :
    List Predicate → Except SqlError (List Fragment)
  | [] => .ok []
  | p :: ps => do
    let f ← p.condition d column
    return f :: (← conditions d column ps)

end

end Predicate

end TraversalSql
