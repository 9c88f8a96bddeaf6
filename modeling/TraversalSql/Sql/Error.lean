import TraversalSql.Sql.Dialect
import TraversalSql.Tree.Basic

/-!
# Why a statement cannot be written
-/

set_option autoImplicit false

namespace TraversalSql

/-- What SQL has no words for. -/
inductive Untranslatable where
  /-- User code as a filter on a column. -/
  | lambda (predicate column : String)
  /-- A search for no word at all. -/
  | emptySearch (query : String)
  /-- A sort key that is computed. -/
  | sortKey (key : String)
deriving DecidableEq, Repr

namespace Untranslatable

def subject : Untranslatable → String
  | lambda predicate _ => predicate
  | emptySearch query => "fullText('" ++ query ++ "')"
  | sortKey key => key

def context : Untranslatable → String
  | lambda _ column => "filter on " ++ column
  | emptySearch _ => "empty full-text query"
  | sortKey _ => "order key"

end Untranslatable

/-- A path or a statement that does not hang together. -/
inductive PlanFault where
  /-- A table joined to its parent by no foreign key. -/
  | noJoinKey (table : String)
  /-- The same, below a root that is left out. -/
  | noFirstJoinKey
  | strayOutput (node : Nat)
  | strayFrontier (node : Nat)
  /-- A statement that is bound to a root id, which was not given. -/
  | missingRootId (sql : String)
deriving DecidableEq, Repr

def PlanFault.text : PlanFault → String
  | noJoinKey table => table ++ " has no join key"
  | noFirstJoinKey => "first hop below the root has no join key"
  | strayOutput node => "output node #" ++ toString node ++ " is in no segment"
  | strayFrontier node => "optional frontier #" ++ toString node ++ " is in no segment"
  | missingRootId sql => "statement needs a root id but none was supplied: " ++ sql

/-- Why a statement cannot be written. -/
inductive SqlError where
  | untranslatable (what : Untranslatable)
  | fullTextUnsupported (dialect : Dialect)
  /-- A sort key that names no element of the path. -/
  | unknownLabel (label : String)
  | emptyStack
  | invalidPlan (fault : PlanFault)
  | tree (e : TreeError)
deriving DecidableEq, Repr

def SqlError.message : SqlError → String
  | untranslatable what =>
    "Predicate " ++ what.subject ++ "\n  Context: " ++ what.context ++ " has no SQL rendering"
  | fullTextUnsupported dialect =>
    "Full-text search is not supported by the " ++ dialect.name ++ " dialect"
  | unknownLabel label =>
    "order().by(select('" ++ label ++ "')) names no labelled step of this query"
  | emptyStack => "Cannot compile an empty path-stack"
  | invalidPlan fault => "Invalid query plan: " ++ fault.text
  | tree e => e.message

end TraversalSql
