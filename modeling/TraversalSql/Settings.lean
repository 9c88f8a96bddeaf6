import TraversalSql.Document.Basic
import TraversalSql.Fusion.Machine
import TraversalSql.Number.Reading
import TraversalSql.Sql.Dialect

/-!
# Settings

What a user may set, and how it is read. Settings come from environment variables, from a document,
or from a command line. Wherever they come from, the two numbers among them have to be within
bounds; all faults of that kind are reported together, in the order of the fields' names.
-/

set_option autoImplicit false

namespace TraversalSql

/-- What a user may set. -/
structure Settings where
  /-- Membership lists with more distinct values than this go through a temporary table. -/
  bulkThreshold : Nat := 100
  /-- Rows are read one statement at a time, as they are asked for. -/
  lazyResults : Bool := true
  /-- How many turns of a loop are written out at most. -/
  maxTurns : Nat := 32
  dialect : Dialect := .sqlite
deriving DecidableEq, Repr

/-- What fusion has to know of the settings. -/
def Settings.fusion (s : Settings) : FusionOptions := ⟨s.maxTurns, s.dialect.supportsFullText⟩

/-- A setting that is out of bounds. -/
inductive SettingFault where
  | bulkThreshold
  | maxTurns
deriving DecidableEq, Repr

def SettingFault.text : SettingFault → String
  | bulkThreshold =>
    "bulk_within_threshold: Bulk within threshold must be between 1 and 1000000"
  | maxTurns => "max_repeat_unroll: Max repeat unroll must be between 1 and 64"

/-- Why the text of a setting cannot be read. -/
inductive SettingTextFault where
  | integer (fault : Reading.IntegerFault)
  | flag
  | dialect (name : String)
deriving DecidableEq, Repr

/-- What is wrong with a text that is no integer. -/
def integerFaultText : Reading.IntegerFault → String
  | .empty => "cannot parse integer from empty string"
  | .invalidDigit => "invalid digit found in string"
  | .tooLarge => "number too large to fit in target type"
  | .tooSmall => "number too small to fit in target type"

/-- What is wrong with a name that no dialect has; it is quoted in small letters. -/
def unknownDialectText (name : String) : String :=
  "unknown SQL dialect '" ++ name.toLower ++ "' (expected 'sqlite' or 'clickhouse')"

def SettingTextFault.text : SettingTextFault → String
  | integer fault => integerFaultText fault
  | flag => "provided string was not `true` or `false`"
  | dialect name => unknownDialectText name

/-- Why settings cannot be used. -/
inductive SettingsError where
  /-- An environment variable with a text that is no value of the setting. -/
  | unreadable (source text : String) (fault : SettingTextFault)
  | outOfBounds (faults : List SettingFault)
  /-- A document of another form. -/
  | malformed
  /-- A document that is not there. -/
  | missing
deriving DecidableEq, Repr

def SettingsError.message : SettingsError → String
  | unreadable source text fault =>
    "Parse error for " ++ source ++ ": " ++ text ++ " - " ++ fault.text
  | outOfBounds faults => Text.joined "\n" (faults.map SettingFault.text)
  | malformed => "Parse error for yaml_content"
  | missing => "Parse error for yaml_file"

namespace Settings

/-- The settings that are out of bounds. -/
def faults (s : Settings) : List SettingFault :=
  (if 1 ≤ s.bulkThreshold ∧ s.bulkThreshold ≤ 1000000 then [] else [.bulkThreshold])
    ++ (if 1 ≤ s.maxTurns ∧ s.maxTurns ≤ 64 then [] else [.maxTurns])

/-- The settings, if they are within bounds. -/
def checked (s : Settings) : Except SettingsError Settings :=
  match s.faults with
  | [] => .ok s
  | faults => .error (.outOfBounds faults)

def readCount (text : String) : Except SettingTextFault Nat :=
  (Reading.count text).mapError .integer

def readFlag : String → Except SettingTextFault Bool
  | "true" => .ok true
  | "false" => .ok false
  | _ => .error .flag

def readDialect (text : String) : Except SettingTextFault Dialect :=
  match Dialect.ofName? text with
  | some d => .ok d
  | none => .error (.dialect text)

/-- The value of a variable, or a default where it is not set. -/
def variableOr {α : Type} (env : String → Option String) (name : String)
    (read : String → Except SettingTextFault α) (default : α) : Except SettingsError α :=
  match env name with
  | some text => (read text).mapError (.unreadable name text)
  | none => .ok default

/-- The settings that environment variables give. -/
def ofEnvironment (env : String → Option String) : Except SettingsError Settings := do
  let default : Settings := {}
  let s : Settings := {
    bulkThreshold := ← variableOr env "SQLGRAPH_BULK_WITHIN_THRESHOLD" readCount
      default.bulkThreshold
    lazyResults := ← variableOr env "SQLGRAPH_LAZY_RESULTS" readFlag default.lazyResults
    maxTurns := ← variableOr env "SQLGRAPH_MAX_REPEAT_UNROLL" readCount default.maxTurns
    dialect := ← variableOr env "SQLGRAPH_DIALECT" readDialect default.dialect }
  s.checked

/-- The dialect that a document names, in small letters only. -/
def dialectOf? (d : Document) : Option Dialect := do
  let name ← d.name?
  [Dialect.sqlite, .clickhouse].find? fun d => d.name == name

/-- The settings of a document's fields. -/
def fields? (d : Document) : Option Settings := do
  let default : Settings := {}
  let r ← d.record? ["bulk_within_threshold", "lazy_results", "max_repeat_unroll", "dialect"]
  return {
    bulkThreshold := ← Document.fieldOr r "bulk_within_threshold" Document.count?
      default.bulkThreshold
    lazyResults := ← Document.fieldOr r "lazy_results" Document.flag? default.lazyResults
    maxTurns := ← Document.fieldOr r "max_repeat_unroll" Document.count? default.maxTurns
    dialect := ← Document.fieldOr r "dialect" dialectOf? default.dialect }

/-- The settings that a document gives, if there is one and it can be read. -/
def ofDocument (d : Option Document) : Except SettingsError Settings :=
  match d.bind fields? with
  | some s => s.checked
  | none => .error .malformed

end Settings

end TraversalSql
