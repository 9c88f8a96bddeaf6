import TraversalSql.Document.Yaml
import TraversalSql.Schema.Description
import TraversalSql.Settings
import TraversalSql.Sql.Plan
import TraversalSql.Traversal.Parser

/-!
# The command line

The command takes one traversal and the file of a schema, and prints the traversal with its runs
fused, the steps that are left to interpretation, and the plan of every run. Options are written
`--name value` or `--name=value`, each at most once.
-/

set_option autoImplicit false

namespace TraversalSql

/-- What a command ends with: its status, what it printed, and its complaint if it failed. -/
structure Outcome where
  status : Nat
  output : String
  complaint : String := ""
deriving DecidableEq, Repr

namespace CommandLine

/-- The options with a value. -/
def valued : List String :=
  ["schema", "database", "bulk-within-threshold", "max-repeat-unroll", "dialect"]

/-- The options without a value. -/
def flags : List String := ["json", "eager"]

/-- The words of a command line, sorted out. -/
structure Words where
  positional : List String := []
  /-- Options with their values; a flag has an empty value. -/
  options : List (String × String) := []

def Words.addPositional (w : Words) (s : String) : Words :=
  { w with positional := w.positional ++ [s] }

/-- Add an option that is not there yet. -/
def Words.addOption? (w : Words) (name value : String) : Option Words :=
  if (w.options.lookup name).isSome then none
  else some { w with options := w.options ++ [(name, value)] }

/-- The word looks like an option, and so is no value of one. -/
def isOptionLike (s : String) : Bool :=
  match s.toList with
  | '-' :: _ :: _ => true
  | _ => false

/-- The name of an option, and its value if it is given in the same word. -/
def long? (s : String) : Option (String × Option String) :=
  match s.toList with
  | '-' :: '-' :: cs =>
    match Text.cutFirst '=' cs with
    | some (name, value) => some (String.ofList name, some (String.ofList value))
    | none => some (String.ofList cs, none)
  | _ => none

/-- Sort out the words of a command line. Behind `--` there are no options. -/
def sortWords? (w : Words) : List String → Option Words
  | [] => some w
  | "--" :: rest => some (rest.foldl Words.addPositional w)
  | s :: rest =>
    if isOptionLike s then
      match long? s with
      | none => none
      | some (name, some value) =>
        if valued.contains name then
          match w.addOption? name value with
          | some w => sortWords? w rest
          | none => none
        else none
      | some (name, none) =>
        if flags.contains name then
          match w.addOption? name "" with
          | some w => sortWords? w rest
          | none => none
        else if valued.contains name then
          match rest with
          | [] => none
          | value :: rest =>
            if isOptionLike value then none
            else
              match w.addOption? name value with
              | some w => sortWords? w rest
              | none => none
        else none
    else sortWords? (w.addPositional s) rest

/-- A command. -/
structure Command where
  traversal : String
  /-- The file of the schema. -/
  schema : String
  /-- A database to run the plans on. -/
  database : Option String
  settings : Settings
deriving DecidableEq, Repr

/-- An option's value read by a reader, or a default. -/
def optionOr {α : Type} (w : Words) (name : String) (read : String → Option α) (default : α) :
    Option α :=
  match w.options.lookup name with
  | some value => read value
  | none => some default

/-- The name of a file, which is not empty. -/
def path? (s : String) : Option String := if s.isEmpty then none else some s

/-- The command that some words spell; none if they are no proper command. -/
def command? (args : List String) : Option Command := do
  let w ← sortWords? {} args
  let default : Settings := {}
  match w.positional with
  | [traversal] =>
    return {
      traversal := traversal
      schema := ← (w.options.lookup "schema").bind path?
      database := ← optionOr w "database" (fun s => (path? s).map some) none
      settings := {
        bulkThreshold := ← optionOr w "bulk-within-threshold"
          (fun s => (Reading.count s).toOption) default.bulkThreshold
        lazyResults := (w.options.lookup "eager").isNone
        maxTurns := ← optionOr w "max-repeat-unroll" (fun s => (Reading.count s).toOption)
          default.maxTurns
        dialect := ← optionOr w "dialect" Dialect.ofName? default.dialect } }
  | _ => none

/-- One line for each step that is left to interpretation. -/
def fallbackText (f : Fallback) : String :=
  "  interpreted #" ++ toString f.index ++ " " ++ f.step ++ ": " ++ f.reason.message ++ "\n"

/-- What is printed about the chain. -/
def chainText (r : FusedChain) : String :=
  r.traversal.text ++ "\n" ++ String.join (r.fallbacks.map fallbackText)

/-- What is printed about the plans. -/
def plansText (plans : List Plan) : String :=
  String.join (plans.zipIdx.map fun (p, i) =>
    "\n-- run " ++ toString (i + 1) ++ " --\n" ++ p.text ++ "\n")

/-- The topology that the text of a schema file describes. -/
def readTopology (text : String) : Except SchemaError Topology :=
  match Document.ofYaml? text with
  | some d => Topology.ofDocument d
  | none => .error .malformed

/-- A failure, after something was printed. -/
def failed (output complaint : String) : Outcome := ⟨1, output, complaint⟩

/-- Carry out a command, given the text of the schema file if it can be read. -/
def Command.run (c : Command) (schemaText : Option String) : Outcome :=
  match c.settings.checked with
  | .error e => failed "" ("invalid configuration: " ++ e.message)
  | .ok settings =>
    match schemaText with
    | none => failed "" ("cannot load schema " ++ c.schema)
    | some text =>
      match readTopology text with
      | .error e => failed "" ("cannot load schema " ++ c.schema ++ ": " ++ e.message)
      | .ok topology =>
        match Traversal.parse c.traversal with
        | .error e => failed "" e.message
        | .ok traversal =>
          let fused := traversal.fuse settings.fusion
          match fused.plans settings topology with
          | .error e => failed (chainText fused) e.message
          | .ok plans =>
            let output := chainText fused ++ plansText plans
            match c.database with
            | none => ⟨0, output, ""⟩
            | some _ => failed output "statements cannot be executed here"

end CommandLine

end TraversalSql
