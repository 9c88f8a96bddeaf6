import TraversalSql.CommandLine

/-!
# The program
-/

set_option autoImplicit false

namespace TraversalSql

/-- The text of a file, if it can be read. -/
def fileText? (path : String) : IO (Option String) := do
  try
    return some (← IO.FS.readFile path)
  catch _ =>
    return none

end TraversalSql

open TraversalSql

/-- Run the command that the arguments spell. -/
def main (args : List String) : IO UInt32 := do
  match CommandLine.command? args with
  | none =>
    IO.eprintln "usage: TRAVERSAL --schema FILE [OPTIONS]"
    return 2
  | some command =>
    let outcome := command.run (← fileText? command.schema)
    IO.print outcome.output
    unless outcome.complaint.isEmpty do
      IO.eprintln outcome.complaint
    return outcome.status.toUInt32
