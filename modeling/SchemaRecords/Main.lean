import SchemaRecords.Command.Run

/-!
# The program

Gathers what the command needs from the machine, runs it, and writes what it leaves.
There is no network here, so a registry is never reached.
-/

namespace SchemaRecords.Program

/-- The variables that options of the registry may come from. -/
def variableNames : List String :=
  ["SCHEMA_REGISTRY_URL", "SCHEMA_REGISTRY_USERNAME", "SCHEMA_REGISTRY_PASSWORD"]

/-- Look a name up in a list of names and what they stand for. -/
def lookUp {α : Type} (table : List (String × α)) (name : String) : Option α :=
  (table.find? fun entry => entry.1 = name).map (·.2)

/-- The variables that are set. -/
def environment : IO Command.Environment := do
  let found ← variableNames.mapM fun name => return (name, ← IO.getEnv name)
  return fun name => (lookUp found name).join

/-- The bytes of a file, or why it cannot be read. -/
def readFile (path : String) : IO (Except String Bytes) := do
  try
    let content ← IO.FS.readBinFile path
    return .ok content.toList
  catch error =>
    match error with
    | .noFileOrDirectory _ _ _ => return .error "No such file or directory (os error 2)"
    | error => return .error (toString error)

/-- The files at some paths. -/
def readFiles (paths : List String) : IO Command.Files := do
  let found ← paths.mapM fun path => return (path, ← readFile path)
  return fun path => (lookUp found path).getD (.error "No such file or directory (os error 2)")

/-- Run a command on this machine. -/
def run (command : Command) : IO (Option Command.Outcome) := do
  let files ← readFiles command.paths
  let input ← if command.readsInput then (← IO.getStdin).readBinToEnd else pure ByteArray.empty
  return command.run ⟨files, input.toList, Registry.Transport.unreachable⟩

end SchemaRecords.Program

/-- Run what the arguments say. -/
def main (arguments : List String) : IO UInt32 := do
  let outcome ← match SchemaRecords.Command.ofArguments (← SchemaRecords.Program.environment) arguments with
    | .error refusal => pure (some (SchemaRecords.Command.Outcome.refused refusal))
    | .ok command => SchemaRecords.Program.run command
  match outcome with
  | none => return 1
  | some outcome =>
    IO.print outcome.output
    if outcome.complaint ≠ "" then IO.eprintln outcome.complaint
    return .ofNat outcome.code
