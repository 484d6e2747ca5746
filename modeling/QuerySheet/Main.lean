import QuerySheet.CommandLine.Needs

/-!
# The program

Looks at the variables and files that the arguments call for, and prints the report on them.
-/

namespace QuerySheet.Program

/-- What stands at a path, if it can be read. -/
def lookAt (path : String) : IO (Option FileEntry) := do
  try
    return some (.file (← IO.FS.readFile path))
  catch
    | .inappropriateType .. => return some .directory
    | _ => return none

/-- The values of variables that are set. -/
def lookUp (names : List String) : IO Environment :=
  names.filterMapM fun name => return (← IO.getEnv name).map (name, ·)

/-- A host with all that an invocation is known to need. -/
def lookAround (host : Host) (i : CommandLine.Invocation) : IO Host := do
  let needs := CommandLine.Needs.ofInvocation host i
  let entries ← (needs.paths.flatMap Files.chains).mapM fun chain =>
    return (chain, ← lookAt (Files.text chain))
  return { host with
    environment := ← lookUp needs.names
    files := { host.files with entry? := fun chain => (entries.lookup chain).bind id } }

/-- The host of an invocation. The settings file is known after the variable that names it, and
    what the settings refer to after that. -/
def hostOf (i : CommandLine.Invocation) : IO Host := do
  let own ← lookUp ["HOME", "XDG_CONFIG_HOME"]
  let base := (← IO.currentDir).toString.utf8ByteSize
  let mut host : Host := ⟨⟨fun _ => none, base⟩, [], own.home?, own.configDirectory?⟩
  for _ in [0:4] do
    host ← lookAround host i
  return host

end QuerySheet.Program

open QuerySheet in
def main (args : List String) : IO UInt32 := do
  let host ← match CommandLine.Request.ofArguments? args with
    | some (.invoke i) => Program.hostOf i
    | _ => pure ⟨⟨fun _ => none, 0⟩, [], none, none⟩
  let report := CommandLine.report host args
  (← IO.getStdout).putStr report.output
  (← IO.getStderr).putStr report.errors
  return report.code.toUInt32
