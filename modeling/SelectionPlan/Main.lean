import SelectionPlan.CommandLine.Run
/-!
# The program

The program loads what a command may read into a workspace, runs the command there and carries out
what it did.
-/

namespace SelectionPlan
namespace CommandLine

def readText? (path : String) : IO (Option String) := do
  try return some (← IO.FS.readFile path)
  catch _ => return none

def hasDirectory (path : String) : IO Bool := do
  try (← IO.FS.realPath path).isDir
  catch _ => return false

def globalSettingsPath : IO (Option String) := do
  match ← IO.getEnv "XDG_CONFIG_HOME", ← IO.getEnv "HOME" with
  | some directory, home =>
    if directory.startsWith "/" then return some (joinPath directory "cutgraph/cutgraph.toml")
    else return home.map (joinPath · ".config/cutgraph/cutgraph.toml")
  | none, home => return home.map (joinPath · ".config/cutgraph/cutgraph.toml")

def settingsVariables : List String :=
  ["CUTGRAPH_NAMING__SCHEME", "CUTGRAPH_NAMING__NOMINAL_NAME", "CUTGRAPH_NAMING__SEPARATOR",
   "CUTGRAPH_NAMING__SYSTEMATIC_FIRST", "CUTGRAPH_SCHEDULING__DEFAULT_COST",
   "CUTGRAPH_SCHEDULING__ON_UNKNOWN_SYSTEMATIC", "CUTGRAPH_EXECUTION__PARALLEL",
   "CUTGRAPH_EXECUTION__PROGRESS_EVERY", "CUTGRAPH_OUTPUT__DIRECTORY"]

def environmentOf (names : List String) : IO Environment := do
  let values ← names.mapM fun name => do return (name, ← IO.getEnv name)
  return values.filterMap fun (name, value) => value.map (name, ·)

def loadWorkspace (i : Invocation) : IO Workspace := do
  let directory := (← IO.currentDir).toString
  let empty : Workspace :=
    { files := { directories := FileTree.leading (resolvePath directory) }
      directory
      globalSettings := ← globalSettingsPath
      environment := [] }
  let texts ← (i.inputs empty).filterMapM fun path => do
    return (← readText? (empty.absolute path)).map fun text =>
      (resolvePath (empty.absolute path), text)
  let directories ← match i.command with
    | some (.graph _ (some target)) =>
      let parent := (resolvePath (empty.absolute target)).dropLast
      let listed ← hasDirectory ("/" ++ "/".intercalate parent)
      pure (if listed then FileTree.leading parent else [])
    | _ => pure []
  let settings ← environmentOf ("HOME" :: settingsVariables)
  let mentioned := (texts.map Prod.snd ++ settings.map Prod.snd).flatMap Expansion.names
  return { empty with
    files := { files := texts, directories := directories ++ empty.files.directories }
    environment := settings ++ (← environmentOf mentioned) }

def writeFiles (before after : FileTree) : IO Unit :=
  for (path, text) in after.files do
    if before.file? path != some text then
      IO.FS.createDirAll ("/" ++ "/".intercalate path.dropLast)
      IO.FS.writeFile ("/" ++ "/".intercalate path) text

def carryOut (i : Invocation) : IO UInt32 := do
  let w ← loadWorkspace i
  let o := i.run w
  try
    writeFiles w.files o.files
    IO.eprint o.errors
    IO.print o.output
    if let some e := o.error then IO.eprintln ("Error: " ++ e.message)
    return o.exitCode.toUInt32
  catch e =>
    IO.eprintln ("Error: I/O error: " ++ toString e)
    return 74

end CommandLine
end SelectionPlan

open SelectionPlan.CommandLine in
def main (arguments : List String) : IO UInt32 := do
  match Invocation.read arguments with
  | .ok i => carryOut i
  | .error fault =>
    if fault.exitCode = 0 then IO.print fault.message else IO.eprint fault.message
    return fault.exitCode.toUInt32
