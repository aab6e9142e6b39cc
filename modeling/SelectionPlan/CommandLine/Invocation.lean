import SelectionPlan.CommandLine.Reading
/-!
# Invocations

An invocation is what the arguments ask for: a command with its operand and options, in a project.
-/

namespace SelectionPlan
namespace CommandLine

inductive Command
  | tree (analysis : String)
  | plan (analysis : String)
  | graph (analysis : String) (output : Option String)
  | run (analysis : String) (output only : Option String)
  | showSettings
  | showPaths
  | showTemplate
  | complete (shell : Shell)
  deriving DecidableEq, Repr

structure Invocation where
  /-- The directory of the project, if it is not the working directory. -/
  projectDir : Option String
  command : Option Command
  deriving DecidableEq, Repr

def Reading.value? (r : Reading) (slot : Slot) : Option String := lookupKey slot r.values

def Reading.command? (r : Reading) : Option Command :=
  let operand := (r.value? .operand).getD ""
  match r.level with
  | .tree => some (.tree operand)
  | .plan => some (.plan operand)
  | .graph => some (.graph operand (r.value? .output))
  | .run => some (.run operand (r.value? .output) (r.value? .only))
  | .showSettings => some .showSettings
  | .showPaths => some .showPaths
  | .showTemplate => some .showTemplate
  | .completion => (Shell.ofText? operand).map .complete
  | .program | .config | .help => none

/-- Reads the arguments.  Of several project directories the one of the innermost level counts. -/
def Invocation.read (arguments : List String) : Except ArgumentFault Invocation := do
  let readings ← Reading.readAll { level := .program } arguments
  return {
    projectDir := (readings.filterMap fun r => r.value? .projectDir).getLast?
    command := readings.getLast?.bind Reading.command? }

def usageText : String :=
  "Usage: cutgraph [OPTIONS] [COMMAND]\n\n" ++
  "Commands:\n" ++
  "  tree <ANALYSIS>                                show the selection tree\n" ++
  "  plan <ANALYSIS>                                print the ordered actions\n" ++
  "  graph <ANALYSIS> [-o FILE]                     write the action graph as DOT\n" ++
  "  run <ANALYSIS> [-o DIR] [--only REGEX]         execute the schedule\n" ++
  "  config show|path|template                      manage settings\n" ++
  "  completion bash|elvish|fish|powershell|zsh     generate shell completions\n\n" ++
  "Options:\n" ++
  "  -d, --debug              -d info, -dd debug, -ddd trace\n" ++
  "  -C, --project-dir DIR    directory of the project\n" ++
  "  -h, --help               print help\n" ++
  "  -V, --version            print the version\n"

def versionText : String := "cutgraph 0.3.0-alpha.0\n"

def ArgumentFault.message : ArgumentFault → String
  | .helpAsked | .groupAlone => usageText
  | .versionAsked => versionText
  | .missingCommand => "error: a command is missing\n\n" ++ usageText
  | .unknownCommand => "error: unknown command\n\n" ++ usageText
  | .unknownArgument => "error: unexpected argument\n\n" ++ usageText
  | .missingOperand => "error: an argument is missing\n\n" ++ usageText
  | .invalidValue => "error: a value is missing or not valid\n\n" ++ usageText
  | .unwantedValue => "error: an option takes no value\n\n" ++ usageText
  | .repeatedOption => "error: an option is given more than once\n\n" ++ usageText

/-- Asking for help or the version is no failure. -/
def ArgumentFault.exitCode : ArgumentFault → Nat
  | .helpAsked | .versionAsked => 0
  | _ => 2

end CommandLine
end SelectionPlan
