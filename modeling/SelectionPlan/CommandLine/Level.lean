import SelectionPlan.Ordered
/-!
# Commands and options

The program has commands, some of which are groups of further ones.  Each takes its own options
besides the common ones, and may take an operand.
-/

namespace SelectionPlan
namespace CommandLine

inductive Level
  | program | tree | plan | graph | run | config | showSettings | showPaths | showTemplate
  | completion
  /-- The command that explains the others. -/
  | help
  deriving DecidableEq, Repr

inductive Slot
  | projectDir | output | only
  /-- The one argument that is no option. -/
  | operand
  deriving DecidableEq, Repr

inductive OptionKind
  | debug
  | help
  | version
  | value (slot : Slot)
  deriving DecidableEq, Repr

inductive ArgumentFault
  | helpAsked
  | versionAsked
  /-- A group of commands was named and nothing else. -/
  | groupAlone
  | missingCommand
  | unknownCommand
  | unknownArgument
  | missingOperand
  | invalidValue
  /-- A value is attached to an option that takes none. -/
  | unwantedValue
  | repeatedOption
  deriving DecidableEq, Repr

namespace Level

def commands : Level → List (String × Level)
  | program =>
    [("tree", tree), ("plan", plan), ("graph", graph), ("run", run), ("config", config),
     ("completion", completion), ("help", help)]
  | config => [("show", showSettings), ("path", showPaths), ("template", showTemplate), ("help", help)]
  | _ => []

def command? (level : Level) (name : String) : Option Level := lookupKey name level.commands

def takesOperand : Level → Bool
  | tree | plan | graph | run | completion => true
  | _ => false

def ownOption? : Level → String → Option Slot
  | graph, "output" => some .output
  | run, "output" => some .output
  | run, "only" => some .only
  | _, _ => none

def longOption? (level : Level) (name : String) : Option OptionKind :=
  match name with
  | "debug" => some .debug
  | "project-dir" => some (.value .projectDir)
  | "help" => some .help
  | "version" => some .version
  | name => (level.ownOption? name).map .value

def shortOption? (level : Level) (letter : Char) : Option OptionKind :=
  match letter with
  | 'd' => some .debug
  | 'C' => some (.value .projectDir)
  | 'h' => some .help
  | 'V' => some .version
  | 'o' => (level.ownOption? "output").map .value
  | _ => none

def helpFault : Level → List String → ArgumentFault
  | _, [] => .helpAsked
  | level, name :: names =>
    match level.command? name with
    | none => .unknownCommand
    | some below => below.helpFault names

end Level

inductive Shell
  | bash | elvish | fish | powershell | zsh
  deriving DecidableEq, Repr

def Shell.ofText? : String → Option Shell
  | "bash" => some .bash
  | "elvish" => some .elvish
  | "fish" => some .fish
  | "powershell" => some .powershell
  | "zsh" => some .zsh
  | _ => none

/-- Whether a level takes a text as a value: paths must not be empty, and shells must be known. -/
def Level.accepts (level : Level) (slot : Slot) (text : String) : Bool :=
  match slot with
  | .only => true
  | .operand => if level = .completion then (Shell.ofText? text).isSome else text != ""
  | _ => text != ""

end CommandLine
end SelectionPlan
