import SelectionPlan.CommandLine.Invocation
/-!
# Completion scripts

Each script offers the names of the commands.
-/

namespace SelectionPlan
namespace CommandLine

def commandWords : String := " ".intercalate (Level.program.commands.map Prod.fst)

def Shell.script : Shell → String
  | .bash => "complete -W \"" ++ commandWords ++ "\" cutgraph\n"
  | .elvish =>
    "set edit:completion:arg-completer[cutgraph] = \x7b|@words| put " ++ commandWords ++ " \x7d\n"
  | .fish => "complete -c cutgraph -f -a \"" ++ commandWords ++ "\"\n"
  | .powershell =>
    "Register-ArgumentCompleter -Native -CommandName cutgraph -ScriptBlock \x7b \"" ++
      commandWords ++ "\" -split ' ' \x7d\n"
  | .zsh => "#compdef cutgraph\n_arguments '1:command:(" ++ commandWords ++ ")'\n"

end CommandLine
end SelectionPlan
