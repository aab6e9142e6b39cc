import SelectionPlan.Analysis.Basic
import SelectionPlan.Backend.Memory
import SelectionPlan.CommandLine.Completion
import SelectionPlan.Execution.Progress
import SelectionPlan.Graph.Dot
import SelectionPlan.Pattern.Reader
import SelectionPlan.Settings.Layers
import SelectionPlan.Tree.Drawing
/-!
# Running commands

A command reads files of a workspace, prints texts and leaves the workspace with the files it
wrote.  Whatever was printed and written before a failure stays.
-/

namespace SelectionPlan
namespace CommandLine

structure Workspace where
  files : FileTree
  directory : String
  globalSettings : Option String
  environment : Environment

inductive CommandError
  | noCommand
  | noRegions
  | badPattern (pattern : String)
  | runFailed (failed total : Nat)
  /-- A file cannot be read or written. -/
  | file (context : String)
  | settings (error : SettingsError)
  | analysis (error : AnalysisError)
  | schedule (error : ScheduleError)
  deriving Repr

def CommandError.message : CommandError → String
  | .noCommand => "no command given, see `cutgraph --help`"
  | .noRegions => "no regions to run"
  | .badPattern pattern => "invalid arguments: --only '" ++ pattern ++ "'"
  | .runFailed failed total => toString failed ++ " of " ++ toString total ++ " region(s) failed"
  | .file context => "I/O error: " ++ context
  | .settings e => e.message
  | .analysis e => e.message
  | .schedule e => e.message

/-- The exit codes of `sysexits.h`. -/
def CommandError.exitCode : CommandError → Nat
  | .noCommand | .noRegions | .badPattern _ => 64
  | .analysis _ | .settings (.malformed _) | .schedule (.build _) => 65
  | .runFailed .. | .schedule (.deadlock ..) => 70
  | .file _ | .settings (.unreadable _) => 74
  | .settings _ => 78

structure CommandOutcome where
  output : String := ""
  /-- Warnings and lines of progress. -/
  errors : String := ""
  error : Option CommandError := none
  files : FileTree

def CommandOutcome.exitCode (o : CommandOutcome) : Nat :=
  (o.error.map CommandError.exitCode).getD 0

def lines (texts : List String) : String := String.join (texts.map (· ++ "\n"))

def padBefore (width : Nat) (text : String) : String :=
  String.ofList (List.replicate (width - text.length) ' ') ++ text

def padAfter (width : Nat) (text : String) : String :=
  text ++ String.ofList (List.replicate (width - text.length) ' ')

namespace Workspace

def absolute (w : Workspace) (path : String) : String := joinPath w.directory path

def text? (w : Workspace) (path : String) : Option String :=
  (w.files.locate? (w.absolute path)).bind w.files.file?

def settingsFile? (w : Workspace) (path : String) : Option SettingsFile := do
  let place ← w.files.locate? (w.absolute path)
  if (w.files.file? place).isSome || w.files.isDirectory place then
    some ⟨path, w.files.file? place⟩
  else none

def localSettings (project : String) : String := joinPath project ".cutgraph.toml"

def settings (w : Workspace) (project : String) : Except CommandError Settings :=
  let paths := w.globalSettings.toList ++ [localSettings project]
  match Settings.load (paths.filterMap w.settingsFile?) w.environment with
  | .ok s => .ok s
  | .error e => .error (.settings e)

def analysis (w : Workspace) (s : Settings) (path directory : String) :
    Except CommandError Analysis :=
  match w.text? path with
  | none => .error (.file ("read analysis " ++ path))
  | some text =>
    match Analysis.ofText path text s.naming (w.absolute directory) with
    | .ok a => .ok a
    | .error e => .error (.analysis e)

def write (w : Workspace) (path text : String) : Except CommandError FileTree :=
  let written : Except FileFault FileTree := match w.files.locate? (w.absolute path) with
    | none => .error .notFound
    | some place => w.files.putFile place text
  match written with
  | .ok files => .ok files
  | .error _ => .error (.file ("write " ++ path))

def printed (w : Workspace) (text : String) : CommandOutcome := { output := text, files := w.files }

def failed (w : Workspace) (e : CommandError) : CommandOutcome := { error := some e, files := w.files }

end Workspace

def planned (s : Settings) (a : Analysis) : Except CommandError (Schedule Outputs × String) :=
  match a.schedule s.scheduling with
  | .error e => .error (.schedule e)
  | .ok schedule =>
    .ok (schedule, lines (schedule.graph.skipped.map fun skipped =>
      "warning: region '" ++ skipped.name ++ "' skipped: " ++ skipped.error.message))

def planLine (a : Action) : String :=
  "  " ++ padBefore 5 ("#" ++ toString a.id) ++ " " ++ padAfter 6 a.kind.text ++ " cost=" ++
    padAfter 8 (numberText a.cost) ++ " " ++ a.label

def planText (schedule : Schedule Outputs) : String :=
  lines ((toString schedule.graph.size ++ " action(s)") :: schedule.orderedActions.map planLine ++
    ["fingerprint: " ++ schedule.fingerprint])

def outcomeLine (o : OutputOutcome) : String :=
  let what := o.writer.getD "-" ++ " [" ++ o.systematic.text ++ "]: "
  match o.error with
  | none => "  ✓ " ++ what ++ toString (o.events.getD 0) ++ " event(s)"
  | some e => "  ✗ " ++ what ++ e.message

def reportText (r : RunReport) : String :=
  lines (r.regions.flatMap fun region => region.name :: region.outcomes.map outcomeLine)

def selectRegions (a : Analysis) : Option String → Except CommandError Analysis
  | none => .ok a
  | some text =>
    match Pattern.read? text with
    | none => .error (.badPattern text)
    | some p => .ok { a with regions := a.regions.filter fun r => p.occursIn r.name }

def execute (w : Workspace) (s : Settings) (a : Analysis) (schedule : Schedule Outputs)
    (warnings : String) : CommandOutcome :=
  let (report, x) := schedule.execute a.table.backend { files := w.files }
  let progress :=
    if s.execution.progressEvery = 0 then ""
    else lines (Progress.ofJournal s.execution.progressEvery x.journal).lines
  let failed := (report.regions.filter fun r => !r.isSuccess).length
  { output := reportText report
    errors := warnings ++ progress
    error := if failed = 0 then none else some (.runFailed failed report.regions.length)
    files := x.output.files }

def withAnalysis (w : Workspace) (project path : String) (directory : Option String)
    (body : Settings → Analysis → Except CommandError CommandOutcome) : CommandOutcome :=
  let outcome := do
    let s ← w.settings project
    let a ← w.analysis s path (directory.getD s.directory)
    body s a
  match outcome with
  | .ok o => o
  | .error e => w.failed e

def Command.perform (w : Workspace) (project : String) : Command → CommandOutcome
  | .tree path => withAnalysis w project path none fun _ a => .ok (w.printed (a.tree.draw ++ "\n"))
  | .plan path => withAnalysis w project path none fun s a => do
    let (schedule, warnings) ← planned s a
    return { w.printed (planText schedule) with errors := warnings }
  | .graph path target => withAnalysis w project path none fun s a => do
    let (schedule, warnings) ← planned s a
    let dot := schedule.graph.toDot
    match target with
    | none => return { w.printed (dot ++ "\n") with errors := warnings }
    | some target =>
      match w.write target dot with
      | .error e => return { w.failed e with errors := warnings }
      | .ok files => return { output := "Wrote: " ++ target ++ "\n", errors := warnings, files }
  | .run path directory only => withAnalysis w project path directory fun s a => do
    let a ← selectRegions a only
    if a.regions.isEmpty then throw .noRegions
    let (schedule, warnings) ← planned s a
    return execute w s a schedule warnings
  | .showSettings =>
    match w.settings project with
    | .ok s => w.printed (s.document.write ++ "\n")
    | .error e => w.failed e
  | .showPaths =>
    w.printed (lines ["global: " ++ w.globalSettings.getD "<no config dir>",
      "local: " ++ Workspace.localSettings project])
  | .showTemplate => w.printed (Settings.template ++ "\n")
  | .complete shell => w.printed shell.script

def Command.analysis? : Command → Option String
  | .tree path | .plan path | .graph path _ | .run path _ _ => some path
  | _ => none

def Invocation.inputs (w : Workspace) (i : Invocation) : List String :=
  let project := i.projectDir.getD w.directory
  w.globalSettings.toList ++ Workspace.localSettings project ::
    (i.command.bind Command.analysis?).toList

def Invocation.run (w : Workspace) (i : Invocation) : CommandOutcome :=
  match i.command with
  | none => w.failed .noCommand
  | some command => command.perform w (i.projectDir.getD w.directory)

end CommandLine
end SelectionPlan
