import SelectionPlan.Analysis.Entry
import SelectionPlan.Backend.Table
import SelectionPlan.Output.Writers
import SelectionPlan.Schedule.Basic
import SelectionPlan.Settings.Basic
import SelectionPlan.Tree.Edit
/-!
# Analyses

An analysis is a selection tree with the regions asked for and the dataset they are run on.  It is
put together from an analysis file in the order dataset, variables of the root, nodes, regions; the
first entry that cannot be used is the one reported.
-/

namespace SelectionPlan

inductive AnalysisFault
  | raggedDataset (error : BackendError)
  | badDataset (error : BuildError)
  | badVariable (name : String) (error : BuildError)
  | ambiguousVariable (name : String)
  | badNode (name : String) (error : BuildError)
  | unknownParent (name parent : String)
  | badNodeVariable (node name : String) (error : BuildError)
  | badWeight (node : String) (error : BuildError)
  | unknownStrategy (node text : String)
  | unknownNode (region path : String)
  | unknownWriter (region writer : String)
  deriving Repr

def AnalysisFault.message : AnalysisFault → String
  | .raggedDataset e => "dataset: " ++ e.message
  | .badDataset e => "dataset: " ++ e.message
  | .badVariable name e => "variable '" ++ name ++ "': " ++ e.message
  | .ambiguousVariable name =>
    "variable '" ++ name ++ "' needs exactly one of `expression` or `column`"
  | .badNode name e => "node '" ++ name ++ "': " ++ e.message
  | .unknownParent name parent =>
    "node '" ++ name ++ "': unknown parent '" ++ parent ++ "' (parents must come first)"
  | .badNodeVariable node name e =>
    "node '" ++ node ++ "' variable '" ++ name ++ "': " ++ e.message
  | .badWeight node e => "weight of '" ++ node ++ "': " ++ e.message
  | .unknownStrategy node text =>
    "weight of '" ++ node ++ "': " ++ WeightStrategy.unknownMessage text
  | .unknownNode region path => "region '" ++ region ++ "': unknown node '" ++ path ++ "'"
  | .unknownWriter region writer =>
    "region '" ++ region ++ "': unknown writer '" ++ writer ++ "' (cutflow|object)"

def BuildError.within {α : Type} (fault : BuildError → AnalysisFault) :
    Except BuildError α → Except AnalysisFault α
  | .ok a => .ok a
  | .error e => .error (fault e)

def Specification.ofText (text : String) : Except BuildError Specification :=
  match Expression.parse text with
  | .ok e => .ok (.expression e)
  | .error e => .error (.expression e)

def Variable.ofTexts (name text : String) (overrides : List (String × String))
    (cost : Option Float) : Except BuildError Variable := do
  let nominal ← Specification.ofText text
  let base : Variable := { name, nominal, cost }
  overrides.foldlM (fun v (systematic, text) => do
    return v.vary systematic (← Specification.ofText text)) base

def VariableEntry.toVariable (entry : VariableEntry) : Except AnalysisFault Variable :=
  match entry.expression, entry.column with
  | some text, none => BuildError.within (.badVariable entry.name)
      (Variable.ofTexts entry.name text entry.overrides entry.cost)
  | none, some column =>
    let base : Variable := { Variable.ofBranch entry.name column with cost := entry.cost }
    .ok (entry.overrides.foldl (fun v (systematic, column) =>
      v.vary systematic (.branch column)) base)
  | _, _ => .error (.ambiguousVariable entry.name)

/-- Weighs a node by an expression.  The factor becomes a variable that is named for the node. -/
def SelectionTree.weigh (t : SelectionTree) (n : NodeId) (node text : String)
    (strategy : Option String) : Except AnalysisFault SelectionTree := do
  let strategy ← match strategy with
    | none => pure .multiplicative
    | some text => match WeightStrategy.ofText? text with
      | some strategy => pure strategy
      | none => throw (.unknownStrategy node text)
  let factor ← BuildError.within (.badWeight node) (Variable.ofTexts (node ++ "_weight") text [] none)
  match t.setWeight n factor strategy with
  | (.ok (), t) => return t
  | (.error e, _) => throw (.badWeight node e)

def SelectionTree.addEntry (t : SelectionTree) (entry : NodeEntry) :
    Except AnalysisFault SelectionTree := do
  let path := entry.parent.getD rootName
  let parent ← match t.find path with
    | some index => pure (t.handle index)
    | none => throw (.unknownParent entry.name path)
  let filter ← BuildError.within (.badNode entry.name)
    (Variable.ofTexts entry.name entry.filter entry.overrides entry.cost)
  let (n, t) ← BuildError.within (.badNode entry.name)
    (t.addChild parent entry.name filter entry.cutflow)
  let t ← entry.variableEntries.foldlM (fun t v => do
    let defined ← v.toVariable
    BuildError.within (.badNodeVariable entry.name v.name) (t.define n defined)) t
  match entry.weight with
  | none => return t
  | some text => t.weigh n entry.name text entry.weightStrategy

structure Analysis where
  tree : SelectionTree
  regions : List (Region Outputs)
  table : EventTable
  namer : Namer

def RegionEntry.writer (entry : RegionEntry) (directory nominal : String) :
    String → Except AnalysisFault (Writer Outputs)
  | "cutflow" => .ok (.cutflow directory nominal entry.weight)
  | "object" => .ok (.object directory nominal "object" entry.columns entry.weight)
  | other => .error (.unknownWriter entry.name other)

def RegionEntry.region (entry : RegionEntry) (t : SelectionTree) (nominal directory : String) :
    Except AnalysisFault (Region Outputs) := do
  let target ← match t.find entry.node with
    | some index => pure (t.handle index)
    | none => throw (.unknownNode entry.name entry.node)
  let asked := entry.systematics.map fun label => Systematic.ofLabel label nominal
  let region := asked.foldl Region.request (Region.new entry.name target)
  let writers ← entry.writers.mapM (entry.writer directory nominal)
  return writers.foldl Region.addWriter region

namespace Analysis

def ofFile (file : AnalysisFile) (settings : NamingSettings) (directory : String) :
    Except AnalysisFault Analysis := do
  let table ← match EventTable.ofColumns file.columns with
    | .ok table => pure table
    | .error e => throw (.raggedDataset e)
  let namer := settings.namer
  let start := SelectionTree.new 0 none
  let t ← match start.declareColumns namer (table.columns.map Prod.fst) with
    | (.ok (), t) => pure t
    | (.error e, _) => throw (.badDataset e)
  let t := file.systematics.foldl SelectionTree.declareSystematic t
  let t ← file.variableEntries.foldlM (fun t entry => do
    let defined ← entry.toVariable
    BuildError.within (.badVariable entry.name) (t.define t.root defined)) t
  let t ← match file.weight with
    | none => pure t
    | some text => t.weigh t.root rootName text none
  let t ← file.nodes.foldlM SelectionTree.addEntry t
  let regions ← file.regions.mapM fun entry => entry.region t settings.nominalName directory
  return ⟨t, regions, table, namer⟩

def schedule (a : Analysis) (options : BuildOptions) :
    Except ScheduleError (Schedule Outputs) :=
  Schedule.build a.tree a.namer options a.regions

end Analysis

inductive AnalysisError
  /-- The text is not TOML or lacks the shape of an analysis file. -/
  | malformed (path : String)
  | invalid (path : String) (fault : AnalysisFault)
  deriving Repr

def AnalysisError.message : AnalysisError → String
  | .malformed path => "cannot parse " ++ path
  | .invalid path fault => "invalid analysis " ++ path ++ ": " ++ fault.message

def Analysis.ofText (path text : String) (settings : NamingSettings) (directory : String) :
    Except AnalysisError Analysis :=
  match AnalysisFile.ofText? text with
  | none => .error (.malformed path)
  | some file =>
    match Analysis.ofFile file settings directory with
    | .ok a => .ok a
    | .error fault => .error (.invalid path fault)

end SelectionPlan
