import SelectionPlan.Region
import SelectionPlan.Output.FileTree
import SelectionPlan.Toml.Document
/-!
# Writers

File writers put one TOML document per result into `<directory>/<region>/<systematic>/`.  A
recording writer keeps what it is handed.
-/

namespace SelectionPlan

structure Recording where
  writer : String
  context : WriteContext
  result : Materialized
  deriving Repr

structure Outputs where
  files : FileTree := {}
  /-- The recordings, oldest first. -/
  recordings : List Recording := []

namespace Outputs

def yieldSection (m : Materialized) : Toml.Section :=
  { name := "yield"
    isItem := false
    entries := [("entries", .natural m.entries), ("sum_weights", .number m.sumWeights),
      ("sum_weights2", .number m.sumWeights2), ("error", .number m.sumWeights2.sqrt)] }

def rowSection (step : CutflowStep) : Toml.Section :=
  { name := "rows"
    isItem := true
    entries := [("label", .text (step.label.getD step.node)), ("events", .natural step.events),
      ("sum_weights", .number step.sumWeights), ("sum_weights2", .number step.sumWeights2),
      ("error", .number step.sumWeights2.sqrt)] }

def heading (context : WriteContext) (nominal : String) : Toml.Entries :=
  [("region", .text context.region), ("systematic", .text (context.systematic.label nominal))]

def cutflowDocument (context : WriteContext) (nominal : String) (m : Materialized) :
    Toml.Document :=
  ⟨heading context nominal, yieldSection m :: context.cutflow.map rowSection⟩

def objectDocument (context : WriteContext) (nominal : String) (m : Materialized) :
    Toml.Document :=
  ⟨heading context nominal,
    [yieldSection m, ⟨"columns", false, m.columns.map fun (name, values) => (name, .numbers values)⟩]⟩

def filePath (directory : String) (context : WriteContext) (nominal file : String) : String :=
  joinPath (joinPath (joinPath directory context.region) (context.systematic.label nominal)) file

def writeDocument (writer path : String) (context : WriteContext) (document : Toml.Document)
    (o : Outputs) : Except WriteError Unit × Outputs :=
  match o.files.writeFile (resolvePath path) document.write with
  | (.ok (), files) => (.ok (), { o with files })
  | (.error fault, files) =>
    (.error ⟨writer, context.region, context.systematic, some path, fault.message⟩,
      { o with files })

end Outputs

namespace Writer

def cutflow (directory nominal : String) (weight : Option String) : Writer Outputs where
  name := "cutflow"
  weight := weight
  write := fun context m =>
    Outputs.writeDocument "cutflow" (Outputs.filePath directory context nominal "cutflow.toml")
      context (Outputs.cutflowDocument context nominal m)

def object (directory nominal name : String) (columns : List String) (weight : Option String) :
    Writer Outputs where
  name := name
  columns := columns
  weight := weight
  write := fun context m =>
    Outputs.writeDocument name (Outputs.filePath directory context nominal (name ++ ".toml"))
      context (Outputs.objectDocument context nominal m)

def recording (name : String) (columns : List String) (weight fail : Option String) :
    Writer Outputs where
  name := name
  columns := columns
  weight := weight
  write := fun context m o =>
    let o := { o with recordings := o.recordings ++ [⟨name, context, m⟩] }
    match fail with
    | none => (.ok (), o)
    | some reason => (.error ⟨name, context.region, context.systematic, none, reason⟩, o)

end Writer
end SelectionPlan
