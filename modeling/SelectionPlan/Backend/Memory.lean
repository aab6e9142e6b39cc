import SelectionPlan.Backend.Table
/-!
# Frames over a table in memory

A frame is its history back to the table.  Evaluating it gives the rows that pass its filters and
whole columns for its definitions, undefined outside the rows that were left when the column was
added.
-/

namespace SelectionPlan

inductive Frame
  | source (id : FrameId)
  | filter (id : FrameId) (parent : Frame) (name : String) (predicate : Definition)
  | define (id : FrameId) (parent : Frame) (column : String) (definition : Definition)

namespace Frame

def id : Frame → FrameId
  | source id | filter id .. | define id .. => id

/-- Marks a frame and the frames before it as evaluated.  An evaluated frame is not evaluated
again, and the frames before it have been evaluated with it. -/
def evaluateOnce (evaluated : List FrameId) : Frame → List FrameId
  | source id => if id ∈ evaluated then evaluated else id :: evaluated
  | filter id parent _ _ | define id parent _ _ =>
    if id ∈ evaluated then evaluated else evaluateOnce (id :: evaluated) parent

end Frame

structure FrameData where
  /-- The selected rows of the table, ascending. -/
  rows : List Nat
  /-- The defined columns over all rows of the table, by ascending name. -/
  defined : List (String × List Float)
  deriving Repr

def weightSums (weights : List Float) : Float × Float :=
  weights.foldl (fun (sum, squares) w => (sum + w, squares + w * w)) (0, 0)

namespace FrameData

/-- A column of a frame.  A defined column hides a column of the table. -/
def column (data : FrameData) (table : EventTable) (name : String) :
    Except BackendError (List Float) :=
  match (lookupKey name data.defined).or (table.column? name) with
  | some values => .ok values
  | none => .error (.missingColumn name)

def valueAt (definition : Definition) (inputs : List (List Float)) (row : Nat) : Float :=
  definition.eval (inputs.map fun column => column.getD row Binary64.notANumber)

def inputs (data : FrameData) (table : EventTable) (definition : Definition) :
    Except BackendError (List (List Float)) :=
  definition.inputs.mapM (data.column table)

def filter (data : FrameData) (table : EventTable) (predicate : Definition) :
    Except BackendError FrameData := do
  let inputs ← data.inputs table predicate
  return { data with rows := data.rows.filter fun row => truthy (valueAt predicate inputs row) }

def define (data : FrameData) (table : EventTable) (name : String) (definition : Definition) :
    Except BackendError FrameData := do
  let inputs ← data.inputs table definition
  let values := (List.range table.rows).map fun row =>
    if row ∈ data.rows then valueAt definition inputs row else Binary64.notANumber
  return { data with defined := insertKey name values data.defined }

def selected (data : FrameData) (values : List Float) : List Float :=
  data.rows.map fun row => values.getD row Binary64.notANumber

def materialize (data : FrameData) (table : EventTable) (request : Request) :
    Except BackendError Materialized := do
  let columns ← request.columns.foldlM (fun columns (logical, physical) => do
    let values ← data.column table physical
    return insertKey logical (data.selected values) columns) []
  let sums ← match request.weight with
    | some weight => do
      let values ← data.column table weight
      pure (weightSums (data.selected values))
    | none => pure (data.rows.length.toFloat, data.rows.length.toFloat)
  return ⟨data.rows.length, sums.1, sums.2, columns⟩

end FrameData

namespace Frame

def evaluate (table : EventTable) : Frame → Except BackendError FrameData
  | source _ => .ok ⟨List.range table.rows, []⟩
  | filter _ parent _ predicate => do
    let data ← parent.evaluate table
    data.filter table predicate
  | define _ parent name definition => do
    let data ← parent.evaluate table
    data.define table name definition

def count (table : EventTable) (frame : Frame) : Except BackendError Nat := do
  let data ← frame.evaluate table
  return data.rows.length

def materialize (table : EventTable) (frame : Frame) (request : Request) :
    Except BackendError Materialized := do
  let data ← frame.evaluate table
  data.materialize table request

end Frame

/-- The engine over a table in memory.  A column of the table cannot be defined again. -/
def EventTable.backend (table : EventTable) : Backend Frame where
  source := .source
  applyFilter := fun id parent name predicate => .ok (.filter id parent name predicate)
  defineColumn := fun id parent name definition =>
    if (table.column? name).isSome then
      .error (.construction name "a dataset column with this name exists")
    else .ok (.define id parent name definition)
  pullCount := Frame.count table
  pull := Frame.materialize table

end SelectionPlan
