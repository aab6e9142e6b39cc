import SelectionPlan.Backend.Memory
import SelectionPlan.Backend.Session
/-!
# The engine over a table in memory

Nothing is evaluated until a pull asks for it.  A frame is then evaluated once, on what the frame
before it came to, and the outcome is kept, a failure like any other.
-/

namespace SelectionPlan

structure RowLoop where
  /-- The rows that pass a test. -/
  filter : (Nat → Bool) → List Nat → List Nat
  /-- The values at all rows. -/
  map : (Nat → Float) → List Nat → List Float

def RowLoop.sequential : RowLoop := ⟨List.filter, List.map⟩

namespace FrameData

def filterBy (data : FrameData) (loop : RowLoop) (table : EventTable) (predicate : Definition) :
    Except BackendError FrameData := do
  let inputs ← data.inputs table predicate
  let rows := loop.filter (fun row => truthy (valueAt predicate inputs row)) data.rows
  return { data with rows }

def scatter (column : List Float) (values : List (Nat × Float)) : List Float :=
  values.foldl (fun column (row, value) => column.set row value) column

/-- One more column, computed at the selected rows and undefined at the others. -/
def defineBy (data : FrameData) (loop : RowLoop) (table : EventTable) (name : String)
    (definition : Definition) : Except BackendError FrameData := do
  let inputs ← data.inputs table definition
  let computed := loop.map (valueAt definition inputs) data.rows
  let column := scatter (List.replicate table.rows Binary64.notANumber) (data.rows.zip computed)
  return { data with defined := insertKey name column data.defined }

end FrameData

structure FrameStore where
  /-- How many frames have been built. -/
  built : Nat := 0
  /-- The outcome of every frame that has been evaluated, the newest first. -/
  kept : List (FrameId × Except BackendError FrameData) := []
  /-- How often a frame was evaluated. -/
  evaluations : Nat := 0

namespace FrameStore

def build (store : FrameStore) (frame : FrameId → Frame) : Frame × FrameStore :=
  (frame store.built, { store with built := store.built + 1 })

/-- The outcome that is kept for a frame, or else that of evaluating it, which is then kept. -/
def getOrInit (store : FrameStore) (id : FrameId)
    (evaluate : FrameStore → Except BackendError FrameData × FrameStore) :
    Except BackendError FrameData × FrameStore :=
  match lookupKey id store.kept with
  | some outcome => (outcome, store)
  | none =>
    let (outcome, store) := evaluate { store with evaluations := store.evaluations + 1 }
    (outcome, { store with kept := (id, outcome) :: store.kept })

end FrameStore

def Frame.force (table : EventTable) (loop : RowLoop) :
    Frame → FrameStore → Except BackendError FrameData × FrameStore
  | source id, store => store.getOrInit id fun store => (.ok ⟨List.range table.rows, []⟩, store)
  | filter id parent _ predicate, store =>
    store.getOrInit id fun store =>
      let (data, store) := parent.force table loop store
      (data >>= fun data => data.filterBy loop table predicate, store)
  | define id parent name definition, store =>
    store.getOrInit id fun store =>
      let (data, store) := parent.force table loop store
      (data >>= fun data => data.defineBy loop table name definition, store)

/-- The engine over a table.  Going through rows in parallel is up to `pool`. -/
def EventTable.engine (table : EventTable) (parallel : Bool) (pool : RowLoop) :
    LazyBackend Frame FrameStore :=
  let loop := if parallel then pool else .sequential
  { source := fun store => store.build .source
    applyFilter := fun parent name predicate store =>
      let (frame, store) := store.build fun id => .filter id parent name predicate
      (.ok frame, store)
    defineColumn := fun parent name definition store =>
      if (table.column? name).isSome then
        (.error (.construction name "a dataset column with this name exists"), store)
      else
        let (frame, store) := store.build fun id => .define id parent name definition
        (.ok frame, store)
    pullCount := fun frame store =>
      let (data, store) := frame.force table loop store
      (data.map fun data => data.rows.length, store)
    pull := fun frame request store =>
      let (data, store) := frame.force table loop store
      (data >>= fun data => data.materialize table request, store) }

end SelectionPlan
