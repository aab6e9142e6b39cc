import SelectionPlan.Backend.Session
import SelectionPlan.Execution.Run
/-!
# Executions on an engine that remembers

An engine may keep things from one call to the next.  An execution on such an engine goes through
the same steps as any other, and each of its calls finds the engine as the call before left it.
-/

namespace SelectionPlan

/-- An engine as it would answer the next call. -/
def LazyBackend.now {H σ : Type} (engine : LazyBackend H σ) (state : σ) : Backend H where
  source := fun _ => (engine.source state).1
  applyFilter := fun _ parent name predicate => (engine.applyFilter parent name predicate state).1
  defineColumn := fun _ parent name definition =>
    (engine.defineColumn parent name definition state).1
  pullCount := fun handle => (engine.pullCount handle state).1
  pull := fun handle request => (engine.pull handle request state).1

/-- An execution and the engine it calls, with what the engine remembers. -/
structure Hosted (H σ ω : Type) where
  engine : LazyBackend H σ
  state : σ
  schedule : Schedule ω
  built : List (Option (Outcome (Built H)))
  slots : List (Option (Outcome Realized))
  journal : List (Event H)
  output : ω

namespace Hosted

variable {H σ ω : Type}

def view (x : Hosted H σ ω) : Execution H ω where
  schedule := x.schedule
  backend := x.engine.now x.state
  built := x.built
  slots := x.slots
  journal := x.journal
  output := x.output

def record (x : Hosted H σ ω) (e : Event H) : Hosted H σ ω :=
  { x with journal := x.journal ++ [e] }

def take (x : Hosted H σ ω) (a : Action) (counted : Bool) :
    Except BackendError H × σ → Outcome (Built H) × Hosted H σ ω
  | (.ok handle, state) => (.ok (.frame handle counted), { x with state })
  | (.error e, state) => (.error (.ofBackend a e), { x with state })

def buildAction (x : Hosted H σ ω) (a : Action) : Outcome (Built H) × Hosted H σ ω :=
  let input : Outcome (Option H) := do
    x.view.checkDependencies a a.dependencies
    x.view.inputFrame a
  match input with
  | .error e => (.error e, x)
  | .ok parent =>
    match a.operation, parent with
    | .source, _ =>
      let (handle, state) := x.engine.source x.state
      x.take a true (.ok handle, state)
    | .filter predicate, some parent =>
      x.take a true (x.engine.applyFilter parent a.path predicate x.state)
    | .define _ column _ definition, some parent =>
      x.take a false (x.engine.defineColumn parent column definition x.state)
    | .output _ _ _ request, some parent => (.ok (.output parent request), x)
    | .statistics _ _ _ request, some parent => (.ok (.output parent request), x)
    | _, none => (Execution.constructionFailure a "action has no input frame", x)

def constructOne (x : Hosted H σ ω) (id : ActionId) : Hosted H σ ω :=
  match x.schedule.graph.action? id with
  | none => x
  | some a =>
    let (outcome, x) := x.buildAction a
    let error := match outcome with
      | .ok _ => none
      | .error e => some e
    { x.record (.constructed a error) with built := x.built.set id (some outcome) }

def construct (s : Schedule ω) (engine : LazyBackend H σ) (state : σ) (output : ω) :
    Hosted H σ ω :=
  let size := s.graph.size
  let start : Hosted H σ ω :=
    { schedule := s, engine, state, output
      built := List.replicate size none
      slots := List.replicate size none
      journal := [.started size] }
  s.order.foldl constructOne start

def finish (x : Hosted H σ ω) (a : Action) :
    Except BackendError Realized → Outcome Realized × Hosted H σ ω
  | .ok result => (.ok result, x.record (.realized a none))
  | .error e =>
    let error := RealizationError.ofBackend a e
    (.error error, x.record (.realized a (some error)))

def pullAction (x : Hosted H σ ω) (a : Action) : Outcome Realized × Hosted H σ ω :=
  match x.view.builtOf a.id with
  | some (.ok (.frame handle true)) =>
    let (count, state) := x.engine.pullCount handle x.state
    ({ x with state }.record (.pulled a.id handle none)).finish a (count.map .count)
  | some (.ok (.frame _ false)) => x.finish a (.ok .defined)
  | some (.ok (.output handle request)) =>
    let (result, state) := x.engine.pull handle request x.state
    ({ x with state }.record (.pulled a.id handle (some request))).finish a (result.map .output)
  | some (.error e) => (.error e, x)
  | none => x.finish a (.error (.construction a.label "action was never constructed"))

def realizeWithin (bound : Nat) (id : ActionId) (x : Hosted H σ ω) :
    Outcome Realized × Hosted H σ ω :=
  match bound, x.schedule.graph.action? id with
  | bound + 1, some a =>
    match x.view.slotOf id with
    | some result => (result, x)
    | none =>
      let (result, x) : Outcome Realized × Hosted H σ ω :=
        match firstFailure (realizeWithin bound) a.dependencies x with
        | (some cause, x) =>
          let error := RealizationError.ofCause a cause
          (.error error, x.record (.realized a (some error)))
        | (none, x) => x.pullAction a
      (result, { x with slots := x.slots.set id (some result) })
  | _, _ => (.error (.unknownAction id), x)

def realize (x : Hosted H σ ω) (id : ActionId) : Outcome Realized × Hosted H σ ω :=
  realizeWithin (id + 1) id x

def realizeCutflow (plan : SystematicPlan) :
    List (Nat × ActionId) → Hosted H σ ω → Outcome (List CutflowStep) × Hosted H σ ω
  | [], x => (.ok [], x)
  | (node, filter) :: rest, x =>
    match x.realize filter with
    | (.error e, x) => (.error e, x)
    | (.ok counted, x) =>
      let events := match counted with
        | .count events => events
        | _ => 0
      let (weighted, x) : Outcome (Option Materialized) × Hosted H σ ω :=
        match lookupKey node plan.statistics with
        | none => (.ok none, x)
        | some statistics =>
          match x.realize statistics with
          | (.ok (.output m), x) => (.ok (some m), x)
          | (.ok _, x) => (.ok none, x)
          | (.error e, x) => (.error e, x)
      match weighted with
      | .error e => (.error e, x)
      | .ok weighted =>
        let step := Execution.cutflowStep x.schedule node events weighted
        let (steps, x) := realizeCutflow plan rest x
        (steps.map (step :: ·), x)

def handOver (x : Hosted H σ ω) (region : RegionPlan) (s : Systematic) (plan : SystematicPlan)
    (writer : Writer ω) (result : Materialized) : Except WriteError Unit × Hosted H σ ω :=
  match realizeCutflow plan plan.filters x with
  | (.error e, x) => (.error ⟨writer.name, region.name, s, none, e.message⟩, x)
  | (.ok cutflow, x) =>
    let label := x.schedule.tree.nodes[region.target]?.bind Node.label
    let context : WriteContext := ⟨region.name, s, label, cutflow⟩
    let (written, output) := writer.write context result x.output
    (written, { x.record (.wrote ⟨writer.name, context, result⟩) with output })

def runOutput (x : Hosted H σ ω) (region : RegionPlan) (s : Systematic) (plan : SystematicPlan)
    (writer : Option (Writer ω)) (id : ActionId) : OutputOutcome × Hosted H σ ω :=
  let name := writer.map fun w => w.name
  match x.realize id with
  | (.error e, x) => (⟨s, name, none, some (.realization e)⟩, x)
  | (.ok (.output result), x) =>
    match writer with
    | none => (⟨s, name, some result.entries, none⟩, x)
    | some w =>
      match x.handOver region s plan w result with
      | (.ok (), x) => (⟨s, name, some result.entries, none⟩, x)
      | (.error e, x) => (⟨s, name, some result.entries, some (.write e)⟩, x)
  | (.ok _, x) => (⟨s, name, none, none⟩, x)

def runOutputs (region : RegionPlan) (writers : List (Writer ω)) :
    List (Systematic × SystematicPlan × Nat × ActionId) → Hosted H σ ω →
    List OutputOutcome × Hosted H σ ω
  | [], x => ([], x)
  | (s, plan, index, id) :: rest, x =>
    let (outcome, x) := x.runOutput region s plan writers[index]? id
    if Execution.aborts outcome then
      let aborted := rest.map fun (s, _, index, _) =>
        ⟨s, writers[index]?.map fun w => w.name, none, some (.aborted region.name)⟩
      (outcome :: aborted, x)
    else
      let (outcomes, x) := runOutputs region writers rest x
      (outcome :: outcomes, x)

def runRegions : List RegionPlan → Hosted H σ ω → List RegionReport × Hosted H σ ω
  | [], x => ([], x)
  | region :: rest, x =>
    let writers := x.schedule.writersOf region.name
    let (outcomes, x) := runOutputs region writers (Execution.outputsOf region) x
    let (reports, x) := runRegions rest x
    (⟨region.name, outcomes⟩ :: reports, x)

def run (x : Hosted H σ ω) : RunReport × Hosted H σ ω :=
  let (regions, x) := runRegions x.schedule.graph.regions x
  (⟨regions, x.schedule.graph.skipped⟩, x)

end Hosted

def Schedule.executeOn {H σ ω : Type} (s : Schedule ω) (engine : LazyBackend H σ) (state : σ)
    (output : ω) : RunReport × Hosted H σ ω :=
  let (report, x) := (Hosted.construct s engine state output).run
  (report, x.record (.finished report.regions.length report.failures.length))

end SelectionPlan
