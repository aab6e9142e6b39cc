import SelectionPlan.Execution.Basic
/-!
# Running regions

A run realizes the outputs of every region and hands them to their writers.  A region stops at the
first output that cannot be realized; other regions go on.
-/

namespace SelectionPlan

structure OutputOutcome where
  systematic : Systematic
  writer : Option String
  /-- The events that reached the output, if it was realized. -/
  events : Option Nat
  error : Option RunError
  deriving DecidableEq, Repr

structure RegionReport where
  name : String
  outcomes : List OutputOutcome
  deriving DecidableEq, Repr

namespace RegionReport

def failures (r : RegionReport) : List OutputOutcome := r.outcomes.filter fun o => o.error.isSome

def isSuccess (r : RegionReport) : Bool := r.failures.isEmpty

end RegionReport

structure RunReport where
  /-- The regions that were planned, by ascending name. -/
  regions : List RegionReport
  skipped : List SkippedRegion

namespace RunReport

def isSuccess (r : RunReport) : Bool := r.regions.all RegionReport.isSuccess

def failures (r : RunReport) : List (String × OutputOutcome) :=
  r.regions.flatMap fun region => region.failures.map fun o => (region.name, o)

end RunReport

namespace Execution

variable {H ω : Type}

/-- A row of a cut flow.  An event without a weight counts once. -/
def cutflowStep (s : Schedule ω) (node : Nat) (events : Nat) (weighted : Option Materialized) :
    CutflowStep :=
  { node := s.tree.nameOf node
    label := s.tree.nodes[node]?.bind Node.label
    events
    sumWeights := (weighted.map Materialized.sumWeights).getD events.toFloat
    sumWeights2 := (weighted.map Materialized.sumWeights2).getD events.toFloat }

def realizeCutflow (plan : SystematicPlan) :
    List (Nat × ActionId) → Execution H ω → Outcome (List CutflowStep) × Execution H ω
  | [], x => (.ok [], x)
  | (node, filter) :: rest, x =>
    match x.realize filter with
    | (.error e, x) => (.error e, x)
    | (.ok counted, x) =>
      let events := match counted with
        | .count events => events
        | _ => 0
      let (weighted, x) : Outcome (Option Materialized) × Execution H ω :=
        match lookupKey node plan.statistics with
        | none => (.ok none, x)
        | some statistics =>
          match x.realize statistics with
          | (.ok (.output m), x) => (.ok (some m), x)
          | (.ok _, x) => (.ok none, x)
          | (.error e, x) => (.error e, x)
      match weighted with
      | .error e => (.error e, x)
      | .ok weighted =>
        let step := cutflowStep x.schedule node events weighted
        let (steps, x) := realizeCutflow plan rest x
        (steps.map (step :: ·), x)

def handOver (x : Execution H ω) (region : RegionPlan) (s : Systematic) (plan : SystematicPlan)
    (writer : Writer ω) (result : Materialized) : Except WriteError Unit × Execution H ω :=
  match realizeCutflow plan plan.filters x with
  | (.error e, x) => (.error ⟨writer.name, region.name, s, none, e.message⟩, x)
  | (.ok cutflow, x) =>
    let label := x.schedule.tree.nodes[region.target]?.bind Node.label
    let context : WriteContext := ⟨region.name, s, label, cutflow⟩
    let (written, output) := writer.write context result x.output
    (written, { x.record (.wrote ⟨writer.name, context, result⟩) with output })

def runOutput (x : Execution H ω) (region : RegionPlan) (s : Systematic) (plan : SystematicPlan)
    (writer : Option (Writer ω)) (id : ActionId) : OutputOutcome × Execution H ω :=
  let name := writer.map fun w => w.name
  match x.realize id with
  | (.error e, x) => (⟨s, name, none, some (.realization e)⟩, x)
  | (.ok (.output result), x) =>
    match writer with
    | none => (⟨s, name, some result.entries, none⟩, x)
    | some w =>
      match x.handOver region s plan w result with
      | (.ok (), x) => (⟨s, name, some result.entries, none⟩, x)
      | (.error e, x) => (⟨s, name, some result.entries, some (.write e)⟩, x)
  | (.ok _, x) => (⟨s, name, none, none⟩, x)

def outputsOf (region : RegionPlan) : List (Systematic × SystematicPlan × Nat × ActionId) :=
  region.systematics.flatMap fun (s, plan) =>
    plan.outputs.map fun (writer, id) => (s, plan, writer, id)

def aborts (o : OutputOutcome) : Bool :=
  match o.error with
  | some (.realization _) => true
  | _ => false

/-- Runs outputs of a region up to the first that cannot be realized; the others are aborted. -/
def runOutputs (region : RegionPlan) (writers : List (Writer ω)) :
    List (Systematic × SystematicPlan × Nat × ActionId) → Execution H ω →
    List OutputOutcome × Execution H ω
  | [], x => ([], x)
  | (s, plan, index, id) :: rest, x =>
    let (outcome, x) := x.runOutput region s plan writers[index]? id
    if aborts outcome then
      let aborted := rest.map fun (s, _, index, _) =>
        ⟨s, writers[index]?.map fun w => w.name, none, some (.aborted region.name)⟩
      (outcome :: aborted, x)
    else
      let (outcomes, x) := runOutputs region writers rest x
      (outcome :: outcomes, x)

def runRegions : List RegionPlan → Execution H ω → List RegionReport × Execution H ω
  | [], x => ([], x)
  | region :: rest, x =>
    let writers := x.schedule.writersOf region.name
    let (outcomes, x) := runOutputs region writers (outputsOf region) x
    let (reports, x) := runRegions rest x
    (⟨region.name, outcomes⟩ :: reports, x)

def run (x : Execution H ω) : RunReport × Execution H ω :=
  let (regions, x) := runRegions x.schedule.graph.regions x
  (⟨regions, x.schedule.graph.skipped⟩, x)

end Execution

def Schedule.execute {H ω : Type} (s : Schedule ω) (backend : Backend H) (output : ω) :
    RunReport × Execution H ω :=
  let (report, x) := (Execution.construct s backend output).run
  (report, x.record (.finished report.regions.length report.failures.length))

end SelectionPlan
