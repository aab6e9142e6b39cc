import SelectionPlan.Execution.Run
import SelectionPlan.Proofs.Execution.Construct

/-!
# Executions of schedules that agree

An execution looks at the names and labels of nodes, at the actions but for their costs, at the
plans and at the writers of a region.  Schedules that agree on these go on alike from the same
state, event by event.
-/

namespace SelectionPlan

variable {H ω : Type}

def Action.recost (cost : Action → Float) (a : Action) : Action := { a with cost := cost a }

def Event.recost (cost : Action → Float) : Event H → Event H
  | .constructed a error => .constructed (a.recost cost) error
  | .realized a error => .realized (a.recost cost) error
  | e => e

theorem Event.recost_cost (e : Event H) : e.recost Action.cost = e := by
  cases e <;> rfl

theorem Event.call?_recost (cost : Action → Float) (e : Event H) :
    (e.recost cost).call? = e.call? := by
  cases e <;> rfl

/-- Schedules that show the same to their executions, and the costs of the second one's actions. -/
structure Schedule.Agrees (cost : Action → Float) (s s' : Schedule ω) : Prop where
  name : ∀ node : Nat, s'.tree.nameOf node = s.tree.nameOf node
  label : ∀ node : Nat, s'.tree.nodes[node]?.bind Node.label = s.tree.nodes[node]?.bind Node.label
  actions : s'.graph.actions = s.graph.actions.map (Action.recost cost)
  regions : s'.graph.regions = s.graph.regions
  skipped : s'.graph.skipped = s.graph.skipped
  writers : ∀ region, s'.writersOf region = s.writersOf region

namespace Execution

variable {cost : Action → Float} {past past' : List (Event H)}

/-- Executions in the same state, of schedules that agree.  Their journals have grown alike since
they were `past` and `past'`. -/
def Twins (cost : Action → Float) (past past' : List (Event H)) (x y : Execution H ω) : Prop :=
  ∃ s' since, x.schedule.Agrees cost s' ∧ x.journal = past ++ since ∧
    y = { x with schedule := s', journal := past' ++ since.map (Event.recost cost) }

def Matches {α : Type} (cost : Action → Float) (past past' : List (Event H))
    (r r' : α × Execution H ω) : Prop :=
  ∃ result x y, r = (result, x) ∧ r' = (result, y) ∧ Twins cost past past' x y

theorem Matches.of_eq {α : Type} {result : α} {x y : Execution H ω}
    (h : Twins cost past past' x y) : Matches cost past past' (result, x) (result, y) :=
  ⟨result, x, y, rfl, rfl, h⟩

namespace Twins

variable {x y : Execution H ω} (h : Twins cost past past' x y)
include h

theorem record (e : Event H) :
    Twins cost past past' (x.record e) (y.record (e.recost cost)) := by
  obtain ⟨s', since, hs, hsince, rfl⟩ := h
  refine ⟨s', since ++ [e], hs, ?_, ?_⟩
  · simp [Execution.record, hsince]
  · simp [Execution.record]

theorem keep (id : ActionId) (r : Outcome Realized) :
    Twins cost past past' { x with slots := x.slots.set id (some r) }
      { y with slots := y.slots.set id (some r) } := by
  obtain ⟨s', since, hs, hsince, rfl⟩ := h
  exact ⟨s', since, hs, hsince, rfl⟩

theorem build (id : ActionId) (r : Outcome (Built H)) :
    Twins cost past past' { x with built := x.built.set id (some r) }
      { y with built := y.built.set id (some r) } := by
  obtain ⟨s', since, hs, hsince, rfl⟩ := h
  exact ⟨s', since, hs, hsince, rfl⟩

theorem agrees : x.schedule.Agrees cost y.schedule := by
  obtain ⟨s', since, hs, -, rfl⟩ := h
  exact hs

theorem action?_eq (id : ActionId) : y.schedule.graph.action? id =
    (x.schedule.graph.action? id).map (Action.recost cost) := by
  rw [ActionGraph.action?, h.agrees.actions, List.getElem?_map]
  rfl

theorem slotOf_eq (id : ActionId) : y.slotOf id = x.slotOf id := by
  obtain ⟨s', since, -, -, rfl⟩ := h
  rfl

theorem builtOf_eq (id : ActionId) : y.builtOf id = x.builtOf id := by
  obtain ⟨s', since, -, -, rfl⟩ := h
  rfl

theorem slots_eq : y.slots = x.slots := by
  obtain ⟨s', since, -, -, rfl⟩ := h
  rfl

theorem backend_eq : y.backend = x.backend := by
  obtain ⟨s', since, -, -, rfl⟩ := h
  rfl

theorem output_eq : y.output = x.output := by
  obtain ⟨s', since, -, -, rfl⟩ := h
  rfl

/-! ### Construction -/

theorem buildAction_eq (a : Action) : y.buildAction (a.recost cost) = x.buildAction a := by
  have hdeps (ds : List ActionId) :
      y.checkDependencies (a.recost cost) ds = x.checkDependencies a ds := by
    induction ds with
    | nil => rfl
    | cons d ds ih =>
        simp only [checkDependencies, ih, h.builtOf_eq]
        rfl
  have hinput : y.inputFrame (a.recost cost) = x.inputFrame a := by
    simp only [inputFrame, h.builtOf_eq]
    rfl
  have hfields : (a.recost cost).dependencies = a.dependencies ∧
      (a.recost cost).operation = a.operation ∧ (a.recost cost).id = a.id ∧
      (a.recost cost).path = a.path := ⟨rfl, rfl, rfl, rfl⟩
  simp only [buildAction, hfields, hdeps, hinput, h.backend_eq]
  rfl

theorem constructOne (id : ActionId) :
    Twins cost past past' (x.constructOne id) (y.constructOne id) := by
  simp only [Execution.constructOne, h.action?_eq]
  cases x.schedule.graph.action? id with
  | none => exact h
  | some a =>
      simp only [Option.map_some, h.buildAction_eq]
      exact (h.record (.constructed a _)).build id (x.buildAction a)

theorem constructAll (order : List ActionId) :
    Twins cost past past' (order.foldl Execution.constructOne x)
      (order.foldl Execution.constructOne y) := by
  induction order generalizing x y with
  | nil => exact h
  | cons id order ih => exact ih (h.constructOne id)

/-! ### Realization -/

theorem pullAction (a : Action) :
    Matches cost past past' (x.pullAction a) (y.pullAction (a.recost cost)) := by
  have hbuilt : y.builtOf (a.recost cost).id = x.builtOf a.id := h.builtOf_eq a.id
  simp only [Execution.pullAction, hbuilt, h.backend_eq]
  cases x.builtOf a.id with
  | none => exact .of_eq (h.record _)
  | some outcome =>
      rcases outcome with e | (⟨handle, _ | _⟩ | ⟨handle, request⟩)
      · exact .of_eq h
      · exact .of_eq (h.record _)
      · have hpulled := h.record (.pulled a.id handle none)
        dsimp only
        cases x.backend.pullCount handle with
        | error e => exact .of_eq (hpulled.record (.realized a (some (.ofBackend a e))))
        | ok events => exact .of_eq (hpulled.record (.realized a none))
      · have hpulled := h.record (.pulled a.id handle (some request))
        dsimp only
        cases x.backend.pull handle request with
        | error e => exact .of_eq (hpulled.record (.realized a (some (.ofBackend a e))))
        | ok result => exact .of_eq (hpulled.record (.realized a none))

theorem firstFailure {f : ActionId → Execution H ω → Outcome Realized × Execution H ω}
    (hf : ∀ id x y, Twins cost past past' x y → Matches cost past past' (f id x) (f id y))
    (ids : List ActionId) :
    Matches cost past past' (SelectionPlan.firstFailure f ids x)
      (SelectionPlan.firstFailure f ids y) := by
  induction ids generalizing x y with
  | nil => exact .of_eq h
  | cons id ids ih =>
      obtain ⟨r, x', y', hx, hy, htwins⟩ := hf id x y h
      simp only [SelectionPlan.firstFailure, hx, hy]
      cases r with
      | error e => exact .of_eq htwins
      | ok value => exact ih htwins

theorem realizeWithin (bound : Nat) (id : ActionId) :
    Matches cost past past' (Execution.realizeWithin bound id x)
      (Execution.realizeWithin bound id y) := by
  induction bound generalizing id x y with
  | zero => exact .of_eq h
  | succ bound ih =>
      unfold Execution.realizeWithin
      simp only [h.action?_eq, h.slotOf_eq]
      cases x.schedule.graph.action? id with
      | none => exact .of_eq h
      | some a =>
          cases x.slotOf id with
          | some result => exact .of_eq h
          | none =>
              obtain ⟨cause, x', y', hx, hy, htwins⟩ :=
                h.firstFailure (fun d x y hxy => ih hxy d) a.dependencies
              have hdependencies : (a.recost cost).dependencies = a.dependencies := rfl
              simp only [Option.map_some, hdependencies, hx, hy]
              cases cause with
              | some cause =>
                  exact .of_eq ((htwins.record (.realized a (some (.ofCause a cause)))).keep id _)
              | none =>
                  obtain ⟨r, x'', y'', hx', hy', htwins'⟩ := htwins.pullAction a
                  simp only [hx', hy']
                  exact .of_eq (htwins'.keep id r)

theorem realize (id : ActionId) : Matches cost past past' (x.realize id) (y.realize id) :=
  h.realizeWithin (id + 1) id

/-! ### Runs -/

theorem cutflowStep_eq (node events : Nat) (weighted : Option Materialized) :
    cutflowStep y.schedule node events weighted = cutflowStep x.schedule node events weighted := by
  simp only [cutflowStep, h.agrees.name, h.agrees.label]

theorem realizeCutflow (plan : SystematicPlan) (filters : List (Nat × ActionId)) :
    Matches cost past past' (Execution.realizeCutflow plan filters x)
      (Execution.realizeCutflow plan filters y) := by
  induction filters generalizing x y with
  | nil => exact .of_eq h
  | cons entry rest ih =>
      obtain ⟨node, filter⟩ := entry
      obtain ⟨r, x', y', hx, hy, htwins⟩ := h.realize filter
      simp only [Execution.realizeCutflow, hx, hy]
      cases r with
      | error e => exact .of_eq htwins
      | ok counted =>
          -- What remains once the node has its sums, if it has any.
          have hrest {x y : Execution H ω} (h : Twins cost past past' x y) (events : Nat)
              (weighted : Option Materialized) :
              Matches cost past past'
                ((Execution.realizeCutflow plan rest x).1.map
                    (cutflowStep x.schedule node events weighted :: ·),
                  (Execution.realizeCutflow plan rest x).2)
                ((Execution.realizeCutflow plan rest y).1.map
                    (cutflowStep y.schedule node events weighted :: ·),
                  (Execution.realizeCutflow plan rest y).2) := by
            obtain ⟨steps, x', y', hx, hy, htwins⟩ := ih h
            rw [hx, hy, h.cutflowStep_eq]
            exact .of_eq htwins
          cases lookupKey node plan.statistics with
          | none => exact hrest htwins _ none
          | some statistics =>
              obtain ⟨w, x'', y'', hx', hy', htwins'⟩ := htwins.realize statistics
              simp only [hx', hy']
              rcases w with e | (events | _ | m)
              · exact .of_eq htwins'
              · exact hrest htwins' _ none
              · exact hrest htwins' _ none
              · exact hrest htwins' _ (some m)

theorem handOver (region : RegionPlan) (s : Systematic) (plan : SystematicPlan) (w : Writer ω)
    (result : Materialized) : Matches cost past past' (x.handOver region s plan w result)
      (y.handOver region s plan w result) := by
  obtain ⟨r, x', y', hx, hy, htwins⟩ := h.realizeCutflow plan plan.filters
  simp only [Execution.handOver, hx, hy]
  cases r with
  | error e => exact .of_eq htwins
  | ok cutflow =>
      let context : WriteContext :=
        ⟨region.name, s, x'.schedule.tree.nodes[region.target]?.bind Node.label, cutflow⟩
      obtain ⟨s', since, hs, hsince, hy'⟩ := htwins.record (.wrote ⟨w.name, context, result⟩)
      have houtput : y'.output = x'.output := htwins.output_eq
      simp only [htwins.agrees.label, houtput]
      refine .of_eq ⟨s', since, hs, hsince, ?_⟩
      rw [show y'.record (.wrote ⟨w.name, context, result⟩) = _ from hy']

theorem runOutput (region : RegionPlan) (s : Systematic) (plan : SystematicPlan)
    (w : Option (Writer ω)) (id : ActionId) :
    Matches cost past past' (x.runOutput region s plan w id) (y.runOutput region s plan w id) := by
  obtain ⟨r, x', y', hx, hy, htwins⟩ := h.realize id
  simp only [Execution.runOutput, hx, hy]
  rcases r with e | (events | _ | result)
  · exact .of_eq htwins
  · exact .of_eq htwins
  · exact .of_eq htwins
  · cases w with
    | none => exact .of_eq htwins
    | some w =>
        obtain ⟨written, x'', y'', hx', hy', htwins'⟩ := htwins.handOver region s plan w result
        simp only [hx', hy']
        cases written <;> exact .of_eq htwins'

theorem runOutputs (region : RegionPlan) (writers : List (Writer ω))
    (entries : List (Systematic × SystematicPlan × Nat × ActionId)) :
    Matches cost past past' (Execution.runOutputs region writers entries x)
      (Execution.runOutputs region writers entries y) := by
  induction entries generalizing x y with
  | nil => exact .of_eq h
  | cons entry rest ih =>
      obtain ⟨s, plan, index, id⟩ := entry
      obtain ⟨o, x', y', hx, hy, htwins⟩ := h.runOutput region s plan writers[index]? id
      simp only [Execution.runOutputs, hx, hy]
      split
      · exact .of_eq htwins
      · obtain ⟨outcomes, x'', y'', hx', hy', htwins'⟩ := ih htwins
        simp only [hx', hy']
        exact .of_eq htwins'

theorem runRegions (regions : List RegionPlan) :
    Matches cost past past' (Execution.runRegions regions x) (Execution.runRegions regions y) := by
  induction regions generalizing x y with
  | nil => exact .of_eq h
  | cons region rest ih =>
      have hwriters := h.agrees.writers region.name
      obtain ⟨outcomes, x', y', hx, hy, htwins⟩ :=
        h.runOutputs region (x.schedule.writersOf region.name) (outputsOf region)
      obtain ⟨reports, x'', y'', hx', hy', htwins'⟩ := ih htwins
      simp only [Execution.runRegions, hwriters, hx, hy, hx', hy']
      exact .of_eq htwins'

theorem run : Matches cost past past' x.run y.run := by
  obtain ⟨reports, x', y', hx, hy, htwins⟩ := h.runRegions x.schedule.graph.regions
  simp only [Execution.run, h.agrees.regions, hx, hy, htwins.agrees.skipped]
  exact .of_eq htwins

end Twins
end Execution

variable {cost : Action → Float} {s s' : Schedule ω} {b : Backend H} {output : ω}

/-- Schedules that agree are executed alike once they have constructed alike. -/
theorem Schedule.execute_matches {past past' : List (Event H)}
    (h : Execution.Twins cost past past' (Execution.construct s b output)
      (Execution.construct s' b output)) :
    Execution.Matches cost past past' (s.execute b output) (s'.execute b output) := by
  obtain ⟨report, x, y, hx, hy, htwins⟩ := h.run
  simp only [Schedule.execute, hx, hy]
  exact .of_eq (htwins.record _)

end SelectionPlan
