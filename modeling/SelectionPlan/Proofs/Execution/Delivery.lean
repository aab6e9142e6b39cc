import SelectionPlan.Execution.Run
import SelectionPlan.Proofs.Execution.Realize

/-!
# What a run delivers

The results of the actions determine which calls of writers a run makes and how its outputs fare.
The writers decide only whether they store what they are handed.
-/

namespace SelectionPlan

abbrev Answers := Nat → Except Failure (Option Realized)

def Backend.answers {H : Type} (b : Backend H) (actions : List Action) : Answers :=
  fun id => b.realizeAlong (lineage actions id)

theorem ActionGraph.Built.answers_eq {H : Type} {t : SelectionTree} {p : Planner}
    {accepted : List AcceptedRegion} {d : Draft} {g : ActionGraph}
    (h : ActionGraph.Built t p accepted d g) (b : Backend H) :
    b.answers g.actions = b.answers d.actions := by
  funext id
  rw [Backend.answers, h.lineage_eq]
  exact (Backend.along_map (f := noteConsumers g.regions d.actions) (fun _ => rfl)
    (fun _ _ => rfl) _).2

structure Handover (ω : Type) where
  writer : Writer ω
  context : WriteContext
  result : Materialized

namespace Handover

variable {ω : Type}

def call (h : Handover ω) : WriterCall := ⟨h.writer.name, h.context, h.result⟩

def store (stored : ω) (h : Handover ω) : ω := (h.writer.write h.context h.result stored).2

end Handover

/-- What becomes of an output, whatever its writer says. -/
inductive Delivery (ω : Type)
  /-- The result is handed to the writer. -/
  | call (handover : Handover ω)
  /-- No writer wants the result. -/
  | unclaimed (result : Materialized)
  /-- The cut flow for the result cannot be realized. -/
  | withheld (result : Materialized) (failure : Failure)
  /-- The output cannot be realized. -/
  | failed (failure : Failure)
  /-- An earlier output could not be realized. -/
  | aborted
  /-- The action gives no output. -/
  | void

namespace Delivery

variable {ω : Type}

def handover? : Delivery ω → Option (Handover ω)
  | call h => some h
  | _ => none

def Reported (region : String) (writers : List (Writer ω)) (o : OutputOutcome) :
    Delivery ω → Prop
  | call h => h.writer ∈ writers ∧ o.events = some h.result.entries ∧
      (o.error = none ∨ ∃ stored e, (h.writer.write h.context h.result stored).1 = .error e ∧
        o.error = some (.write e))
  | unclaimed result => o.events = some result.entries ∧ o.error = none
  | withheld result failure => o.events = some result.entries ∧ ∃ w ∈ writers,
      ∃ cause : RealizationError, cause.root = failure ∧
        o.error = some (.write ⟨w.name, region, o.systematic, none, cause.message⟩)
  | failed failure => o.events = none ∧ ∃ cause : RealizationError, cause.root = failure ∧
      o.error = some (.realization cause)
  | aborted => o.events = none ∧ o.error = some (.aborted region)
  | void => o.events = none ∧ o.error = none

end Delivery

def Realized.events : Option Realized → Nat
  | some (.count events) => events
  | _ => 0

def Realized.sums : Option Realized → Option Materialized
  | some (.output result) => some result
  | _ => none

/-- An output of a region under a systematic: the plan, the writer's position and the action. -/
abbrev PlannedOutput := Systematic × SystematicPlan × Nat × ActionId

namespace Schedule

variable {ω : Type}

def cutflow (s : Schedule ω) (answers : Answers) (plan : SystematicPlan) :
    List (Nat × ActionId) → Except Failure (List CutflowStep)
  | [] => .ok []
  | (node, filter) :: rest => do
    let counted ← answers filter
    let weighted ← match lookupKey node plan.statistics with
      | none => .ok none
      | some statistics => (answers statistics).map Realized.sums
    let steps ← s.cutflow answers plan rest
    return Execution.cutflowStep s node (Realized.events counted) weighted :: steps

def delivery (s : Schedule ω) (answers : Answers) (region : RegionPlan)
    (writers : List (Writer ω)) : PlannedOutput → Delivery ω
  | (systematic, plan, index, id) =>
    match answers id with
    | .error failure => .failed failure
    | .ok (some (.output result)) =>
      match writers[index]? with
      | none => .unclaimed result
      | some w =>
        match s.cutflow answers plan plan.filters with
        | .error failure => .withheld result failure
        | .ok cutflow =>
          let label := s.tree.nodes[region.target]?.bind Node.label
          .call ⟨w, ⟨region.name, systematic, label, cutflow⟩, result⟩
    | .ok _ => .void

def deliveries (s : Schedule ω) (answers : Answers) (region : RegionPlan)
    (writers : List (Writer ω)) : List PlannedOutput → List (Delivery ω)
  | [] => []
  | entry :: rest =>
    match s.delivery answers region writers entry with
    | .failed failure => .failed failure :: rest.map fun _ => .aborted
    | delivery => delivery :: s.deliveries answers region writers rest

def regionDeliveries (s : Schedule ω) (answers : Answers) (region : RegionPlan) :
    List (Delivery ω) :=
  s.deliveries answers region (s.writersOf region.name) (Execution.outputsOf region)

def handovers (s : Schedule ω) (answers : Answers) : List (Handover ω) :=
  s.graph.regions.flatMap fun region =>
    (s.regionDeliveries answers region).filterMap Delivery.handover?

theorem deliveries_cons {s : Schedule ω} {answers : Answers} {region : RegionPlan}
    {writers : List (Writer ω)} {entry : PlannedOutput}
    (h : ∀ failure, s.delivery answers region writers entry ≠ .failed failure)
    (rest : List PlannedOutput) : s.deliveries answers region writers (entry :: rest) =
      s.delivery answers region writers entry :: s.deliveries answers region writers rest := by
  rw [deliveries]
  split
  · rename_i failure hfailed
    exact absurd hfailed (h failure)
  · rfl

theorem deliveries_of_calls (s : Schedule ω) {answers : Answers} {region : RegionPlan}
    {writers : List (Writer ω)} {entries : List PlannedOutput} {handovers : List (Handover ω)}
    (h : entries.map (s.delivery answers region writers) = handovers.map .call) :
    (s.deliveries answers region writers entries).filterMap Delivery.handover? = handovers := by
  induction entries generalizing handovers with
  | nil => exact (List.map_eq_nil_iff.mp h.symm).symm
  | cons entry rest ih =>
      obtain ⟨first, later, rfl, hfirst, hlater⟩ := List.map_eq_cons_iff.mp h.symm
      rw [deliveries_cons (by simp [← hfirst]), ← hfirst]
      exact congrArg (first :: ·) (ih hlater.symm)

end Schedule

namespace Execution

variable {H ω : Type} {s : Schedule ω} {b : Backend H} {x : Execution H ω} {region : RegionPlan}
  {writers : List (Writer ω)} {plan : SystematicPlan} {systematic : Systematic}

/-- From `x` to `y` exactly some results are handed to writers, in order. -/
structure Handed (x y : Execution H ω) (handovers : List (Handover ω)) : Prop where
  written : y.written = x.written ++ handovers.map Handover.call
  output : y.output = handovers.foldl Handover.store x.output

theorem Handed.append {x y z : Execution H ω} {first second : List (Handover ω)}
    (h : Handed x y first) (h' : Handed y z second) : Handed x z (first ++ second) := by
  constructor
  · rw [h'.written, h.written, List.map_append, List.append_assoc]
  · rw [h'.output, h.output, List.foldl_append]

theorem Quiet.handed {x y : Execution H ω} (h : Quiet x y) : Handed x y [] :=
  ⟨by rw [h.written, List.map_nil, List.append_nil], h.output⟩

theorem Handed.write (x : Execution H ω) (handover : Handover ω) : Handed x
    { x.record (.wrote handover.call) with output := handover.store x.output } [handover] :=
  ⟨written_record x _, rfl⟩

theorem roots_of_outputsOf {entry : PlannedOutput} (h : entry ∈ outputsOf region) :
    ∃ planned ∈ region.systematics, entry.2.1.roots ++ [entry.2.2.2] ⊆ planned.2.roots := by
  obtain ⟨planned, hplanned, h⟩ := List.mem_flatMap.mp h
  obtain ⟨output, houtput, rfl⟩ := List.mem_map.mp h
  refine ⟨planned, hplanned, List.append_subset.mpr ⟨List.Subset.refl _, ?_⟩⟩
  intro id hid
  rw [List.mem_singleton.mp hid]
  refine List.mem_map_of_mem ?_
  simp [houtput]

section Outputs

variable (h : Wired s.graph.actions)
include h

private theorem realize_cases {id : Nat} (hid : ∃ a, s.graph.actions[id]? = some a)
    (hx : Settled s b x) : ∃ r y, x.realize id = (r, y) ∧
      b.answers s.graph.actions id = rooted r ∧ Settled s b y ∧ Quiet x y := by
  obtain ⟨a, ha⟩ := hid
  obtain ⟨halong, hsettled, hquiet⟩ := realize_realizes h ha hx
  exact ⟨_, _, rfl, halong, hsettled, hquiet⟩

theorem realizeCutflow_spec {filters : List (Nat × ActionId)}
    (hfilters : ∀ e ∈ filters, ∃ a, s.graph.actions[e.2]? = some a)
    (hstatistics : ∀ e ∈ plan.statistics, ∃ a, s.graph.actions[e.2]? = some a)
    (hx : Settled s b x) : ∃ r y, realizeCutflow plan filters x = (r, y) ∧
      s.cutflow (b.answers s.graph.actions) plan filters = r.mapError RealizationError.root ∧
      Settled s b y ∧ Quiet x y := by
  induction filters generalizing x with
  | nil => exact ⟨_, _, rfl, rfl, hx, Quiet.refl x⟩
  | cons entry rest ih =>
      obtain ⟨node, filter⟩ := entry
      rw [List.forall_mem_cons] at hfilters
      obtain ⟨r, y, hr, hanswer, hy, hquiet⟩ := realize_cases h hfilters.1 hx
      simp only [realizeCutflow, hr, Schedule.cutflow, hanswer]
      cases r with
      | error e => exact ⟨_, _, rfl, rfl, hy, hquiet⟩
      | ok counted =>
          simp only [rooted_ok, ok_bind]
          cases hnode : lookupKey node plan.statistics with
          | none =>
              obtain ⟨r', z, hr', hrest, hz, hquiet'⟩ := ih hfilters.2 hy
              simp only [hr', hrest, hy.schedule]
              refine ⟨_, _, rfl, ?_, hz, hquiet.trans hquiet'⟩
              cases r' <;> cases counted <;> rfl
          | some statistics =>
              obtain ⟨w, u, hw, hsum, hu, hquiet'⟩ :=
                realize_cases h (hstatistics _ (mem_of_lookupKey hnode)) hy
              simp only [hw, hsum]
              cases w with
              | error e => exact ⟨_, _, rfl, rfl, hu, hquiet.trans hquiet'⟩
              | ok value =>
                  obtain ⟨r', z, hr', hrest, hz, hquiet''⟩ := ih hfilters.2 hu
                  refine ⟨r'.map (cutflowStep s node (Realized.events (some counted))
                    (Realized.sums (some value)) :: ·), z, ?_, ?_, hz,
                    (hquiet.trans hquiet').trans hquiet''⟩
                  · cases value <;> cases counted <;> simp only [hr', hu.schedule] <;> rfl
                  · simp only [rooted_ok, Except.map, ok_bind, hrest]
                    cases r' <;> rfl

/-- A writer is called if the cut flow can be realized. -/
private theorem handOver_spec (region : RegionPlan) (systematic : Systematic) (w : Writer ω)
    (result : Materialized)
    (hfilters : ∀ e ∈ plan.filters, ∃ a, s.graph.actions[e.2]? = some a)
    (hstatistics : ∀ e ∈ plan.statistics, ∃ a, s.graph.actions[e.2]? = some a)
    (hx : Settled s b x) : ∃ r y, x.handOver region systematic plan w result = (r, y) ∧
      Settled s b y ∧
      match s.cutflow (b.answers s.graph.actions) plan plan.filters with
      | .error failure => Handed x y [] ∧ ∃ cause : RealizationError,
          cause.root = failure ∧ r = .error ⟨w.name, region.name, systematic, none, cause.message⟩
      | .ok steps =>
        let context : WriteContext :=
          ⟨region.name, systematic, s.tree.nodes[region.target]?.bind Node.label, steps⟩
        Handed x y [⟨w, context, result⟩] ∧
          ∃ stored, r = (w.write context result stored).1 := by
  obtain ⟨c, y, hc, hcutflow, hy, hquiet⟩ := realizeCutflow_spec h hfilters hstatistics hx
  simp only [handOver, hc, hcutflow]
  cases c with
  | error cause => exact ⟨_, _, rfl, hy, hquiet.handed, cause, rfl, rfl⟩
  | ok steps =>
      simp only [Except.mapError, hy.schedule]
      exact ⟨_, _, rfl, ⟨hy.schedule, hy.backend, hy.built, hy.slots⟩,
        hquiet.handed.append (Handed.write y ⟨w, _, result⟩), y.output, rfl⟩

private theorem runOutput_spec (region : RegionPlan) (writers : List (Writer ω))
    (systematic : Systematic) (index : Nat) {id : Nat} (hid : ∃ a, s.graph.actions[id]? = some a)
    (hfilters : ∀ e ∈ plan.filters, ∃ a, s.graph.actions[e.2]? = some a)
    (hstatistics : ∀ e ∈ plan.statistics, ∃ a, s.graph.actions[e.2]? = some a)
    (hx : Settled s b x) {d : Delivery ω}
    (hd : s.delivery (b.answers s.graph.actions) region writers (systematic, plan, index, id) = d) :
    ∃ o y, x.runOutput region systematic plan writers[index]? id = (o, y) ∧
      o.systematic = systematic ∧ o.writer = writers[index]?.map (fun w => w.name) ∧
      d.Reported region.name writers o ∧
      (aborts o = true ↔ ∃ failure, d = .failed failure) ∧ Settled s b y ∧
      Handed x y d.handover?.toList := by
  subst hd
  obtain ⟨r, y, hr, hanswer, hy, hquiet⟩ := realize_cases h hid hx
  simp only [runOutput, hr, Schedule.delivery, hanswer]
  have hhanded := hquiet.handed
  cases r with
  | error e => exact ⟨_, _, rfl, rfl, rfl, ⟨rfl, e, rfl, rfl⟩, by simp [aborts], hy, hhanded⟩
  | ok value =>
      cases value with
      | count events => exact ⟨_, _, rfl, rfl, rfl, ⟨rfl, rfl⟩, by simp [aborts], hy, hhanded⟩
      | defined => exact ⟨_, _, rfl, rfl, rfl, ⟨rfl, rfl⟩, by simp [aborts], hy, hhanded⟩
      | output result =>
          simp only [rooted_ok]
          cases hw : writers[index]? with
          | none => exact ⟨_, _, rfl, rfl, rfl, ⟨rfl, rfl⟩, by simp [aborts], hy, hhanded⟩
          | some w =>
              have hmem := List.mem_of_getElem? hw
              obtain ⟨r, z, hr, hz, hcases⟩ :=
                handOver_spec h region systematic w result hfilters hstatistics hy
              simp only [hr]
              cases hcutflow : s.cutflow (b.answers s.graph.actions) plan plan.filters with
              | error failure =>
                  simp only [hcutflow] at hcases
                  obtain ⟨hnone, cause, hcause, rfl⟩ := hcases
                  exact ⟨_, _, rfl, rfl, rfl, ⟨rfl, w, hmem, cause, hcause, rfl⟩,
                    by simp [aborts], hz, hhanded.append hnone⟩
              | ok steps =>
                  simp only [hcutflow] at hcases
                  obtain ⟨hone, stored, hwrite⟩ := hcases
                  have hcalled := hhanded.append hone
                  cases r with
                  | ok =>
                      exact ⟨_, _, rfl, rfl, rfl, ⟨hmem, rfl, .inl rfl⟩, by simp [aborts], hz,
                        hcalled⟩
                  | error e =>
                      exact ⟨_, _, rfl, rfl, rfl, ⟨hmem, rfl, .inr ⟨stored, e, hwrite.symm, rfl⟩⟩,
                        by simp [aborts], hz, hcalled⟩

def Accounts (region : RegionPlan) (writers : List (Writer ω))
    (entry : PlannedOutput × Delivery ω) (o : OutputOutcome) : Prop :=
  o.systematic = entry.1.1 ∧ o.writer = writers[entry.1.2.2.1]?.map (fun w => w.name) ∧
    entry.2.Reported region.name writers o

omit h in
private theorem accounts_aborted (rest : List PlannedOutput) :
    List.Forall₂ (Accounts region writers) (rest.zip (rest.map fun _ => .aborted))
      (rest.map fun (systematic, _, index, _) => ⟨systematic,
        writers[index]?.map fun w => w.name, none, some (.aborted region.name)⟩) := by
  induction rest with
  | nil => exact .nil
  | cons entry rest ih => exact .cons ⟨rfl, rfl, rfl, rfl⟩ ih

theorem runOutputs_spec (region : RegionPlan) (writers : List (Writer ω))
    {entries : List PlannedOutput}
    (hentries : ∀ e ∈ entries, ∀ id ∈ e.2.1.roots ++ [e.2.2.2], ∃ a, s.graph.actions[id]? = some a)
    (hx : Settled s b x) : ∃ outcomes y, runOutputs region writers entries x = (outcomes, y) ∧
      List.Forall₂ (Accounts region writers)
        (entries.zip (s.deliveries (b.answers s.graph.actions) region writers entries)) outcomes ∧
      Settled s b y ∧ Handed x y
        ((s.deliveries (b.answers s.graph.actions) region writers entries).filterMap
          Delivery.handover?) := by
  induction entries generalizing x with
  | nil => exact ⟨_, _, rfl, .nil, hx, (Quiet.refl x).handed⟩
  | cons entry rest ih =>
      obtain ⟨systematic, plan, index, id⟩ := entry
      rw [List.forall_mem_cons] at hentries
      have hroot (e : Nat × ActionId) (he : e ∈ plan.outputs ++ plan.filters ++ plan.statistics) :
          ∃ a, s.graph.actions[e.2]? = some a :=
        hentries.1 e.2 (List.mem_append_left _ (List.mem_map_of_mem he))
      have hfilters (e : Nat × ActionId) (he : e ∈ plan.filters) :
          ∃ a, s.graph.actions[e.2]? = some a := hroot e (by simp [he])
      have hstatistics (e : Nat × ActionId) (he : e ∈ plan.statistics) :
          ∃ a, s.graph.actions[e.2]? = some a := hroot e (by simp [he])
      obtain ⟨o, y, ho, hsystematic, hwriter, hreported, haborts, hy, hhanded⟩ :=
        runOutput_spec h region writers systematic index
          (hentries.1 id (by simp)) hfilters hstatistics hx rfl
      simp only [runOutputs, ho, Schedule.deliveries]
      cases hd : s.delivery (b.answers s.graph.actions) region writers
          (systematic, plan, index, id) with
      | failed failure =>
          rw [hd] at hreported haborts hhanded
          rw [if_pos (haborts.mpr ⟨failure, rfl⟩)]
          refine ⟨_, _, rfl, .cons ⟨hsystematic, hwriter, hreported⟩ ?_, hy, ?_⟩
          · exact accounts_aborted rest
          · have hrest : (rest.map fun _ => (.aborted : Delivery ω)).filterMap
                Delivery.handover? = [] := by
              rw [List.filterMap_map]
              exact List.filterMap_eq_nil_iff.mpr fun _ _ => rfl
            rw [List.filterMap_cons_none rfl, hrest]
            exact hhanded
      | _ =>
          rw [hd] at hreported haborts hhanded
          rw [if_neg (by rw [haborts]; simp)]
          obtain ⟨outcomes, z, hrest, hall, hz, hhanded'⟩ := ih hentries.2 hy
          rw [hrest]
          exact ⟨_, _, rfl, .cons ⟨hsystematic, hwriter, hreported⟩ hall, hz,
            hhanded.append hhanded'⟩

def RegionAccounts (s : Schedule ω) (answers : Answers) (region : RegionPlan)
    (report : RegionReport) : Prop :=
  report.name = region.name ∧ List.Forall₂ (Accounts region (s.writersOf region.name))
    ((outputsOf region).zip (s.regionDeliveries answers region)) report.outcomes

theorem runRegions_spec {regions : List RegionPlan}
    (hregions : ∀ region ∈ regions, region.Within s.graph.actions) (hx : Settled s b x) :
    ∃ reports y, runRegions regions x = (reports, y) ∧
      List.Forall₂ (RegionAccounts s (b.answers s.graph.actions)) regions reports ∧
      Settled s b y ∧ Handed x y (regions.flatMap fun region =>
        (s.regionDeliveries (b.answers s.graph.actions) region).filterMap
          Delivery.handover?) := by
  induction regions generalizing x with
  | nil => exact ⟨_, _, rfl, .nil, hx, (Quiet.refl x).handed⟩
  | cons region regions ih =>
      rw [List.forall_mem_cons] at hregions
      have hentries : ∀ e ∈ outputsOf region, ∀ id ∈ e.2.1.roots ++ [e.2.2.2],
          ∃ a, s.graph.actions[id]? = some a := by
        intro e he id hid
        obtain ⟨planned, hplanned, hmem⟩ := roots_of_outputsOf he
        exact hregions.1 planned hplanned id (hmem hid)
      obtain ⟨outcomes, y, hout, hall, hy, hhanded⟩ := runOutputs_spec h region
        (s.writersOf region.name) hentries hx
      obtain ⟨reports, z, hrest, hreports, hz, hhanded'⟩ := ih hregions.2 hy
      simp only [runRegions, hx.schedule, hout, hrest]
      exact ⟨_, _, rfl, .cons ⟨rfl, hall⟩ hreports, hz, hhanded.append hhanded'⟩

/-- A run hands over exactly what the results of the actions lead to. -/
theorem run_spec (hregions : ∀ region ∈ s.graph.regions, region.Within s.graph.actions)
    (hx : Settled s b x) :
    List.Forall₂ (RegionAccounts s (b.answers s.graph.actions)) s.graph.regions x.run.1.regions ∧
      Settled s b x.run.2 ∧ Handed x x.run.2 (s.handovers (b.answers s.graph.actions)) := by
  obtain ⟨reports, y, hrun, hreports, hy, hhanded⟩ := runRegions_spec h hregions hx
  simp only [run, hx.schedule, hrun]
  exact ⟨hreports, hy, hhanded⟩

end Outputs

end Execution
end SelectionPlan
