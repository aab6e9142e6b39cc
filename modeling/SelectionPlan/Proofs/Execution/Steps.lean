import SelectionPlan.Proofs.Execution.Reached
import Mathlib.Logic.Relation

/-!
# Executions go on step by step

However realizations and runs are nested, all they ever do is one of two things: settle an action
whose dependencies are settled and keep its result, or call a writer.
-/

namespace SelectionPlan

variable {H ω : Type}

namespace Execution

/-- How an action whose dependencies are settled comes to its result, and what is noted then. -/
inductive Settles (x : Execution H ω) (a : Action) : Outcome Realized → List (Event H) → Prop
  /-- A dependency has failed. -/
  | blocked {d : ActionId} {cause : RealizationError} : d ∈ a.dependencies →
      x.slotOf d = some (.error cause) →
      Settles x a (.error (.ofCause a cause)) [.realized a (some (.ofCause a cause))]
  /-- The action could not be constructed, which was noted then. -/
  | refused {e : RealizationError} : (∀ d ∈ a.dependencies, ∃ v, x.slotOf d = some (.ok v)) →
      x.builtOf a.id = some (.error e) → Settles x a (.error e) []
  | pulled {built : Built H} {r : Outcome Realized} :
      (∀ d ∈ a.dependencies, ∃ v, x.slotOf d = some (.ok v)) →
      x.builtOf a.id = some (.ok built) →
      (x.backend.pullCall built).mapError (.ofBackend a) = r →
      Settles x a r (built.pulls a.id ++ [.realized a (errorOf? r)])

inductive Step : Execution H ω → Execution H ω → Prop
  | settle {x : Execution H ω} {id : ActionId} {a : Action} {r : Outcome Realized}
      {events : List (Event H)} :
      x.schedule.graph.action? id = some a → x.slotOf id = none → Settles x a r events →
      Step x { x with journal := x.journal ++ events, slots := x.slots.set id (some r) }
  | write {x : Execution H ω} (w : Writer ω) (context : WriteContext) (result : Materialized) :
      Step x { x with
        journal := x.journal ++ [.wrote ⟨w.name, context, result⟩]
        output := (w.write context result x.output).2 }

abbrev Steps (x y : Execution H ω) : Prop := Relation.ReflTransGen Step x y

structure Extends (x y : Execution H ω) : Prop where
  schedule : y.schedule = x.schedule
  backend : y.backend = x.backend
  built : y.built = x.built
  length : y.slots.length = x.slots.length
  kept : ∀ id r, x.slotOf id = some r → y.slotOf id = some r

variable {s : Schedule ω} {b : Backend H} {x y z : Execution H ω} {a : Action}

theorem Step.extends (h : Step x y) : Extends x y := by
  cases h with
  | @settle id a r events hget hslot hsettles =>
      refine ⟨rfl, rfl, rfl, by simp, fun i r' hr' => ?_⟩
      rw [slotOf_set, if_neg]
      · exact hr'
      · rintro ⟨rfl, -⟩
        rw [hslot] at hr'
        cases hr'
  | write => exact ⟨rfl, rfl, rfl, rfl, fun _ _ hr => hr⟩

theorem Extends.refl (x : Execution H ω) : Extends x x :=
  ⟨rfl, rfl, rfl, rfl, fun _ _ hr => hr⟩

theorem Extends.trans (h : Extends x y) (h' : Extends y z) : Extends x z :=
  ⟨h'.schedule.trans h.schedule, h'.backend.trans h.backend, h'.built.trans h.built,
    h'.length.trans h.length, fun id r hr => h'.kept id r (h.kept id r hr)⟩

theorem Extends.builtOf (h : Extends x y) (id : ActionId) : y.builtOf id = x.builtOf id := by
  rw [Execution.builtOf, Execution.builtOf, h.built]

theorem Steps.extends (h : Steps x y) : Extends x y := by
  induction h with
  | refl => exact .refl x
  | tail _ hstep ih => exact ih.trans hstep.extends

/-- What every step keeps in a wired graph, any number of steps keeps. -/
theorem Steps.invariant {I : Execution H ω → Prop} (hsteps : Steps x y)
    (h : Wired x.schedule.graph.actions)
    (hI : ∀ y z, Step y z → Wired y.schedule.graph.actions → I y → I z) (hx : I x) : I y := by
  induction hsteps with
  | refl => exact hx
  | tail hsteps hstep ih =>
      rw [← (Steps.extends hsteps).schedule] at h
      exact hI _ _ hstep h ih

/-! ### Realizations -/

structure Slotted (s : Schedule ω) (b : Backend H) (x : Execution H ω) : Prop extends
    Settled s b x where
  length : x.slots.length = s.graph.size

/-- Realizing an action takes steps, after which its result is kept.  Actions off its lineage are
left alone. -/
structure Keeps (s : Schedule ω) (b : Backend H) (id : ActionId) (x : Execution H ω)
    (result : Outcome Realized × Execution H ω) : Prop where
  slotted : Slotted s b result.2
  steps : Steps x result.2
  kept : result.2.slotOf id = some result.1
  outside : ∀ i, i ∉ lineageIds s.graph.actions id → result.2.slotOf i = x.slotOf i

private theorem pullAction_settles
    (hdeps : ∀ d ∈ a.dependencies, ∃ v, x.slotOf d = some (.ok v))
    (hbuilt : ∃ outcome, x.builtOf a.id = some outcome) :
    ∃ events, Settles x a (x.pullAction a).1 events ∧
      (x.pullAction a).2 = { x with journal := x.journal ++ events } := by
  obtain ⟨outcome, houtcome⟩ := hbuilt
  cases outcome with
  | error e =>
      refine ⟨[], ?_, ?_⟩ <;> simp only [pullAction, houtcome, List.append_nil]
      exact .refused hdeps houtcome
  | ok built =>
      rw [pullAction_of_built houtcome]
      exact ⟨_, .pulled hdeps houtcome rfl, rfl⟩

/-- An execution takes steps that leave alone whatever is off the lineages of some actions. -/
structure StepsWithin (actions : List Action) (ids : List ActionId) (x y : Execution H ω) :
    Prop where
  steps : Steps x y
  outside : ∀ i, (∀ d ∈ ids, i ∉ lineageIds actions d) → y.slotOf i = x.slotOf i

theorem StepsWithin.trans {actions : List Action} {ids : List ActionId}
    (h : StepsWithin actions ids x y) (h' : StepsWithin actions ids y z) :
    StepsWithin actions ids x z :=
  ⟨h.steps.trans h'.steps, fun i hi => (h'.outside i hi).trans (h.outside i hi)⟩

private theorem StepsWithin.settle (h : Wired s.graph.actions) {id : ActionId}
    (ha : s.graph.actions[id]? = some a) (hslot : x.slotOf id = none) (hy : Slotted s b y)
    (hxy : StepsWithin s.graph.actions a.dependencies x y) {r : Outcome Realized}
    {events : List (Event H)} (hr : Settles y a r events) (hz : Settled s b
      { y with journal := y.journal ++ events, slots := y.slots.set id (some r) }) :
    Keeps s b id x
      (r, { y with journal := y.journal ++ events, slots := y.slots.set id (some r) }) := by
  have hget : y.schedule.graph.action? id = some a := by rw [hy.schedule]; exact ha
  have hlt : id < y.slots.length := hy.length ▸ (List.getElem?_eq_some_iff.mp ha).1
  have hfree : y.slotOf id = none :=
    (hxy.outside id fun d hd => h.not_mem_lineageIds_dependency ha hd).trans hslot
  refine ⟨⟨hz, by simp [hy.length]⟩, hxy.steps.tail (.settle hget hfree hr), ?_, ?_⟩
  · rw [slotOf_set, if_pos ⟨rfl, hlt⟩]
  · intro i hi
    rw [slotOf_set, if_neg]
    · exact hxy.outside i fun d hd hmem => hi (h.lineageIds_dependency ha hd hmem)
    · rintro ⟨rfl, -⟩
      exact hi (mem_lineageIds.mpr ⟨a, h.mem_lineage_self ha, h.id_eq i a ha⟩)

theorem realizeWithin_keeps (h : Wired s.graph.actions) {bound id : Nat} (hlt : id < bound)
    (ha : s.graph.actions[id]? = some a) (hx : Slotted s b x) :
    Keeps s b id x (realizeWithin bound id x) := by
  induction bound generalizing id a x with
  | zero => exact absurd hlt (Nat.not_lt_zero id)
  | succ bound ih =>
      have hsettled := (realizeWithin_realizes h hlt ha hx.toSettled).2.1
      have hget : x.schedule.graph.action? id = some a := by rw [hx.schedule]; exact ha
      rw [realizeWithin.eq_1 id x bound a hget] at hsettled ⊢
      cases hslot : x.slotOf id with
      | some r => exact ⟨hx, .refl, hslot, fun _ _ => rfl⟩
      | none =>
          rw [hslot] at hsettled
          have hdeps : ∀ d ∈ a.dependencies, ∀ x, Slotted s b x →
              let result := realizeWithin bound d x
              Slotted s b result.2 ∧ StepsWithin s.graph.actions a.dependencies x result.2 ∧
                result.2.slotOf d = some result.1 := by
            intro d hd x hx
            obtain ⟨c, hc, -, hless, -⟩ := h.dependency_lt ha hd
            obtain ⟨hslotted, hsteps, hkept, houtside⟩ :=
              ih (Nat.lt_of_lt_of_le hless (Nat.le_of_lt_succ hlt)) hc hx
            exact ⟨hslotted, ⟨hsteps, fun i hi => houtside i (hi d hd)⟩, hkept⟩
          obtain ⟨hy, hwithin, hcases⟩ := firstFailure_spec
            (R := StepsWithin s.graph.actions a.dependencies)
            (V := fun d r y => y.slotOf d = some r)
            (fun _ => ⟨.refl, fun _ _ => rfl⟩) (fun _ _ _ => StepsWithin.trans)
            (fun _ _ _ _ hkept hmore => hmore.steps.extends.kept _ _ hkept) hdeps hx
          rcases hfirst : firstFailure (realizeWithin bound) a.dependencies x with ⟨failure, y⟩
          rw [hfirst] at hy hwithin hcases hsettled
          cases failure with
          | some cause =>
              obtain ⟨d, hd, herror⟩ := hcases
              exact hwithin.settle h ha hslot hy (.blocked hd herror) hsettled
          | none =>
              have hbuilt : ∃ outcome, y.builtOf a.id = some outcome := by
                rw [h.id_eq id a ha]
                obtain ⟨r, hr, -⟩ := hy.built id a ha
                exact ⟨r, hr⟩
              obtain ⟨events, hsettles, heq⟩ := pullAction_settles hcases hbuilt
              simp only [heq] at hsettled ⊢
              exact hwithin.settle h ha hslot hy hsettles hsettled

theorem realize_keeps (h : Wired s.graph.actions) {id : Nat}
    (ha : s.graph.actions[id]? = some a) (hx : Slotted s b x) : Keeps s b id x (x.realize id) :=
  realizeWithin_keeps h (Nat.lt_succ_self id) ha hx

structure Goes (s : Schedule ω) (b : Backend H) (x y : Execution H ω) : Prop where
  slotted : Slotted s b y
  steps : Steps x y

theorem Goes.trans (h : Goes s b x y) (h' : Goes s b y z) : Goes s b x z :=
  ⟨h'.slotted, h.steps.trans h'.steps⟩

theorem realize_goes (h : Wired s.graph.actions) (hx : Slotted s b x) (id : ActionId) :
    Goes s b x (x.realize id).2 := by
  cases ha : s.graph.actions[id]? with
  | some a =>
      have hkeeps := realize_keeps h ha hx
      exact ⟨hkeeps.slotted, hkeeps.steps⟩
  | none =>
      rw [realize_of_none (hx.schedule ▸ ha)]
      exact ⟨hx, .refl⟩

/-! ### Runs -/

/-- What an execution is once it has realized some of the actions in `ids` and called writers. -/
inductive Acts (ids : Set ActionId) (x : Execution H ω) : Execution H ω → Prop
  | refl : Acts ids x x
  | realize {y : Execution H ω} {id : ActionId} : id ∈ ids → Acts ids x y →
      Acts ids x (y.realize id).2
  | write {y : Execution H ω} (w : Writer ω) (context : WriteContext) (result : Materialized) :
      Acts ids x y → Acts ids x { y with
        journal := y.journal ++ [.wrote ⟨w.name, context, result⟩]
        output := (w.write context result y.output).2 }

variable {ids : Set ActionId}

theorem Acts.trans (h : Acts ids x y) (h' : Acts ids y z) : Acts ids x z := by
  induction h' with
  | refl => exact h
  | realize hid _ ih => exact .realize hid ih
  | write w context result _ ih => exact .write w context result ih

theorem Acts.goes (h : Wired s.graph.actions) (hx : Slotted s b x) (hy : Acts ids x y) :
    Goes s b x y := by
  induction hy with
  | refl => exact ⟨hx, .refl⟩
  | realize _ _ ih => exact ih.trans (realize_goes h ih.slotted _)
  | write w context result _ ih =>
      obtain ⟨⟨⟨hschedule, hbackend, hbuilt, hslots⟩, hlength⟩, hsteps⟩ := ih
      exact ⟨⟨⟨hschedule, hbackend, hbuilt, hslots⟩, hlength⟩,
        hsteps.tail (.write w context result)⟩

end Execution

def SystematicPlan.cutflowIds (p : SystematicPlan) : List ActionId :=
  (p.filters ++ p.statistics).map Prod.snd

namespace Execution

variable {H ω : Type} {x : Execution H ω} {ids : Set ActionId}

section Plan

variable {plan : SystematicPlan}

theorem realizeCutflow_acts {filters : List (Nat × ActionId)} (hfilters : ∀ e ∈ filters, e.2 ∈ ids)
    (hstatistics : ∀ e ∈ plan.statistics, e.2 ∈ ids) :
    Acts ids x (realizeCutflow plan filters x).2 := by
  induction filters generalizing x with
  | nil => exact .refl
  | cons entry rest ih =>
      obtain ⟨node, filter⟩ := entry
      rw [List.forall_mem_cons] at hfilters
      have hfilter : Acts ids x (x.realize filter).2 := .realize hfilters.1 .refl
      simp only [realizeCutflow]
      rcases hr : x.realize filter with ⟨r, y⟩
      rw [hr] at hfilter
      cases r with
      | error e => exact hfilter
      | ok counted =>
          cases hnode : lookupKey node plan.statistics with
          | none => exact hfilter.trans (ih hfilters.2)
          | some statistics =>
              have hsum : Acts ids y (y.realize statistics).2 :=
                .realize (hstatistics _ (mem_of_lookupKey hnode)) .refl
              rcases hw : y.realize statistics with ⟨w, z⟩
              rw [hw] at hsum
              simp only [hw]
              rcases w with e | (events | _ | m)
              · exact hfilter.trans hsum
              all_goals exact hfilter.trans (hsum.trans (ih hfilters.2))

variable (hplan : ∀ i ∈ plan.cutflowIds, i ∈ ids)
include hplan

theorem handOver_acts (region : RegionPlan) (systematic : Systematic) (w : Writer ω)
    (result : Materialized) : Acts ids x (x.handOver region systematic plan w result).2 := by
  have hcutflow : Acts ids x (realizeCutflow plan plan.filters x).2 := by
    refine realizeCutflow_acts (fun e he => ?_) fun e he => ?_
    · exact hplan _ (List.mem_map_of_mem (List.mem_append_left _ he))
    · exact hplan _ (List.mem_map_of_mem (List.mem_append_right _ he))
  simp only [handOver]
  rcases hr : realizeCutflow plan plan.filters x with ⟨r, y⟩
  rw [hr] at hcutflow
  cases r with
  | error e => exact hcutflow
  | ok cutflow => exact .write w _ result hcutflow

theorem runOutput_acts (region : RegionPlan) (systematic : Systematic) (w : Option (Writer ω))
    {id : ActionId} (hid : id ∈ ids) : Acts ids x (x.runOutput region systematic plan w id).2 := by
  have houtput : Acts ids x (x.realize id).2 := .realize hid .refl
  simp only [runOutput]
  rcases hr : x.realize id with ⟨r, y⟩
  rw [hr] at houtput
  rcases r with e | (events | _ | result)
  · exact houtput
  · exact houtput
  · exact houtput
  · cases w with
    | none => exact houtput
    | some w =>
        have hhanded := handOver_acts (x := y) hplan region systematic w result
        simp only
        rcases hz : y.handOver region systematic plan w result with ⟨written, z⟩
        rw [hz] at hhanded
        cases written <;> exact houtput.trans hhanded

end Plan

theorem runOutputs_acts (region : RegionPlan) (writers : List (Writer ω))
    {entries : List PlannedOutput}
    (h : ∀ e ∈ entries, e.2.2.2 ∈ ids ∧ ∀ i ∈ e.2.1.cutflowIds, i ∈ ids) :
    Acts ids x (runOutputs region writers entries x).2 := by
  induction entries generalizing x with
  | nil => exact .refl
  | cons entry rest ih =>
      obtain ⟨systematic, plan, index, id⟩ := entry
      rw [List.forall_mem_cons] at h
      obtain ⟨⟨hid, hplan⟩, hrest⟩ := h
      have houtput : Acts ids x (x.runOutput region systematic plan writers[index]? id).2 :=
        runOutput_acts hplan region systematic writers[index]? hid
      simp only [runOutputs]
      split
      · exact houtput
      · exact houtput.trans (ih hrest)

theorem runRegions_acts {I : Execution H ω → Prop} (hI : ∀ x y, I x → Acts ids x y → I y)
    {regions : List RegionPlan} (h : ∀ region ∈ regions, ∀ x, I x → ∀ writers,
      Acts ids x (runOutputs region writers (outputsOf region) x).2) (hx : I x) :
    Acts ids x (runRegions regions x).2 := by
  induction regions generalizing x with
  | nil => exact .refl
  | cons region rest ih =>
      rw [List.forall_mem_cons] at h
      have hregion := h.1 x hx (x.schedule.writersOf region.name)
      exact hregion.trans (ih h.2 (hI _ _ hx hregion))

theorem run_acts (x : Execution H ω) : Acts Set.univ x x.run.2 := by
  refine runRegions_acts (I := fun _ => True) (fun _ _ _ _ => trivial)
    (fun region _ x _ writers => ?_) trivial
  exact runOutputs_acts region writers fun e _ => ⟨trivial, fun _ _ => trivial⟩

section Reached

variable {s : Schedule ω} {b : Backend H} {y : Execution H ω} {t : SelectionTree} {namer : Namer}
  {options : BuildOptions} {regions : List (Region ω)}

inductive Continues (x : Execution H ω) : Execution H ω → Prop
  | refl : Continues x x
  | realize {y : Execution H ω} (id : ActionId) : Continues x y → Continues x (y.realize id).2
  | run {y : Execution H ω} : Continues x y → Continues x y.run.2

theorem Continues.goes (h : Wired s.graph.actions) (hx : Slotted s b x) (hy : Continues x y) :
    Goes s b x y := by
  induction hy with
  | refl => exact ⟨hx, .refl⟩
  | realize id _ ih => exact ih.trans (realize_goes h ih.slotted id)
  | run _ ih => exact ih.trans ((run_acts _).goes h ih.slotted)

theorem Reached.exists_construct (hx : Reached s b x) :
    ∃ output, Continues (Execution.construct s b output) x := by
  induction hx with
  | construct output => exact ⟨output, .refl⟩
  | realize id _ ih =>
      obtain ⟨output, hy⟩ := ih
      exact ⟨output, hy.realize id⟩
  | run _ ih =>
      obtain ⟨output, hy⟩ := ih
      exact ⟨output, hy.run⟩

theorem Continues.reached (hx : Reached s b x) (hy : Continues x y) : Reached s b y := by
  induction hy with
  | refl => exact hx
  | realize id _ ih => exact .realize id ih
  | run _ ih => exact .run ih

theorem slotted_construct (ht : t.Reachable)
    (hs : Schedule.build t namer options regions = .ok s) (b : Backend H) (output : ω) :
    Slotted s b (construct s b output) := by
  obtain ⟨hwired, hready, hall⟩ := Schedule.order_of_build ht hs
  have hconstructed := constructed hwired hready b output
  exact ⟨.of_constructed hconstructed hall, by simp [hconstructed.slots]⟩

/-- Every execution of a schedule is one that was constructed and has taken steps. -/
theorem Reached.steps (ht : t.Reachable) (hs : Schedule.build t namer options regions = .ok s)
    (hx : Reached s b x) : ∃ output, Goes s b (Execution.construct s b output) x := by
  obtain ⟨hwired, -⟩ := Schedule.order_of_build ht hs
  obtain ⟨output, hcontinues⟩ := hx.exists_construct
  exact ⟨output, hcontinues.goes hwired (slotted_construct ht hs b output)⟩

end Reached
end Execution
end SelectionPlan
