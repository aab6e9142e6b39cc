import SelectionPlan.Backend.Fault
import SelectionPlan.Backend.Memory
import SelectionPlan.Proofs.Execution.Reached

/-!
# Failures stay where they belong

An action has no result only if it or an action it needs fails by itself, and the error names the
first of those.  Regions that need no such action are run to the end.
-/

namespace SelectionPlan

variable {H ω : Type}

/-- The action `i` fails by itself: its own construction or its own pull is refused. -/
def Backend.FailsAt (b : Backend H) (actions : List Action) (i : Nat) : Prop :=
  b.ownError? (lineage actions i) ≠ none

instance (b : Backend H) (actions : List Action) (i : Nat) : Decidable (b.FailsAt actions i) :=
  inferInstanceAs (Decidable (b.ownError? (lineage actions i) ≠ none))

section Graph

variable {b : Backend H} {actions : List Action} {id : Nat} {a : Action}
  (h : Chained actions) (ha : actions[id]? = some a)
include h ha

theorem Chained.exists_answer_iff : (∃ r, b.answers actions id = .ok r) ↔
    ∀ i ∈ closure actions id, ¬ b.FailsAt actions i := by
  have hnone : (∃ r, b.answers actions id = .ok r) ↔ b.culprit? (lineage actions id) = none := by
    constructor
    · rintro ⟨r, hr⟩
      refine Option.eq_none_iff_forall_ne_some.mpr fun f hf => ?_
      rw [Backend.answers, Backend.realizeAlong_eq_error.mpr hf] at hr
      cases hr
    · exact Backend.exists_realizeAlong
  rw [hnone, Backend.culprit?_eq_none h.toLinked ha, h.closure_eq ha]
  simp only [mem_lineageIds, forall_exists_index, and_imp, forall_apply_eq_imp_iff₂,
    Backend.FailsAt, not_not]

/-- The error of an action is that of the first action which fails by itself. -/
theorem Chained.answer_error {f : Failure} (hf : b.answers actions id = .error f) :
    ∃ c ∈ lineage actions id, b.ownError? (lineage actions c.id) = some f.source ∧
      f.context = c.context ∧ ∀ i ∈ closure actions id, b.FailsAt actions i → c.id ≤ i := by
  obtain ⟨c, hc, herror, hcontext, hleast⟩ :=
    Backend.culprit?_eq_some h.toLinked ha (Backend.realizeAlong_eq_error.mp hf)
  refine ⟨c, hc, herror, hcontext, fun i hi hfails => ?_⟩
  rw [h.closure_eq ha] at hi
  obtain ⟨c', hc', rfl⟩ := mem_lineageIds.mp hi
  exact hleast c' hc' hfails

end Graph

section Deliveries

variable (s : Schedule ω) {answers : Answers}

private theorem exists_cutflow {plan : SystematicPlan} {filters : List (Nat × ActionId)}
    (hfilters : ∀ e ∈ filters, ∃ r, answers e.2 = .ok r)
    (hstatistics : ∀ e ∈ plan.statistics, ∃ r, answers e.2 = .ok r) :
    ∃ steps, s.cutflow answers plan filters = .ok steps := by
  induction filters with
  | nil => exact ⟨[], rfl⟩
  | cons entry rest ih =>
      obtain ⟨node, filter⟩ := entry
      rw [List.forall_mem_cons] at hfilters
      obtain ⟨counted, hcounted⟩ := hfilters.1
      obtain ⟨steps, hsteps⟩ := ih hfilters.2
      simp only [Schedule.cutflow, hcounted, ok_bind, hsteps]
      cases hnode : lookupKey node plan.statistics with
      | none => exact ⟨_, rfl⟩
      | some statistics =>
          obtain ⟨summed, hsummed⟩ := hstatistics _ (mem_of_lookupKey hnode)
          simp only [hsummed]
          exact ⟨_, rfl⟩

theorem Schedule.delivery_of_answers (region : RegionPlan) (writers : List (Writer ω))
    {entries : List PlannedOutput} (h : ∀ e ∈ entries,
      ∀ id ∈ e.2.1.roots ++ [e.2.2.2], ∃ r, answers id = .ok r) :
    ∀ d ∈ s.deliveries answers region writers entries,
      (∃ handover, d = .call handover) ∨ (∃ result, d = .unclaimed result) ∨ d = .void := by
  induction entries with
  | nil => simp [deliveries]
  | cons entry rest ih =>
      obtain ⟨systematic, plan, index, id⟩ := entry
      rw [List.forall_mem_cons] at h
      have hroot (e : Nat × ActionId) (he : e ∈ plan.outputs ++ plan.filters ++ plan.statistics) :
          ∃ r, answers e.2 = .ok r :=
        h.1 e.2 (List.mem_append_left _ (List.mem_map_of_mem he))
      have hone :
          (∃ handover,
            s.delivery answers region writers (systematic, plan, index, id) = .call handover) ∨
          (∃ result,
            s.delivery answers region writers (systematic, plan, index, id) = .unclaimed result) ∨
          s.delivery answers region writers (systematic, plan, index, id) = .void := by
        obtain ⟨r, hr⟩ := h.1 id (by simp)
        have hfilters (e : Nat × ActionId) (he : e ∈ plan.filters) : ∃ r, answers e.2 = .ok r :=
          hroot e (by simp [he])
        have hstatistics (e : Nat × ActionId) (he : e ∈ plan.statistics) :
            ∃ r, answers e.2 = .ok r := hroot e (by simp [he])
        obtain ⟨steps, hsteps⟩ := exists_cutflow s hfilters hstatistics
        simp only [delivery, hr]
        rcases r with _ | (events | _ | result)
        · exact .inr (.inr rfl)
        · exact .inr (.inr rfl)
        · exact .inr (.inr rfl)
        · simp only
          cases writers[index]? with
          | none => exact .inr (.inl ⟨result, rfl⟩)
          | some w =>
              simp only [hsteps]
              exact .inl ⟨_, rfl⟩
      have hdone : ∀ failure,
          s.delivery answers region writers (systematic, plan, index, id) ≠ .failed failure := by
        rcases hone with ⟨handover, hd⟩ | ⟨result, hd⟩ | hd <;> simp [hd]
      rw [deliveries_cons hdone, List.forall_mem_cons]
      exact ⟨hone, ih h.2⟩

end Deliveries

namespace Execution

variable {t : SelectionTree} {namer : Namer} {options : BuildOptions} {regions : List (Region ω)}
  {g : ActionGraph} {s : Schedule ω} {b : Backend H} {x : Execution H ω}

/-- The report of a region that needs no failing action tells of refusals of its writers only. -/
theorem RegionAccounts.error_cases {answers : Answers} {region : RegionPlan} {report : RegionReport}
    (h : RegionAccounts s answers region report) (hanswers : ∀ e ∈ region.systematics,
      ∀ id ∈ e.2.roots, ∃ r, answers id = .ok r) :
    ∀ o ∈ report.outcomes, o.error = none ∨ ∃ w ∈ s.writersOf region.name,
      ∃ context result stored e, (w.write context result stored).1 = .error e ∧
        o.error = some (.write e) := by
  intro o ho
  obtain ⟨entry, hentry, -, -, hreported⟩ := exists_aligned h.2.flip ho
  have hentries : ∀ e ∈ outputsOf region, ∀ id ∈ e.2.1.roots ++ [e.2.2.2],
      ∃ r, answers id = .ok r := by
    intro e he id hid
    obtain ⟨planned, hplanned, hmem⟩ := roots_of_outputsOf he
    exact hanswers planned hplanned id (hmem hid)
  have hdelivery := s.delivery_of_answers region (s.writersOf region.name) hentries entry.2
    (List.of_mem_zip hentry).2
  rcases hdelivery with ⟨handover, hd⟩ | ⟨result, hd⟩ | hd
  · rw [hd] at hreported
    obtain ⟨hw, -, hnone | ⟨stored, e, hwrite, herror⟩⟩ := hreported
    · exact .inl hnone
    · exact .inr ⟨_, hw, handover.context, handover.result, stored, e, hwrite, herror⟩
  · rw [hd] at hreported
    exact .inl hreported.2
  · rw [hd] at hreported
    exact .inl hreported.2

/-- In every execution an action has an error exactly if some action it needs fails by itself, the
error's root is that of the first such action on the way to it, and regions that are not among the
consumers of failing actions see no errors but those of their own writers. -/
theorem failures_isolated (ht : t.Reachable)
    (hg : ActionGraph.build t namer options regions = .ok g) :
    ∃ s : Schedule ω, Schedule.build t namer options regions = .ok s ∧ s.graph = g ∧
      ∀ (b : Backend H) (x : Execution H ω), Reached s b x →
        (∀ id < g.size,
          ((∃ e, (x.realize id).1 = .error e) ↔
            ∃ i ∈ closure g.actions id, b.FailsAt g.actions i) ∧
          ∀ e, (x.realize id).1 = .error e → ∃ c ∈ lineage g.actions id,
            (∀ i ∈ closure g.actions id, b.FailsAt g.actions i → c.id ≤ i) ∧
            ∃ refusal, b.ownError? (lineage g.actions c.id) = some refusal ∧
              e.root = ⟨c.context, refusal⟩) ∧
        ∀ report ∈ x.run.1.regions,
          (∀ a ∈ g.actions, b.FailsAt g.actions a.id → report.name ∉ a.consumers) →
          ∀ o ∈ report.outcomes, o.error = none ∨ ∃ w ∈ s.writersOf report.name,
            ∃ context result stored e, (w.write context result stored).1 = .error e ∧
              o.error = some (.write e) := by
  obtain ⟨s, hs, rfl⟩ := Schedule.exists_build ht hg
  obtain ⟨p, accepted, d, -, -, -, -, -, hbuilt⟩ := ActionGraph.built_of_build ht hg
  have hwired := hbuilt.wired
  refine ⟨s, hs, rfl, fun b x hx => ⟨fun id hid => ?_, fun report hreport hfree => ?_⟩⟩
  · have ha := List.getElem?_eq_getElem hid
    obtain ⟨halong, -⟩ := realize_realizes hwired ha (hx.settled ht hs)
    have hanswer : b.answers s.graph.actions id = rooted (x.realize id).1 := halong
    have hok := hwired.exists_answer_iff (b := b) ha
    constructor
    · rw [← not_iff_not]
      simp only [not_exists, not_and]
      rw [← hok, hanswer]
      cases (x.realize id).1 <;> simp
    · intro e he
      rw [he, rooted_error] at hanswer
      obtain ⟨c, hc, herror, hcontext, hleast⟩ := hwired.answer_error ha hanswer
      exact ⟨c, hc, hleast, e.root.source, herror, by rw [← hcontext]⟩
  · obtain ⟨hreports, -⟩ := run_spec hwired hbuilt.within (hx.settled ht hs)
    obtain ⟨region, hregion, haccounts⟩ := exists_aligned hreports.flip hreport
    have hname : report.name = region.name := haccounts.1
    rw [hname]
    refine RegionAccounts.error_cases haccounts fun entry hentry id hid => ?_
    obtain ⟨a, ha⟩ := hbuilt.within region hregion entry hentry id hid
    refine (hwired.exists_answer_iff ha).mpr fun i hi hfails => ?_
    rw [hwired.closure_eq ha] at hi
    have hi' := hi
    obtain ⟨c, hc, rfl⟩ := mem_lineageIds.mp hi'
    have hmem := List.mem_of_getElem? (hwired.lineage_suffix ha hc).1
    exact hfree c hmem hfails (hname ▸ hbuilt.mem_consumers hregion hentry hid hmem hi)

def broken : Backend (Named Frame) :=
  Sample.table.backend.withFaults [⟨.define, "score__up", "out of memory"⟩]

/-- Without the score for `up` there is no signal under `up`, and the other region does not mind. -/
theorem failures_isolated_sample : ∃ s : Schedule Nat,
    Schedule.build Sample.tree Sample.namer {} Sample.regions = .ok s ∧
      ∀ x, Reached s broken x → (∃ e, (x.realize 11).1 = .error e) ∧
        ∀ report ∈ x.run.1.regions, report.name = "control" → ∀ o ∈ report.outcomes,
          o.error = none ∨ ∃ w ∈ s.writersOf "control", ∃ context result stored e,
            (w.write context result stored).1 = .error e ∧ o.error = some (.write e) := by
  obtain ⟨g, hg⟩ := Sample.exists_build
  have hfails : ∀ g ∈ (ActionGraph.build Sample.tree Sample.namer {} Sample.regions).toOption,
      11 < g.size ∧ (∃ i ∈ closure g.actions 11, broken.FailsAt g.actions i) ∧
        ∀ a ∈ g.actions, broken.FailsAt g.actions a.id → "control" ∉ a.consumers := by decide
  obtain ⟨hid, hblocked, hfree⟩ := hfails g (by rw [hg]; rfl)
  obtain ⟨s, hs, rfl, hisolated⟩ := failures_isolated Sample.tree_reachable hg
  refine ⟨s, hs, fun x hx => ⟨?_, fun report hreport hname => ?_⟩⟩
  · exact ((hisolated broken x hx).1 11 hid).1.mpr hblocked
  · rw [← hname] at hfree ⊢
    exact (hisolated broken x hx).2 report hreport hfree

end Execution
end SelectionPlan
