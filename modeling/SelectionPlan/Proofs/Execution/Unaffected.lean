import SelectionPlan.Proofs.Execution.Accounts
import SelectionPlan.Proofs.Execution.Isolation

/-!
# What a region does not see

The outcomes of a region are determined by the results of the actions it needs and by the replies of
its writers.  Injected faults change no result but those that need an action which fails by itself.
-/

namespace SelectionPlan

variable {H ω : Type}

/-- A writer whose replies do not depend on what is stored. -/
def Writer.Steady (w : Writer ω) : Prop :=
  ∀ context result stored stored',
    (w.write context result stored).1 = (w.write context result stored').1

theorem Schedule.cutflow_congr {s s' : Schedule ω} {answers answers' : Answers}
    {plan : SystematicPlan} {filters : List (Nat × ActionId)} (htree : s'.tree = s.tree)
    (hfilters : ∀ e ∈ filters, answers' e.2 = answers e.2)
    (hstatistics : ∀ e ∈ plan.statistics, answers' e.2 = answers e.2) :
    s'.cutflow answers' plan filters = s.cutflow answers plan filters := by
  induction filters with
  | nil => rfl
  | cons entry rest ih =>
      obtain ⟨node, filter⟩ := entry
      rw [List.forall_mem_cons] at hfilters
      simp only [Schedule.cutflow, hfilters.1, ih hfilters.2, Execution.cutflowStep, htree]
      cases hnode : lookupKey node plan.statistics with
      | none => rfl
      | some statistics =>
          have hsum : answers' statistics = answers statistics :=
            hstatistics _ (mem_of_lookupKey hnode)
          simp only [hsum]

structure SameTo {H' : Type} (region : RegionPlan) (s : Schedule ω) (b : Backend H)
    (s' : Schedule ω) (b' : Backend H') : Prop where
  tree : s'.tree = s.tree
  graph : s'.graph = s.graph
  writers : s'.writersOf region.name = s.writersOf region.name
  steady : ∀ w ∈ s.writersOf region.name, w.Steady
  results : ∀ entry ∈ Execution.outputsOf region, ∀ id ∈ entry.2.2.2 :: entry.2.1.cutflowIds,
    b'.outcome s.graph.actions id = b.outcome s.graph.actions id

namespace Execution

section SameTo

variable {H' : Type} {region : RegionPlan} {s s' : Schedule ω} {b : Backend H} {b' : Backend H'}
  {entry : PlannedOutput} {a a' : Account ω}
  (h : SameTo region s b s' b') (hwired : Wired s.graph.actions)
include h hwired

private theorem Delivered.outcome_eq (hentry : entry ∈ outputsOf region)
    (hserved : Served s region entry) (ha : Delivered s b region entry a)
    (ha' : Delivered s' b' region entry a') : a'.outcome = a.outcome := by
  have hresults := h.results entry hentry
  rw [List.forall_mem_cons] at hresults
  obtain ⟨hresult, hcutflow⟩ := hresults
  have hfilter (e : Nat × ActionId) (he : e ∈ entry.2.1.filters) :
      b'.outcome s.graph.actions e.2 = b.outcome s.graph.actions e.2 :=
    hcutflow e.2 (List.mem_map_of_mem (List.mem_append_left _ he))
  have hsum (e : Nat × ActionId) (he : e ∈ entry.2.1.statistics) :
      b'.outcome s.graph.actions e.2 = b.outcome s.graph.actions e.2 :=
    hcutflow e.2 (List.mem_map_of_mem (List.mem_append_right _ he))
  have hmissing : b'.statisticsError? s.graph.actions entry.2.1 =
      b.statisticsError? s.graph.actions entry.2.1 := by
    rw [Backend.statisticsError?, Backend.statisticsError?, ← List.head?_filterMap,
      ← List.head?_filterMap]
    exact congrArg List.head? (List.filterMap_congr fun e he => by rw [hsum e he])
  have hrows : s'.cutflow (b'.answers s.graph.actions) entry.2.1 entry.2.1.filters =
      s.cutflow (b.answers s.graph.actions) entry.2.1 entry.2.1.filters := by
    refine Schedule.cutflow_congr h.tree (fun e he => ?_) fun e he => ?_
    · obtain ⟨c, hc, -⟩ := hserved.coherent.filter e he
      rw [hwired.answers_eq_rooted hc, hwired.answers_eq_rooted hc, hfilter e he]
    · obtain ⟨c, -, -, -, -, hc, -⟩ := hserved.coherent.statistics e he
      rw [hwired.answers_eq_rooted hc, hwired.answers_eq_rooted hc, hsum e he]
  cases ha with
  | @called systematic plan index id stored w result cutflow hw hok hcomplete hsteps =>
      cases ha' with
      | @called _ _ _ _ stored' w' result' cutflow' hw' hok' hcomplete' hsteps' =>
          rw [h.writers, hw, Option.some.injEq] at hw'
          subst hw'
          rw [h.graph, hresult, hok, Except.ok.injEq, Realized.output.injEq] at hok'
          subst hok'
          rw [h.graph, hrows, hsteps, Except.ok.injEq] at hsteps'
          subst hsteps'
          have hreply := h.steady w (List.mem_of_getElem? hw)
            (s.handover region systematic w cutflow result).context result stored' stored
          simp only [Handover.refusal, Schedule.handover, h.tree]
          rw [Schedule.handover] at hreply
          rw [hreply]
      | withheld _ _ hmissing' =>
          rw [h.graph, hmissing, hcomplete] at hmissing'
          cases hmissing'
  | @withheld systematic plan index id stored w result e hw hok hmissed =>
      cases ha' with
      | called _ _ hcomplete' _ =>
          rw [h.graph, hmissing, hmissed] at hcomplete'
          cases hcomplete'
      | @withheld _ _ _ _ stored' w' result' e' hw' hok' hmissed' =>
          rw [h.writers, hw, Option.some.injEq] at hw'
          subst hw'
          rw [h.graph, hresult, hok, Except.ok.injEq, Realized.output.injEq] at hok'
          subst hok'
          rw [h.graph, hmissing, hmissed, Option.some.injEq] at hmissed'
          subst hmissed'
          rfl

/-- What a region sees determines its outcomes. -/
theorem Fares.outcomes_eq {entries : List PlannedOutput} {accounts accounts' : List (Account ω)}
    (hentries : ∀ entry ∈ entries, entry ∈ outputsOf region ∧ Served s region entry)
    (ha : Fares s b region entries accounts) (ha' : Fares s' b' region entries accounts') :
    accounts'.map Account.outcome = accounts.map Account.outcome := by
  induction ha generalizing accounts' with
  | nil =>
      cases ha'
      rfl
  | @delivered entry account rest accounts hdelivered hrest ih =>
      rw [List.forall_mem_cons] at hentries
      obtain ⟨⟨hmem, hserved⟩, hlater⟩ := hentries
      cases ha' with
      | delivered hdelivered' hrest' =>
          rw [List.map_cons, List.map_cons, ih hlater hrest',
            hdelivered.outcome_eq h hwired hmem hserved hdelivered']
      | failed _ herror' _ =>
          rw [h.graph, h.results _ hmem _ List.mem_cons_self] at herror'
          cases hdelivered with
          | called _ hok _ _ =>
              rw [herror'] at hok
              cases hok
          | withheld _ hok _ =>
              rw [herror'] at hok
              cases hok
  | @failed systematic plan index id stored w e rest aborted hw herror haborted =>
      rw [List.forall_mem_cons] at hentries
      obtain ⟨⟨hmem, -⟩, -⟩ := hentries
      have hsame := h.results _ hmem _ List.mem_cons_self
      cases ha' with
      | delivered hdelivered' hrest' =>
          cases hdelivered' with
          | called _ hok' _ _ =>
              rw [h.graph, hsame, herror] at hok'
              cases hok'
          | withheld _ hok' _ =>
              rw [h.graph, hsame, herror] at hok'
              cases hok'
      | @failed _ _ _ _ _ w' e' _ aborted' hw' herror' haborted' =>
          rw [h.writers, hw, Option.some.injEq] at hw'
          subst hw'
          rw [h.graph, hsame, herror, Except.error.injEq] at herror'
          subst herror'
          have houtcomes : aborted'.map Account.outcome = aborted.map Account.outcome := by
            rw [aligned_map haborted fun entry _ a ha => ha.1,
              aligned_map haborted' fun entry _ a ha => ha.1, h.writers]
          rw [List.map_cons, List.map_cons, houtcomes]

end SameTo
end Execution

/-! ### Injected faults -/

/-- What has been constructed, without the name that faults refer to. -/
def Built.unnamed : Built (Named H) → Built H
  | .frame handle counted => .frame handle.frame counted
  | .output handle request => .output handle.frame request

namespace Backend

variable {b : Backend H} {faults : List Fault}

private theorem withFaults_constructCall {a : Action} {parent : Option (Named H)}
    {built : Built (Named H)}
    (h : (b.withFaults faults).constructCall a parent = .ok built) :
    b.constructCall a (parent.map Named.frame) = .ok built.unnamed := by
  cases parent with
  | none =>
      cases hop : a.operation <;> simp only [constructCall, hop] at h ⊢ <;> cases h
      rfl
  | some parent =>
      cases hop : a.operation with
      | source =>
          simp only [constructCall, hop] at h ⊢
          cases h
          rfl
      | filter predicate =>
          simp only [constructCall, hop, withFaults, Option.map_some] at h ⊢
          cases hfault : Fault.error? faults .filter a.path with
          | some e =>
              simp only [hfault] at h
              cases h
          | none =>
              simp only [hfault] at h
              cases hcall : b.applyFilter a.id parent.frame a.path predicate <;>
                rw [hcall] at h <;> cases h
              rfl
      | define slot column name definition =>
          simp only [constructCall, hop, withFaults, Option.map_some] at h ⊢
          cases hfault : Fault.error? faults .define column with
          | some e =>
              simp only [hfault] at h
              cases h
          | none =>
              simp only [hfault] at h
              cases hcall : b.defineColumn a.id parent.frame column definition <;>
                rw [hcall] at h <;> cases h
              rfl
      | output =>
          simp only [constructCall, hop, Option.map_some] at h ⊢
          cases h
          rfl
      | statistics =>
          simp only [constructCall, hop, Option.map_some] at h ⊢
          cases h
          rfl

private theorem withFaults_pullCall {built : Built (Named H)} {result : Realized}
    (h : (b.withFaults faults).pullCall built = .ok result) :
    b.pullCall built.unnamed = .ok result := by
  rcases built with ⟨handle, _ | _⟩ | ⟨handle, request⟩
  · exact h
  · simp only [pullCall, withFaults, Built.unnamed] at h ⊢
    cases hfault : Fault.error? faults .count handle.name with
    | some e =>
        simp only [hfault] at h
        cases h
    | none => simpa only [hfault] using h
  · simp only [pullCall, withFaults, Built.unnamed] at h ⊢
    cases hfault : Fault.error? faults .pull handle.name with
    | some e =>
        simp only [hfault] at h
        cases h
    | none => simpa only [hfault] using h

theorem withFaults_along (line : List Action) :
    (∀ made, (b.withFaults faults).constructAlong line = .ok made →
      b.constructAlong line = .ok (made.map Built.unnamed)) ∧
    ∀ r, (b.withFaults faults).realizeAlong line = .ok r → b.realizeAlong line = .ok r := by
  induction line with
  | nil =>
      constructor
      · rintro made ⟨⟩
        rfl
      · rintro r ⟨⟩
        rfl
  | cons a older ih =>
      obtain ⟨hconstructed, hrealized⟩ := ih
      have hcalled {parent : Option (Built (Named H))} {built : Built (Named H)}
          (h : (b.withFaults faults).constructCall a (parent.map Built.handle) = .ok built) :
          b.constructCall a ((parent.map Built.unnamed).map Built.handle) = .ok built.unnamed := by
        have hhandle : (parent.map Built.unnamed).map Built.handle =
            (parent.map Built.handle).map Named.frame := by
          rcases parent with _ | (_ | _) <;> rfl
        rw [hhandle]
        exact withFaults_constructCall h
      refine ⟨fun made hmade => ?_, fun r hr => ?_⟩
      · obtain ⟨parent, built, hparent, hcall, rfl⟩ := constructAlong_cons_eq_ok.mp hmade
        exact constructAlong_cons_eq_ok.mpr ⟨_, _, hconstructed _ hparent, hcalled hcall, rfl⟩
      · obtain ⟨built, result, hbuilt, hpull, rfl⟩ := realizeAlong_cons_eq_ok hr
        obtain ⟨parent, made, hparent, hcall, hmade⟩ := constructAlong_cons_eq_ok.mp hbuilt
        cases hmade
        cases hold : (b.withFaults faults).realizeAlong older with
        | error f =>
            rw [realizeAlong_error_suffix (List.suffix_cons a older) hold] at hr
            cases hr
        | ok first =>
            rw [realizeAlong_cons_of_ok (hrealized _ hold) (hconstructed _ hparent),
              hcalled hcall]
            simp only [withFaults_pullCall hpull]

/-- Faults change no result but of actions that need one which fails by itself. -/
theorem withFaults_outcome {actions : List Action} (h : Chained actions) (id : ActionId) :
    (b.withFaults faults).outcome actions id = b.outcome actions id ∨
      ∃ i ∈ closure actions id, (b.withFaults faults).FailsAt actions i := by
  cases ha : actions[id]? with
  | none => exact .inl (by simp only [outcome, ha])
  | some a =>
      by_cases hfails : ∃ i ∈ closure actions id, (b.withFaults faults).FailsAt actions i
      · exact .inr hfails
      · obtain ⟨r, hr⟩ := (h.exists_answer_iff (b := b.withFaults faults) ha).mpr fun i hi hf =>
          hfails ⟨i, hi, hf⟩
        have hplain : b.answers actions id = .ok r := (withFaults_along _).2 r hr
        exact .inl (by simp only [outcome, ha, hr, hplain])

end Backend
end SelectionPlan
