import SelectionPlan.Proofs.Execution.Outcome
import SelectionPlan.Proofs.Graph.Coherent

/-!
# The account of every output

A run goes through the outputs of a region in order.  Until one has no result they come to their
writers, unless statistics are missing; the others are aborted.
-/

namespace SelectionPlan

variable {H ω : Type}

/-- What a run makes of an output. -/
structure Account (ω : Type) where
  /-- What is stored when the output has its turn. -/
  stored : ω
  outcome : OutputOutcome
  /-- What is handed to the writer, if it comes to that. -/
  call : Option (Handover ω)

namespace Account

def left (a : Account ω) : ω := a.call.elim a.stored (Handover.store a.stored)

def Follow : ω → List (Account ω) → Prop
  | _, [] => True
  | stored, a :: rest => a.stored = stored ∧ Follow a.left rest

theorem Follow.append {stored : ω} {first second : List (Account ω)} (h : Follow stored first)
    (h' : Follow ((first.filterMap call).foldl Handover.store stored) second) :
    Follow stored (first ++ second) := by
  induction first generalizing stored with
  | nil => exact h'
  | cons a first ih =>
      obtain ⟨rfl, hrest⟩ := h
      refine ⟨rfl, ih hrest ?_⟩
      cases hcall : a.call <;> simpa [left, List.filterMap_cons, hcall] using h'

theorem follow_of_silent {stored : ω} {accounts : List (Account ω)}
    (h : ∀ a ∈ accounts, a.stored = stored ∧ a.call = none) : Follow stored accounts := by
  induction accounts with
  | nil => trivial
  | cons a rest ih =>
      rw [List.forall_mem_cons] at h
      obtain ⟨⟨rfl, hcall⟩, hrest⟩ := h
      refine ⟨rfl, ?_⟩
      rw [left, hcall, Option.elim_none]
      exact ih hrest

end Account

def RunError.ofReply : Except WriteError Unit → Option RunError
  | .ok () => none
  | .error e => some (.write e)

def Handover.refusal (h : Handover ω) (stored : ω) : Option RunError :=
  RunError.ofReply (h.writer.write h.context h.result stored).1

def Schedule.handover (s : Schedule ω) (region : RegionPlan) (systematic : Systematic)
    (w : Writer ω) (cutflow : List CutflowStep) (result : Materialized) : Handover ω :=
  ⟨w, ⟨region.name, systematic, s.tree.nodes[region.target]?.bind Node.label, cutflow⟩, result⟩

/-- The error of the first statistics action of a plan that has one. -/
def Backend.statisticsError? (b : Backend H) (actions : List Action) (plan : SystematicPlan) :
    Option RealizationError :=
  plan.statistics.findSome? fun e => errorOf? (b.outcome actions e.2)

namespace Execution

inductive Delivered (s : Schedule ω) (b : Backend H) (region : RegionPlan) :
    PlannedOutput → Account ω → Prop
  /-- The writer is called and decides on the outcome. -/
  | called {systematic : Systematic} {plan : SystematicPlan} {index : Nat} {id : ActionId}
      {stored : ω} {w : Writer ω} {result : Materialized} {cutflow : List CutflowStep} :
      (s.writersOf region.name)[index]? = some w →
      b.outcome s.graph.actions id = .ok (.output result) →
      b.statisticsError? s.graph.actions plan = none →
      s.cutflow (b.answers s.graph.actions) plan plan.filters = .ok cutflow →
      Delivered s b region (systematic, plan, index, id) ⟨stored,
        ⟨systematic, some w.name, some result.entries,
          (s.handover region systematic w cutflow result).refusal stored⟩,
        some (s.handover region systematic w cutflow result)⟩
  /-- Statistics are missing. -/
  | withheld {systematic : Systematic} {plan : SystematicPlan} {index : Nat} {id : ActionId}
      {stored : ω} {w : Writer ω} {result : Materialized} {e : RealizationError} :
      (s.writersOf region.name)[index]? = some w →
      b.outcome s.graph.actions id = .ok (.output result) →
      b.statisticsError? s.graph.actions plan = some e →
      Delivered s b region (systematic, plan, index, id) ⟨stored,
        ⟨systematic, some w.name, some result.entries,
          some (.write ⟨w.name, region.name, systematic, none, e.message⟩)⟩, none⟩

def Aborted (s : Schedule ω) (region : RegionPlan) (entry : PlannedOutput) (a : Account ω) : Prop :=
  a.outcome = ⟨entry.1, (s.writersOf region.name)[entry.2.2.1]?.map fun w => w.name, none,
    some (.aborted region.name)⟩ ∧ a.call = none

inductive Fares (s : Schedule ω) (b : Backend H) (region : RegionPlan) :
    List PlannedOutput → List (Account ω) → Prop
  | nil : Fares s b region [] []
  | delivered {entry : PlannedOutput} {account : Account ω} {rest : List PlannedOutput}
      {accounts : List (Account ω)} : Delivered s b region entry account →
      Fares s b region rest accounts → Fares s b region (entry :: rest) (account :: accounts)
  /-- The first output that has no result. -/
  | failed {systematic : Systematic} {plan : SystematicPlan} {index : Nat} {id : ActionId}
      {stored : ω} {w : Writer ω} {e : RealizationError} {rest : List PlannedOutput}
      {aborted : List (Account ω)} :
      (s.writersOf region.name)[index]? = some w →
      b.outcome s.graph.actions id = .error e →
      List.Forall₂ (Aborted s region) rest aborted →
      Fares s b region ((systematic, plan, index, id) :: rest)
        (⟨stored, ⟨systematic, some w.name, none, some (.realization e)⟩, none⟩ :: aborted)

structure Served (s : Schedule ω) (region : RegionPlan) (entry : PlannedOutput) : Prop where
  writer : ∃ w, (s.writersOf region.name)[entry.2.2.1]? = some w
  coherent : entry.2.1.Coherent s.graph.actions region.name entry.1
  mem : entry.2.2 ∈ entry.2.1.outputs

end Execution

section Results

variable {b : Backend H} {actions : List Action} {id : ActionId} {a : Action} {v : Realized}

@[simp] theorem errorOf?_map {α β : Type} (f : α → β) (r : Outcome α) :
    errorOf? (r.map f) = errorOf? r := by
  cases r <;> rfl

theorem errorOf?_eq_none {α : Type} {r : Outcome α} : errorOf? r = none ↔ ∃ v, r = .ok v := by
  cases r <;> simp [errorOf?]

theorem Linked.answers_eq_rooted (h : Linked actions) (ha : actions[id]? = some a) :
    b.answers actions id = rooted (b.outcome actions id) := by
  simp only [Backend.outcome, ha]
  cases hanswer : b.answers actions id with
  | error root => rw [rooted_error, Action.errorOf_root]
  | ok result =>
      cases result with
      | some result => rfl
      | none =>
          rw [Backend.answers, h.lineage_eq ha] at hanswer
          obtain ⟨built, result, -, -, hsome⟩ := Backend.realizeAlong_cons_eq_ok hanswer
          cases hsome

theorem Linked.outcome_of_lineage (h : Linked actions) (hv : b.outcome actions id = .ok v)
    {i : ActionId} (hi : i ∈ lineageIds actions id) : ∃ v, b.outcome actions i = .ok v := by
  cases ha : actions[id]? with
  | none =>
      rw [lineageIds, lineage_of_none ha] at hi
      cases hi
  | some a =>
      obtain ⟨c, hc, rfl⟩ := mem_lineageIds.mp hi
      obtain ⟨hget, -, hsuffix⟩ := h.lineage_suffix ha hc
      have hanswer := h.answers_eq_rooted (b := b) ha
      cases hr : b.outcome actions c.id with
      | ok v => exact ⟨v, rfl⟩
      | error e =>
          have hfailed := h.answers_eq_rooted (b := b) hget
          rw [hr, rooted_error] at hfailed
          rw [hv, Backend.answers, Backend.realizeAlong_error_suffix hsuffix hfailed] at hanswer
          cases hanswer

theorem Linked.outcome_of_output (h : Linked actions) (ha : actions[id]? = some a)
    {region name : String} {writer : Nat} {request : Request}
    (hop : a.operation = .output region writer name request)
    (hv : b.outcome actions id = .ok v) : ∃ result, v = .output result := by
  have hanswer := h.answers_eq_rooted (b := b) ha
  rw [hv, rooted_ok, Backend.answers, h.lineage_eq ha] at hanswer
  obtain ⟨built, result, hbuilt, hpull, hsome⟩ := Backend.realizeAlong_cons_eq_ok hanswer
  obtain ⟨parent, made, -, hcall, hmade⟩ := Backend.constructAlong_cons_eq_ok.mp hbuilt
  cases hsome
  cases hmade
  cases parent with
  | none =>
      simp only [Backend.constructCall, hop, Option.map_none] at hcall
      cases hcall
  | some parent =>
      simp only [Backend.constructCall, hop, Option.map_some] at hcall
      cases hcall
      simp only [Backend.pullCall] at hpull
      cases hcount : b.pull parent.handle request with
      | error e =>
          rw [hcount] at hpull
          cases hpull
      | ok result =>
          rw [hcount] at hpull
          cases hpull
          exact ⟨result, rfl⟩

end Results

namespace Execution

variable {s : Schedule ω} {b : Backend H} {x : Execution H ω} {region : RegionPlan}
  {plan : SystematicPlan} {systematic : Systematic} (h : Wired s.graph.actions)

section Known

include h

/-- A cut flow has the error of the first filter that has one or whose statistics have one. -/
theorem Known.realizeCutflow_error (hx : Known s b x) (plan : SystematicPlan)
    (filters : List (Nat × ActionId)) : errorOf? (realizeCutflow plan filters x).1 =
      filters.findSome? fun e => (errorOf? (b.outcome s.graph.actions e.2)).or
        ((lookupKey e.1 plan.statistics).bind fun id =>
          errorOf? (b.outcome s.graph.actions id)) := by
  induction filters generalizing x with
  | nil => rfl
  | cons entry rest ih =>
      obtain ⟨node, filter⟩ := entry
      have hresult := hx.realize_eq h filter
      have hy := hx.realize h filter
      simp only [realizeCutflow, List.findSome?_cons]
      rcases hr : x.realize filter with ⟨r, y⟩
      rw [hr] at hresult hy
      rw [← hresult]
      cases r with
      | error e => rfl
      | ok counted =>
          cases lookupKey node plan.statistics with
          | none =>
              simp only [errorOf?_map, ih hy]
              rfl
          | some statistics =>
              have hsum := hy.realize_eq h statistics
              have hz := hy.realize h statistics
              rcases hw : y.realize statistics with ⟨w, z⟩
              rw [hw] at hsum hz
              simp only [hw, Option.bind_some, ← hsum]
              rcases w with e | (events | _ | m)
              · rfl
              all_goals
                simp only [errorOf?_map, ih hz]
                rfl

private theorem Known.cutflow_error (hx : Known s b x)
    (hfilters : ∀ e ∈ plan.filters, ∃ v, b.outcome s.graph.actions e.2 = .ok v)
    (hsummed : plan.filters.filterMap (fun f => lookupKey f.1 plan.statistics) =
      plan.statistics.map Prod.snd) :
    errorOf? (realizeCutflow plan plan.filters x).1 =
      b.statisticsError? s.graph.actions plan := by
  have hstatistics : b.statisticsError? s.graph.actions plan =
      (plan.statistics.map Prod.snd).findSome? fun id =>
        errorOf? (b.outcome s.graph.actions id) := by
    rw [Backend.statisticsError?, List.findSome?_map]
    rfl
  rw [hx.realizeCutflow_error h, hstatistics, ← hsummed, ← List.head?_filterMap,
    ← List.head?_filterMap, List.filterMap_filterMap]
  refine congrArg List.head? (List.filterMap_congr fun e he => ?_)
  rw [errorOf?_eq_none.mpr (hfilters e he), Option.none_or]

private theorem Known.handOver_spec (hx : Known s b x)
    (hcoherent : plan.Coherent s.graph.actions region.name systematic)
    (hfilters : ∀ e ∈ plan.filters, ∃ v, b.outcome s.graph.actions e.2 = .ok v) (w : Writer ω)
    (result : Materialized) : ∃ r y, x.handOver region systematic plan w result = (r, y) ∧
      match b.statisticsError? s.graph.actions plan with
      | some e => r = .error ⟨w.name, region.name, systematic, none, e.message⟩ ∧ Handed x y []
      | none => ∃ cutflow,
        s.cutflow (b.answers s.graph.actions) plan plan.filters = .ok cutflow ∧
          let handover := s.handover region systematic w cutflow result
          r = (w.write handover.context result x.output).1 ∧ Handed x y [handover] := by
  have hvalid : (∀ e ∈ plan.filters, ∃ a, s.graph.actions[e.2]? = some a) ∧
      ∀ e ∈ plan.statistics, ∃ a, s.graph.actions[e.2]? = some a := by
    refine ⟨fun e he => ?_, fun e he => ?_⟩
    · obtain ⟨a, ha, -⟩ := hcoherent.filter e he
      exact ⟨a, ha⟩
    · obtain ⟨a, filter, weight, effective, request, ha, -⟩ := hcoherent.statistics e he
      exact ⟨a, ha⟩
  obtain ⟨r, y, hr, hcutflow, hy, hquiet⟩ :=
    realizeCutflow_spec h hvalid.1 hvalid.2 hx.toSettled
  have herror := hx.cutflow_error h hfilters hcoherent.summed
  rw [hr] at herror
  simp only [handOver, hr, ← herror]
  cases r with
  | error e => exact ⟨_, _, rfl, rfl, hquiet.handed⟩
  | ok steps =>
      simp only [errorOf?, hy.schedule]
      refine ⟨_, _, rfl, steps, hcutflow, ?_, hquiet.handed.append (Handed.write y
        (s.handover region systematic w steps result))⟩
      rw [hquiet.output]
      rfl

private theorem Known.runOutput_spec (hx : Known s b x) {index : Nat} {id : ActionId} {w : Writer ω}
    (hw : (s.writersOf region.name)[index]? = some w)
    (hcoherent : plan.Coherent s.graph.actions region.name systematic)
    (hid : (index, id) ∈ plan.outputs) :
    ∃ o y, x.runOutput region systematic plan (some w) id = (o, y) ∧
      match b.outcome s.graph.actions id with
      | .error e => o = ⟨systematic, some w.name, none, some (.realization e)⟩ ∧ Handed x y []
      | .ok _ => ∃ call, Delivered s b region (systematic, plan, index, id) ⟨x.output, o, call⟩ ∧
        Handed x y call.toList := by
  obtain ⟨a, name, request, ha, -, hop⟩ := hcoherent.output (index, id) hid
  have hresult := hx.realize_eq h id
  have hy := hx.realize h id
  obtain ⟨-, -, hquiet⟩ := realize_realizes h ha hx.toSettled
  simp only [runOutput]
  rcases hr : x.realize id with ⟨r, y⟩
  rw [hr] at hresult hy hquiet
  have hresult : r = b.outcome s.graph.actions id := hresult
  cases r with
  | error e =>
      rw [← hresult]
      exact ⟨_, _, rfl, rfl, hquiet.handed⟩
  | ok value =>
      obtain ⟨result, rfl⟩ := h.outcome_of_output ha hop hresult.symm
      have hfilters : ∀ e ∈ plan.filters, ∃ v, b.outcome s.graph.actions e.2 = .ok v :=
        fun e he => h.outcome_of_lineage hresult.symm (hcoherent.passed (index, id) hid e he)
      obtain ⟨written, z, hz, hcases⟩ := hy.handOver_spec h hcoherent hfilters w result
      simp only [hz, ← hresult]
      cases herror : b.statisticsError? s.graph.actions plan with
      | some e =>
          simp only [herror] at hcases
          obtain ⟨rfl, hnone⟩ := hcases
          exact ⟨_, _, rfl, none, .withheld hw hresult.symm herror, hquiet.handed.append hnone⟩
      | none =>
          simp only [herror] at hcases
          obtain ⟨cutflow, hcutflow, hwrite, hone⟩ := hcases
          have hdelivered : Delivered s b region (systematic, plan, index, id) ⟨x.output,
              ⟨systematic, some w.name, some result.entries,
                (s.handover region systematic w cutflow result).refusal x.output⟩, _⟩ :=
            .called hw hresult.symm herror hcutflow
          have hrefusal : (s.handover region systematic w cutflow result).refusal x.output =
              RunError.ofReply written := by
            rw [hwrite, hquiet.output]
            rfl
          rw [hrefusal] at hdelivered
          cases written with
          | ok => exact ⟨_, _, rfl, some _, hdelivered, hquiet.handed.append hone⟩
          | error e => exact ⟨_, _, rfl, some _, hdelivered, hquiet.handed.append hone⟩

omit h in
/-- Only an output without a result stops its region. -/
private theorem Delivered.not_aborts {entry : PlannedOutput} {a : Account ω}
    (ha : Delivered s b region entry a) : aborts a.outcome = false := by
  cases ha with
  | withheld => rfl
  | @called _ _ _ _ stored w result cutflow =>
      simp only [aborts, Handover.refusal]
      generalize ((s.handover region _ w cutflow result).writer.write _ _ stored).1 = reply
      cases reply <;> rfl

omit h in
private theorem exists_fares_of_error {index : Nat} {id : ActionId} {w : Writer ω}
    {e : RealizationError} (hw : (s.writersOf region.name)[index]? = some w)
    (he : b.outcome s.graph.actions id = .error e) (stored : ω) (rest : List PlannedOutput) :
    ∃ accounts : List (Account ω),
      Fares s b region ((systematic, plan, index, id) :: rest) accounts ∧
      Account.Follow stored accounts ∧ accounts.filterMap Account.call = [] ∧
      accounts.map Account.outcome = ⟨systematic, some w.name, none, some (.realization e)⟩ ::
        rest.map fun entry => ⟨entry.1,
          (s.writersOf region.name)[entry.2.2.1]?.map fun w => w.name, none,
          some (.aborted region.name)⟩ := by
  let aborted (entry : PlannedOutput) : Account ω := ⟨stored, ⟨entry.1,
    (s.writersOf region.name)[entry.2.2.1]?.map fun w => w.name, none,
    some (.aborted region.name)⟩, none⟩
  refine ⟨⟨stored, ⟨systematic, some w.name, none, some (.realization e)⟩, none⟩ ::
    rest.map aborted, .failed hw he ?_, ⟨rfl, ?_⟩, ?_, ?_⟩
  · rw [List.forall₂_map_right_iff, List.forall₂_same]
    exact fun _ _ => ⟨rfl, rfl⟩
  · refine Account.follow_of_silent fun a ha => ?_
    obtain ⟨entry, -, rfl⟩ := List.mem_map.mp ha
    exact ⟨rfl, rfl⟩
  · rw [List.filterMap_cons_none rfl, List.filterMap_map]
    exact List.filterMap_eq_nil_iff.mpr fun _ _ => rfl
  · rw [List.map_cons, List.map_map]
    rfl

theorem Known.runOutputs_fares (hx : Known s b x) {entries : List PlannedOutput}
    (hentries : ∀ e ∈ entries, Served s region e) : ∃ accounts y,
      runOutputs region (s.writersOf region.name) entries x =
        (accounts.map Account.outcome, y) ∧
      Fares s b region entries accounts ∧ Account.Follow x.output accounts ∧
      Handed x y (accounts.filterMap Account.call) := by
  induction entries generalizing x with
  | nil => exact ⟨[], x, rfl, .nil, trivial, (Quiet.refl x).handed⟩
  | cons entry rest ih =>
      obtain ⟨systematic, plan, index, id⟩ := entry
      rw [List.forall_mem_cons] at hentries
      obtain ⟨⟨⟨w, hw⟩, hcoherent, hmem⟩, hrest⟩ := hentries
      obtain ⟨o, y, ho, hcases⟩ := hx.runOutput_spec h hw hcoherent hmem
      have hacts : Acts Set.univ x (x.runOutput region systematic plan (some w) id).2 :=
        runOutput_acts (fun _ _ => trivial) region systematic (some w) trivial
      have hy := hx.acts h hacts
      rw [ho] at hy
      have hw : (s.writersOf region.name)[index]? = some w := hw
      simp only [runOutputs, hw, ho]
      cases hresult : b.outcome s.graph.actions id with
      | error e =>
          simp only [hresult] at hcases
          obtain ⟨rfl, hnone⟩ := hcases
          obtain ⟨accounts, hfares, hfollow, hsilent, houtcomes⟩ :=
            exists_fares_of_error hw hresult x.output rest
          refine ⟨accounts, y, ?_, hfares, hfollow, by rwa [hsilent]⟩
          simp only [aborts, if_true, houtcomes]
      | ok value =>
          simp only [hresult] at hcases
          obtain ⟨call, hdelivered, hhanded⟩ := hcases
          have hgoes : aborts o = false := hdelivered.not_aborts
          obtain ⟨accounts, z, hrun, hfares, hfollow, hhanded'⟩ := ih hy hrest
          simp only [hgoes, Bool.false_eq_true, if_false, hrun]
          refine ⟨⟨x.output, o, call⟩ :: accounts, z, rfl, .delivered hdelivered hfares,
            ⟨rfl, ?_⟩, ?_⟩
          · have hleft : y.output = Account.left ⟨x.output, o, call⟩ := by
              rw [hhanded.output]
              cases call <;> rfl
            rw [← hleft]
            exact hfollow
          · cases call with
            | none => exact hhanded.append hhanded'
            | some handover => exact hhanded.append hhanded'

theorem Known.runRegions_fares (hx : Known s b x) {regions : List RegionPlan}
    (hregions : ∀ region ∈ regions, ∀ e ∈ outputsOf region, Served s region e) :
    ∃ (books : List (RegionPlan × List (Account ω))) (y : Execution H ω),
      books.map Prod.fst = regions ∧ runRegions regions x =
        (books.map fun book => ⟨book.1.name, book.2.map Account.outcome⟩, y) ∧
      (∀ book ∈ books, Fares s b book.1 (outputsOf book.1) book.2) ∧
      Account.Follow x.output (books.flatMap Prod.snd) ∧
      Handed x y ((books.flatMap Prod.snd).filterMap Account.call) := by
  induction regions generalizing x with
  | nil => exact ⟨[], x, rfl, rfl, by simp, trivial, (Quiet.refl x).handed⟩
  | cons region rest ih =>
      rw [List.forall_mem_cons] at hregions
      obtain ⟨accounts, y, hrun, hfares, hfollow, hhanded⟩ := hx.runOutputs_fares h hregions.1
      have hy : Known s b y := by
        have hacts : Acts Set.univ x
            (runOutputs region (s.writersOf region.name) (outputsOf region) x).2 :=
          runOutputs_acts region _ fun _ _ => ⟨trivial, fun _ _ => trivial⟩
        rw [hrun] at hacts
        exact hx.acts h hacts
      obtain ⟨books, z, hbooks, hrest, hall, hfollow', hhanded'⟩ := ih hy hregions.2
      refine ⟨(region, accounts) :: books, z, by rw [List.map_cons, hbooks], ?_,
        List.forall_mem_cons.mpr ⟨hfares, hall⟩, ?_, ?_⟩
      · simp only [runRegions, hx.schedule, hrun, hrest]
        rfl
      · rw [List.flatMap_cons]
        refine hfollow.append ?_
        rw [← hhanded.output]
        exact hfollow'
      · rw [List.flatMap_cons, List.filterMap_append]
        exact hhanded.append hhanded'

end Known
end Execution
end SelectionPlan
