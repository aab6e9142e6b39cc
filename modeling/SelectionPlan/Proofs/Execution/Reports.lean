import SelectionPlan.Proofs.Execution.Unaffected
import SelectionPlan.Proofs.Graph.Sharing
import Mathlib.Data.Set.List

/-!
# Reports account for every output

A run reports every planned region once, and of each region every requested systematic with every
writer.  The outputs behind a failure are left alone, and regions do not see the failures of others.
-/

namespace SelectionPlan

variable {H ω : Type}

namespace Execution

variable {s : Schedule ω} {b : Backend H} {x y : Execution H ω} {region : RegionPlan}
  {before after : List PlannedOutput} {failing entry : PlannedOutput} {e : RealizationError}

/-! ### Outputs behind a failure -/

section Spared

variable (h : Wired s.graph.actions)
include h

private theorem Known.runOutputs_stops (hx : Known s b x)
    (he : b.outcome s.graph.actions failing.2.2.2 = .error e) (writers : List (Writer ω)) :
    (runOutputs region writers (before ++ failing :: after) x).2 =
      (runOutputs region writers (before ++ [failing]) x).2 := by
  induction before generalizing x with
  | nil =>
      obtain ⟨systematic, plan, index, id⟩ := failing
      have hstops : aborts (x.runOutput region systematic plan writers[index]? id).1 = true := by
        have hresult := hx.realize_eq h id
        rw [runOutput]
        rcases hr : x.realize id with ⟨r, y⟩
        rw [hr] at hresult
        have hresult : r = .error e := hresult.trans he
        subst hresult
        rfl
      simp only [List.nil_append, runOutputs, hstops, if_true]
  | cons entry before ih =>
      obtain ⟨systematic, plan, index, id⟩ := entry
      have hacts : Acts Set.univ x (x.runOutput region systematic plan writers[index]? id).2 :=
        runOutput_acts (fun _ _ => trivial) region systematic _ trivial
      simp only [List.cons_append, runOutputs]
      split
      · rfl
      · exact ih (hx.acts h hacts)

private theorem Acts.spares {id : ActionId} (hid : ¬ IsFrame s.graph.actions id)
    (hx : Slotted s b x) (hy : Acts {i | i ≠ id} x y) : y.slotOf id = x.slotOf id := by
  induction hy with
  | refl => rfl
  | @realize y i hne hy ih =>
      have hslotted := (hy.goes h hx).slotted
      rw [← ih]
      cases ha : s.graph.actions[i]? with
      | some a =>
          refine (realize_keeps h ha hslotted).outside id fun hmem => hid ?_
          exact h.frame_of_lineage hmem (Ne.symm hne)
      | none => rw [realize_of_none (hslotted.schedule ▸ ha)]
  | write w context result _ ih => exact ih

omit h in
private theorem Served.ne_output (he : Served s region entry) {id : ActionId} {a : Action}
    {name writerName : String} {writer : Nat} {request : Request}
    (ha : s.graph.actions[id]? = some a)
    (hop : a.operation = .output name writer writerName request) :
    (∀ i ∈ entry.2.1.cutflowIds, i ≠ id) ∧ (entry.2.2.2 = id →
      region.name = name ∧ (entry.1, entry.2.2.1) = (a.systematic, writer)) := by
  constructor
  · rintro i hi rfl
    obtain ⟨f, hf, rfl⟩ := List.mem_map.mp hi
    rcases List.mem_append.mp hf with hf | hf
    · obtain ⟨c, hc, htask⟩ := he.coherent.filter f hf
      rw [ha, Option.some.injEq] at hc
      subst hc
      simp [Action.task, hop] at htask
    · obtain ⟨c, filter, weight, effective, request', hc, hop'⟩ := he.coherent.statistics f hf
      rw [ha, Option.some.injEq] at hc
      subst hc
      rw [hop] at hop'
      cases hop'
  · rintro rfl
    obtain ⟨c, name', request', hc, hsystematic, hop'⟩ := he.coherent.output _ he.mem
    rw [ha, Option.some.injEq] at hc
    subst hc
    rw [hop] at hop'
    cases hop'
    exact ⟨rfl, by rw [hsystematic]⟩

/-- A run leaves the outputs of a region alone that come after one without a result. -/
theorem Known.run_spares (hx : Known s b x)
    (hserved : ∀ region ∈ s.graph.regions, ∀ entry ∈ outputsOf region, Served s region entry)
    (hnames : (s.graph.regions.map RegionPlan.name).Nodup) (hregion : region ∈ s.graph.regions)
    (hdistinct : ((outputsOf region).map fun entry => (entry.1, entry.2.2.1)).Nodup)
    (hsplit : outputsOf region = before ++ failing :: after)
    (he : b.outcome s.graph.actions failing.2.2.2 = .error e) (hentry : entry ∈ after) :
    x.run.2.slotOf entry.2.2.2 = x.slotOf entry.2.2.2 := by
  have hmem : entry ∈ outputsOf region := by simp [hsplit, hentry]
  have hthis := hserved region hregion entry hmem
  obtain ⟨a, name, request, ha, hsystematic, hop⟩ := hthis.coherent.output _ hthis.mem
  have hterminal : ¬ IsFrame s.graph.actions entry.2.2.2 := by
    rintro ⟨c, hc, htask⟩
    rw [ha, Option.some.injEq] at hc
    subst hc
    simp [Action.task, hop] at htask
  refine Acts.spares h hterminal hx.toSlotted ?_
  refine runRegions_acts (I := Known s b) (fun x y hx hy => hx.acts h hy) ?_ hx
  rw [hx.schedule]
  intro other hother x hx writers
  by_cases hsame : other.name = region.name
  · -- In the region itself the failure comes first.
    have heq : other = region := List.inj_on_of_nodup_map hnames hother hregion hsame
    subst heq
    rw [hsplit, hx.runOutputs_stops h he]
    rw [hsplit, List.append_cons, List.map_append, List.nodup_append'] at hdistinct
    refine runOutputs_acts other writers fun earlier hearlier => ?_
    have hin : earlier ∈ outputsOf other := by
      rw [hsplit, List.append_cons]
      exact List.mem_append_left _ hearlier
    obtain ⟨hcutflow, houtput⟩ := (hserved other hother earlier hin).ne_output ha hop
    refine ⟨fun hid => ?_, hcutflow⟩
    obtain ⟨-, hkey⟩ := houtput hid
    rw [hsystematic] at hkey
    exact hdistinct.2.2 (List.mem_map_of_mem hearlier) (hkey ▸ List.mem_map_of_mem hentry)
  · refine runOutputs_acts other writers fun earlier hearlier => ?_
    obtain ⟨hcutflow, houtput⟩ := (hserved other hother earlier hearlier).ne_output ha hop
    exact ⟨fun hid => hsame (houtput hid).1, hcutflow⟩

end Spared
end Execution

/-! ### The outputs of planned regions -/

theorem Region.Reachable.nominal_first {r : Region ω} (h : r.Reachable) : ∃ names : List String,
    r.systematics = .nominal :: names.map .variation ∧ names.Pairwise (· < ·) := by
  obtain ⟨hsorted, hmem⟩ := h.systematics
  cases hsys : r.systematics with
  | nil =>
      rw [hsys] at hmem
      cases hmem
  | cons first rest =>
      rw [hsys, List.pairwise_cons] at hsorted
      rw [hsys, List.mem_cons] at hmem
      have hfirst : first = .nominal := by
        rcases hmem with hfirst | hmem
        · exact hfirst.symm
        · cases first with
          | nominal => rfl
          | variation name => cases hsorted.1 _ hmem
      subst hfirst
      have hvaried : rest ∈ Set.range (List.map Systematic.variation) := by
        rw [Set.range_list_map]
        intro s hs
        cases s with
        | nominal => cases hsorted.1 _ hs
        | variation name => exact ⟨name, rfl⟩
      obtain ⟨names, rfl⟩ := hvaried
      refine ⟨names, rfl, ?_⟩
      exact (List.pairwise_map.mp hsorted.2).imp fun hlt => of_decide_eq_true hlt

section Planned

variable {t : SelectionTree} {namer : Namer} {options : BuildOptions} {regions : List (Region ω)}
  {s : Schedule ω}

private theorem outputsOf_keys {p : Planner} {actions : List Action} {a : AcceptedRegion}
    {plan : RegionPlan} (hfor : RegionFor p actions a.outputs.zipIdx a plan) :
    (Execution.outputsOf plan).map (fun entry => (entry.1, entry.2.2.1)) =
      a.systematics ×ˢ List.range a.outputs.length := by
  rw [Execution.outputsOf, List.map_flatMap]
  refine aligned_flatMap hfor.systematics ?_
  rintro s - ⟨s', plan⟩ - ⟨rfl, hplan⟩
  have hindices : plan.outputs.map Prod.fst = List.range a.outputs.length := by
    rw [aligned_map (f := Prod.snd) hplan.outputs fun spec _ e he => he.1, List.zipIdx_map_snd,
      List.range_eq_range']
  rw [← hindices, List.map_map, List.map_map]
  rfl

variable (ht : t.Reachable) (hs : Schedule.build t namer options regions = .ok s)
include ht hs

theorem Schedule.outputs_of_build : List.Forall₂ (fun (r : Region ω) plan => plan.name = r.name ∧
    s.writersOf plan.name = r.writers ∧
    (Execution.outputsOf plan).map (fun entry => (entry.1, entry.2.2.1)) =
      r.systematics ×ˢ List.range r.writers.length) (s.graph.kept regions) s.graph.regions := by
  obtain ⟨hgraph, -⟩ := Schedule.graph_of_build hs
  obtain ⟨p, accepted, d, hbuilt, hplans⟩ := ActionGraph.kept_planned ht hgraph
  refine (aligned_mem hplans).imp ?_
  rintro r plan ⟨hr, hplan, a, -, haccept, hfor⟩
  obtain ⟨-, hname, hsystematics, houtputs, -⟩ := Region.accept?_eq_some haccept
  have hplanned : plan.name = r.name := hfor.name_eq.trans hname
  refine ⟨hplanned, ?_, ?_⟩
  · rw [hplanned]
    exact Schedule.writersOf_of_build hs (ActionGraph.mem_of_mem_kept hr) hplan
      hplanned
  · rw [outputsOf_keys hfor, hsystematics, houtputs, List.length_map]

theorem Schedule.served_of_build : ∀ region ∈ s.graph.regions,
    ∀ entry ∈ Execution.outputsOf region, Execution.Served s region entry := by
  obtain ⟨hgraph, -⟩ := Schedule.graph_of_build hs
  intro region hregion entry hentry
  obtain ⟨r, -, -, hwriters, hkeys⟩ := exists_aligned (outputs_of_build ht hs).flip hregion
  have hindex : (entry.1, entry.2.2.1) ∈ r.systematics ×ˢ List.range r.writers.length := by
    rw [← hkeys]
    exact List.mem_map_of_mem hentry
  have hlt := List.mem_range.mp (List.pair_mem_product.mp hindex).2
  obtain ⟨⟨systematic, plan⟩, hplanned, houtput⟩ := List.mem_flatMap.mp hentry
  obtain ⟨⟨index, id⟩, hmem, rfl⟩ := List.mem_map.mp houtput
  have hwriter : (s.writersOf region.name)[index]? = some r.writers[index] := by
    rw [hwriters]
    exact List.getElem?_eq_getElem hlt
  exact ⟨⟨_, hwriter⟩, ActionGraph.coherent_of_build ht hgraph region hregion _ hplanned, hmem⟩

end Planned

/-! ### Reports -/

namespace Execution

variable {s : Schedule ω} {b : Backend H} {x y : Execution H ω} {region : RegionPlan}

/-- How the accounts of a planned region tell what a run from `x` made of it. -/
structure Accounted (s : Schedule ω) (b : Backend H) (x : Execution H ω) (r : Region ω)
    (book : RegionPlan × List (Account ω)) : Prop where
  name_eq : book.1.name = r.name
  served : ∀ entry ∈ outputsOf book.1, Served s book.1 entry
  /-- There is one outcome for every requested systematic and every writer. -/
  requested : book.2.map (fun a => (a.outcome.systematic, a.outcome.writer)) =
    r.systematics.flatMap fun systematic => r.writers.map fun w => (systematic, some w.name)
  fares : Fares s b book.1 (outputsOf book.1) book.2
  /-- The outputs after one without a result are not realized in the run. -/
  spared : ∀ before failing after e, outputsOf book.1 = before ++ failing :: after →
    b.outcome s.graph.actions failing.2.2.2 = .error e →
      ∀ entry ∈ after, x.run.2.slotOf entry.2.2.2 = x.slotOf entry.2.2.2

private theorem Fares.requested {entries : List PlannedOutput} {accounts : List (Account ω)}
    (h : Fares s b region entries accounts) :
    accounts.map (fun a => (a.outcome.systematic, a.outcome.writer)) =
      entries.map fun entry =>
        (entry.1, (s.writersOf region.name)[entry.2.2.1]?.map fun w => w.name) := by
  induction h with
  | nil => rfl
  | delivered hdelivered _ ih =>
      rw [List.map_cons, List.map_cons, ih]
      cases hdelivered with
      | called hw _ _ _ => rw [hw, Option.map_some]
      | withheld hw _ _ => rw [hw, Option.map_some]
  | failed hw _ haborted =>
      have hrest := aligned_map (f := fun entry : PlannedOutput =>
        (entry.1, (s.writersOf region.name)[entry.2.2.1]?.map fun w => w.name))
        (g := fun a : Account ω => (a.outcome.systematic, a.outcome.writer)) haborted
        fun entry _ a ha => by rw [ha.1]
      rw [List.map_cons, List.map_cons, hrest, hw, Option.map_some]

theorem map_positions (systematics : List Systematic) (writers : List (Writer ω)) :
    (systematics ×ˢ List.range writers.length).map (fun key => (key.1, writers[key.2]?)) =
      systematics.flatMap fun systematic => writers.map fun w => (systematic, some w) := by
  have hrow (systematic : Systematic) : (List.range writers.length).map
      (fun i => (systematic, writers[i]?)) = writers.map fun w => (systematic, some w) := by
    refine List.ext_getElem (by simp) fun i hi hi' => ?_
    rw [List.length_map] at hi'
    simp [hi']
  change (systematics.flatMap fun systematic =>
    (List.range writers.length).map (Prod.mk systematic)).map _ = _
  rw [List.map_flatMap]
  refine List.flatMap_congr fun systematic _ => ?_
  rw [List.map_map]
  exact hrow systematic

section Reached

variable {t : SelectionTree} {namer : Namer} {options : BuildOptions} {regions : List (Region ω)}
  (ht : t.Reachable) (hs : Schedule.build t namer options regions = .ok s)
include ht hs

theorem Reached.run_fares (hx : Reached s b x) : ∃ books : List (RegionPlan × List (Account ω)),
    books.map Prod.fst = s.graph.regions ∧
    x.run.1.regions = books.map (fun book => ⟨book.1.name, book.2.map Account.outcome⟩) ∧
    (∀ book ∈ books, Fares s b book.1 (outputsOf book.1) book.2) ∧
    Account.Follow x.output (books.flatMap Prod.snd) ∧
    Handed x x.run.2 ((books.flatMap Prod.snd).filterMap Account.call) := by
  obtain ⟨hwired, -⟩ := Schedule.order_of_build ht hs
  have hknown := hx.known ht hs
  obtain ⟨books, y, hbooks, hrun, hfares, hfollow, hhanded⟩ :=
    hknown.runRegions_fares hwired (Schedule.served_of_build ht hs)
  refine ⟨books, hbooks, ?_, hfares, hfollow, ?_⟩
  · rw [Execution.run, hknown.schedule, hrun]
  · rw [Execution.run, hknown.schedule, hrun]
    exact hhanded

private theorem Reached.accounted (hregions : ∀ r ∈ regions, r.Reachable) (hx : Reached s b x)
    {books : List (RegionPlan × List (Account ω))} (hbooks : books.map Prod.fst = s.graph.regions)
    (hfares : ∀ book ∈ books, Fares s b book.1 (outputsOf book.1) book.2) :
    List.Forall₂ (Accounted s b x) (s.graph.kept regions) books := by
  obtain ⟨hgraph, -⟩ := Schedule.graph_of_build hs
  obtain ⟨hwired, -⟩ := Schedule.order_of_build ht hs
  have hserved := Schedule.served_of_build ht hs
  have hplanned := Schedule.outputs_of_build ht hs
  rw [← hbooks, List.forall₂_map_right_iff] at hplanned
  refine (aligned_mem hplanned).imp ?_
  rintro r book ⟨hr, hbook, hname, hwriters, hkeys⟩
  have hregion : book.1 ∈ s.graph.regions := hbooks ▸ List.mem_map_of_mem hbook
  have hsystematics : r.systematics.Nodup := nodup_of_ascending
    (hregions r (ActionGraph.mem_of_mem_kept hr)).systematics.1
  refine ⟨hname, hserved book.1 hregion, ?_, hfares book hbook, ?_⟩
  · have hnamed := congrArg (List.map fun key => (key.1, key.2.map fun w => w.name))
      (map_positions r.systematics r.writers)
    rw [← hkeys, List.map_map, List.map_map, List.map_flatMap] at hnamed
    rw [(hfares book hbook).requested, hwriters]
    refine hnamed.trans (List.flatMap_congr fun systematic _ => ?_)
    rw [List.map_map]
    rfl
  · intro before failing after e hsplit he entry hentry
    refine (hx.known ht hs).run_spares hwired hserved (ActionGraph.nodup_planned ht hgraph) hregion
      ?_ hsplit he hentry
    rw [hkeys]
    exact hsystematics.product List.nodup_range

/-- Whatever other regions fail at does not change the report of a region. -/
private theorem Reached.reports_eq {H' : Type} {b' : Backend H'} {s' : Schedule ω}
    {y : Execution H' ω} {regions' : List (Region ω)}
    (hs' : Schedule.build t namer options regions' = .ok s') (hx : Reached s b x)
    (hy : Reached s' b' y) (hregion : region ∈ s.graph.regions) (h : SameTo region s b s' b')
    {report report' : RegionReport} (hreport : report ∈ x.run.1.regions)
    (hreport' : report' ∈ y.run.1.regions) (hname : report.name = region.name)
    (hname' : report'.name = region.name) : report' = report := by
  obtain ⟨hgraph, -⟩ := Schedule.graph_of_build hs
  obtain ⟨hwired, -⟩ := Schedule.order_of_build ht hs
  have hnames := ActionGraph.nodup_planned ht hgraph
  have hserved := Schedule.served_of_build ht hs region hregion
  obtain ⟨books, hbooks, hreports, hfares, -⟩ := hx.run_fares ht hs
  obtain ⟨books', hbooks', hreports', hfares', -⟩ := hy.run_fares ht hs'
  rw [hreports] at hreport
  rw [hreports'] at hreport'
  obtain ⟨⟨plan, accounts⟩, hbook, rfl⟩ := List.mem_map.mp hreport
  obtain ⟨⟨plan', accounts'⟩, hbook', rfl⟩ := List.mem_map.mp hreport'
  have hplan : plan ∈ s.graph.regions := hbooks ▸ List.mem_map_of_mem hbook
  have hplan' : plan' ∈ s.graph.regions := h.graph ▸ hbooks' ▸ List.mem_map_of_mem hbook'
  have hsame : plan = region := List.inj_on_of_nodup_map hnames hplan hregion hname
  have hsame' : plan' = region := List.inj_on_of_nodup_map hnames hplan' hregion hname'
  subst hsame hsame'
  have houtcomes := (hfares _ hbook).outcomes_eq h hwired (fun entry hentry =>
    ⟨hentry, hserved entry hentry⟩) (hfares' _ hbook')
  rw [houtcomes]

/-- An engine gives a region the same results unless the region needs one of the actions that make
the difference. -/
private theorem results_of_free {H' : Type} {b' : Backend H'} {failing : Set ActionId}
    (hdiffer : ∀ id, b'.outcome s.graph.actions id = b.outcome s.graph.actions id ∨
      ∃ i ∈ closure s.graph.actions id, i ∈ failing)
    (hregion : region ∈ s.graph.regions)
    (hfree : ∀ a ∈ s.graph.actions, a.id ∈ failing → region.name ∉ a.consumers) :
    ∀ entry ∈ outputsOf region, ∀ id ∈ entry.2.2.2 :: entry.2.1.cutflowIds,
      b'.outcome s.graph.actions id = b.outcome s.graph.actions id := by
  obtain ⟨hgraph, -⟩ := Schedule.graph_of_build hs
  obtain ⟨p, accepted, d, -, -, -, -, -, hbuilt⟩ := ActionGraph.built_of_build ht hgraph
  intro entry hentry id hid
  refine (hdiffer id).resolve_right ?_
  rintro ⟨i, hi, hfails⟩
  obtain ⟨planned, hplanned, hroots⟩ := roots_of_outputsOf hentry
  have hroot : id ∈ planned.2.roots := by
    apply hroots
    simp only [SystematicPlan.cutflowIds, SystematicPlan.roots, List.map_append, List.mem_cons,
      List.mem_append] at hid ⊢
    tauto
  obtain ⟨a, ha⟩ := hbuilt.within region hregion planned hplanned id hroot
  rw [hbuilt.chained.closure_eq ha] at hi
  have hi' := hi
  obtain ⟨c, hc, rfl⟩ := mem_lineageIds.mp hi'
  have hmem := List.mem_of_getElem? (hbuilt.chained.lineage_suffix ha hc).1
  exact hfree c hmem hfails (hbuilt.mem_consumers hregion hplanned hroot hmem hi)

/-- A run reports every kept region once.  Its outputs fare one after the other, nominal first, each
as its action and the statistics of its plan allow and as its writer replies, until one has no
result; those behind it are aborted.  Another engine, or other writers of other regions, change a
report only if the region needs an action that makes a difference. -/
theorem run_accounts (hregions : ∀ r ∈ regions, r.Reachable) (hx : Reached s b x) :
    ((s.graph.kept regions).map Region.name).Nodup ∧
    (∀ r ∈ regions, ∃ names : List String,
      r.systematics = .nominal :: names.map .variation ∧ names.Pairwise (· < ·)) ∧
    (∀ id, (x.realize id).1 = b.outcome s.graph.actions id) ∧
    (∃ books : List (RegionPlan × List (Account ω)),
      x.run.1.regions = books.map (fun book => ⟨book.1.name, book.2.map Account.outcome⟩) ∧
      List.Forall₂ (Accounted s b x) (s.graph.kept regions) books ∧
      Account.Follow x.output (books.flatMap Prod.snd) ∧
      Handed x x.run.2 ((books.flatMap Prod.snd).filterMap Account.call)) ∧
    ∀ (H' : Type) (b' : Backend H') (regions' : List (Region ω)) (s' : Schedule ω)
      (y : Execution H' ω), Schedule.build t namer options regions' = .ok s' →
      s'.graph = s.graph → Reached s' b' y → ∀ failing : Set ActionId,
      (∀ id, b'.outcome s.graph.actions id = b.outcome s.graph.actions id ∨
        ∃ i ∈ closure s.graph.actions id, i ∈ failing) →
      ∀ region ∈ s.graph.regions,
        (∀ a ∈ s.graph.actions, a.id ∈ failing → region.name ∉ a.consumers) →
        s'.writersOf region.name = s.writersOf region.name →
        (∀ w ∈ s.writersOf region.name, w.Steady) →
        ∀ report ∈ x.run.1.regions, ∀ report' ∈ y.run.1.regions,
          report.name = region.name → report'.name = region.name → report' = report := by
  obtain ⟨hgraph, htree⟩ := Schedule.graph_of_build hs
  obtain ⟨hwired, -⟩ := Schedule.order_of_build ht hs
  refine ⟨?_, fun r hr => (hregions r hr).nominal_first, (hx.known ht hs).realize_eq hwired, ?_, ?_⟩
  · rw [← ActionGraph.names_planned ht hgraph]
    exact ActionGraph.nodup_planned ht hgraph
  · obtain ⟨books, hbooks, hreports, hfares, hfollow, hhanded⟩ := hx.run_fares ht hs
    exact ⟨books, hreports, hx.accounted ht hs hregions hbooks hfares, hfollow, hhanded⟩
  · intro H' b' regions' s' y hs' hsame hy failing hdiffer region hregion hfree hwriters hsteady
      report hreport report' hreport' hname hname'
    obtain ⟨-, htree'⟩ := Schedule.graph_of_build hs'
    have hresults := results_of_free ht hs hdiffer hregion hfree
    have halike : SameTo region s b s' b' :=
      ⟨htree'.trans htree.symm, hsame, hwriters, hsteady, hresults⟩
    exact hx.reports_eq ht hs hs' hy hregion halike hreport hreport' hname hname'

end Reached

/-- The failure of the score for `up` leaves the report of the other region as it is without it. -/
theorem run_accounts_sample : ∃ s : Schedule Nat,
    Schedule.build Sample.tree Sample.namer {} Sample.regions = .ok s ∧
      let x := Execution.construct s Sample.table.backend 0
      let y := Execution.construct s broken 0
      (∃ books : List (RegionPlan × List (Account Nat)),
        x.run.1.regions = books.map (fun book => ⟨book.1.name, book.2.map Account.outcome⟩) ∧
          List.Forall₂ (Accounted s Sample.table.backend x) (s.graph.kept Sample.regions) books) ∧
      ∀ report ∈ x.run.1.regions, ∀ report' ∈ y.run.1.regions,
        report.name = "control" → report'.name = "control" → report' = report := by
  obtain ⟨g, hg⟩ := Sample.exists_build
  have hgraph : ∀ g ∈ (ActionGraph.build Sample.tree Sample.namer {} Sample.regions).toOption,
      (∃ region ∈ g.regions, region.name = "control") ∧
        ∀ a ∈ g.actions, broken.FailsAt g.actions a.id → "control" ∉ a.consumers := by decide
  obtain ⟨⟨region, hregion, hname⟩, hfree⟩ := hgraph g (by rw [hg]; rfl)
  obtain ⟨s, hs, rfl⟩ := Schedule.exists_build Sample.tree_reachable hg
  obtain ⟨hwired, -⟩ := Schedule.order_of_build Sample.tree_reachable hs
  have hwriters : s.writersOf region.name = [Sample.keep] := by
    rw [hname]
    exact Schedule.writersOf_of_build hs (List.mem_pair.mpr (.inr rfl)) hregion hname
  have hsteady : ∀ w ∈ s.writersOf region.name, w.Steady := by
    intro w hw context result stored stored'
    rw [hwriters, List.mem_singleton] at hw
    subst hw
    rfl
  obtain ⟨-, -, -, ⟨books, hreports, haccounted, -⟩, hunaffected⟩ :=
    run_accounts Sample.tree_reachable hs Sample.regions_reachable
      (.construct 0 : Reached s Sample.table.backend _)
  refine ⟨s, hs, ⟨books, hreports, haccounted⟩, fun report hreport report' hreport' h h' => ?_⟩
  refine hunaffected _ broken Sample.regions s _ hs rfl (.construct 0)
    {i | broken.FailsAt s.graph.actions i} (Backend.withFaults_outcome hwired.toChained) region
    hregion ?_ rfl hsteady report hreport report' hreport' (h.trans hname.symm)
    (h'.trans hname.symm)
  rw [hname]
  exact hfree

end Execution
end SelectionPlan
