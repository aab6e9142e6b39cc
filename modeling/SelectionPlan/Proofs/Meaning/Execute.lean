import SelectionPlan.Proofs.Backend.Engine
import SelectionPlan.Proofs.Execution.Hosted
import SelectionPlan.Proofs.Execution.Reached
import SelectionPlan.Proofs.Meaning.Results

/-!
# Executions keep the meaning of an analysis

Executing a schedule over a table hands to every writer, once under each systematic, what an
evaluation event by event gives, however planning shares and orders the work.
-/

namespace SelectionPlan

variable {ω : Type} {p : Planner} {t : SelectionTree} {table : EventTable}
  {accepted : List AcceptedRegion} {d : Draft} {g : ActionGraph} {s : Schedule ω}
  {systematic : Systematic} {plan : SystematicPlan} {region : RegionPlan}

private theorem cutflow_of_answers {answers : Answers} (htree : s.tree = t) {nodes : List Nat}
    {filters : List (Nat × ActionId)}
    (hfilters : List.Forall₂ (fun node entry => entry.1 = node ∧ answers entry.2 =
      .ok (some (.count (t.selectedRows table systematic node).length))) nodes filters)
    (hstatistics : ∀ node ∈ nodes,
      (t.weight node = none ∧ lookupKey node plan.statistics = none) ∨
      ∃ id weight, lookupKey node plan.statistics = some id ∧ t.weight node = some weight ∧
        answers id = .ok (some (.output (t.resultAt table systematic node [] (some weight))))) :
    s.cutflow answers plan filters = .ok (nodes.map (t.cutflowAt table systematic)) := by
  subst htree
  induction hfilters with
  | nil => rfl
  | @cons node entry nodes filters hentry _ ih =>
      rw [List.forall_mem_cons] at hstatistics
      obtain ⟨first, id⟩ := entry
      have hfirst : first = node := hentry.1
      subst hfirst
      rw [Schedule.cutflow, hentry.2, ok_bind, ih hstatistics.2]
      rcases hstatistics.1 with ⟨hweight, hlookup⟩ | ⟨st, weight, hlookup, hweight, hsums⟩
      · simp only [hlookup, List.map_cons, SelectionTree.cutflowAt, hweight]
        rfl
      · simp only [hlookup, hsums, List.map_cons, SelectionTree.cutflowAt, hweight]
        rfl

section Plans

variable (h : ActionGraph.Built t p accepted d g) (htable : table.Suits t d.actions)
include h htable

private theorem statistics_answer {name : String} {nodes : List Nat}
    {specs : List (OutputSpec × Nat)}
    (hplan : PlanFor p d.actions name systematic nodes specs plan) {node : Nat}
    (hnode : node ∈ nodes) :
    (t.weight node = none ∧ lookupKey node plan.statistics = none) ∨
      ∃ id weight, lookupKey node plan.statistics = some id ∧ t.weight node = some weight ∧
        table.backend.answers d.actions id =
          .ok (some (.output (t.resultAt table systematic node [] (some weight)))) := by
  cases hlookup : lookupKey node plan.statistics with
  | none =>
      refine .inl ⟨?_, rfl⟩
      by_contra hweight
      have hweighted : node ∈ nodes.filter fun node => (p.index.tree.weight node).isSome := by
        rw [List.mem_filter, h.lawful.tree_eq]
        exact ⟨hnode, Option.isSome_iff_ne_none.mpr hweight⟩
      obtain ⟨entry, hentry, hfst, -⟩ := exists_aligned hplan.statistics hweighted
      have hsome : (lookupKey node plan.statistics).isSome :=
        lookupKey_isSome_iff.mpr (List.mem_map.mpr ⟨entry, hentry, hfst⟩)
      rw [hlookup] at hsome
      cases hsome
  | some id =>
      obtain ⟨node', hnode', hentry⟩ :=
        exists_aligned hplan.statistics.flip (mem_of_lookupKey hlookup)
      have hsame : node = node' := hentry.1
      subst hsame
      rw [List.mem_filter, h.lawful.tree_eq] at hnode'
      obtain ⟨weight, hweight⟩ := Option.isSome_iff_exists.mp hnode'.2
      have hanswer := StatisticsEntry.answer h.sound h.lawful htable hentry
      rw [hweight] at hanswer
      exact .inr ⟨id, weight, rfl, hweight, hanswer⟩

private theorem deliveries_of_plan (htree : s.tree = t) {r : Region ω} {a : AcceptedRegion}
    (hmem : a ∈ accepted) (haccept : r.accept? p.index = some a)
    (hfor : RegionFor p d.actions a.outputs.zipIdx a region)
    (hplan : PlanFor p d.actions a.name systematic (p.index.tree.path a.place.node)
      a.outputs.zipIdx plan) :
    plan.outputs.map (fun o => s.delivery (table.backend.answers d.actions) region r.writers
      (systematic, plan, o.1, o.2)) =
        r.writers.map fun w => .call (r.handoverFor t table systematic w) := by
  obtain ⟨hplace, hname, -, houtputs, hweight⟩ := Region.accept?_eq_some haccept
  have htarget : a.place.node = r.target.index := (h.lawful.place_lt hplace).1
  rw [h.lawful.tree_eq] at hplan
  have hcutflow : s.cutflow (table.backend.answers d.actions) plan plan.filters =
      .ok ((t.path r.target.index).map (t.cutflowAt table systematic)) := by
    rw [← htarget]
    exact cutflow_of_answers htree
      (hplan.filters.imp fun node entry hentry =>
        ⟨hentry.1, SelectionEntry.answer h.sound h.lawful htable hentry⟩)
      fun node hnode => statistics_answer h htable hplan hnode
  have hzip : a.outputs.zipIdx = r.writers.zipIdx.map fun e => (e.1.toOutputSpec, e.2) := by
    rw [houtputs, List.zipIdx_map]
    rfl
  have haligned := hplan.outputs
  rw [hzip, List.forall₂_map_left_iff] at haligned
  refine (aligned_map (f := fun e => .call (r.handoverFor t table systematic e.1)) haligned
    ?_).trans ?_
  · rintro ⟨w, index⟩ hw ⟨index', id⟩ hentry
    have hindex : index' = index := hentry.1
    subst hindex
    have hwriter : r.writers[index']? = some w := List.mem_zipIdx_iff_getElem?.mp hw
    have hspec : a.outputs[index']? = some w.toOutputSpec := by
      rw [houtputs, List.getElem?_map, hwriter]
      rfl
    have hanswer := OutputEntry.answer h.sound h.lawful htable hmem hspec h.names hentry
    have htargets : region.target = r.target.index := hfor.target_eq.trans htarget
    have hnames : region.name = r.name := hfor.name_eq.trans hname
    simp only [Schedule.delivery, hanswer, hwriter, hcutflow, htree, hnames, htargets, htarget,
      Region.handoverFor, AcceptedRegion.weightOf, hweight, h.lawful.tree_eq]
  · conv_rhs => rw [← List.zipIdx_map_fst 0 r.writers]
    rw [List.map_map]
    rfl

private theorem regionDeliveries_eq (htree : s.tree = t) {r : Region ω} {a : AcceptedRegion}
    (hmem : a ∈ accepted) (haccept : r.accept? p.index = some a)
    (hfor : RegionFor p d.actions a.outputs.zipIdx a region)
    (hwriters : s.writersOf region.name = r.writers) :
    (s.regionDeliveries (table.backend.answers d.actions) region).filterMap Delivery.handover? =
      r.expected t table := by
  have hsystematics := (Region.accept?_eq_some haccept).2.2.1
  have hall : (Execution.outputsOf region).map
      (s.delivery (table.backend.answers d.actions) region r.writers) =
        (r.expected t table).map .call := by
    have haligned := hfor.systematics
    rw [hsystematics] at haligned
    rw [Execution.outputsOf, List.map_flatMap, Region.expected, List.map_flatMap]
    refine aligned_flatMap haligned ?_
    rintro s' - ⟨s'', plan⟩ - ⟨rfl, hplan⟩
    rw [List.map_map, List.map_map]
    exact deliveries_of_plan h htable htree hmem haccept hfor hplan
  rw [Schedule.regionDeliveries, hwriters]
  exact s.deliveries_of_calls hall

end Plans

/-- The engine over a table implements its backend, in parallel or not: a frame stands for its
steps. -/
theorem EventTable.engine_implements (ht : table.Reachable) (parallel : Bool) {pool : RowLoop}
    (hpool : pool.Ordered) : (table.engine parallel pool).Implements table.backend Frame.steps
      fun held store => Client.Sound table { frames := held } store := by
  have hparent {held : List Frame} {h : Frame} (hmem : h ∈ held) (p : Frame)
      (hp : some h = some p) : p ∈ held := by
    cases hp
    exact hmem
  constructor
  case source =>
    intro held store hsound id
    exact ⟨rfl, hsound.build .source (fun _ => rfl) fun _ _ hp => nomatch hp⟩
  case applyFilter =>
    intro held store h h' hsound hmem hsteps id name predicate
    refine ⟨?_, hsound.build (fun id => .filter id h name predicate) (fun _ => rfl) fun _ =>
      hparent hmem⟩
    exact congrArg (fun steps => Except.ok (steps ++ [.filter predicate])) hsteps
  case defineColumn =>
    intro held store h h' hsound hmem hsteps id name definition
    simp only [engine, backend]
    split
    · exact ⟨rfl, by simpa [Except.toOption] using hsound⟩
    · refine ⟨?_, hsound.build (fun id => .define id h name definition) (fun _ => rfl) fun _ =>
        hparent hmem⟩
      exact congrArg (fun steps => Except.ok (steps ++ [.define name definition])) hsteps
  case pullCount =>
    intro held store h h' hsound hmem hsteps
    obtain ⟨hcount, hsound'⟩ := engine_pullCount ht parallel hpool hsound hmem
    refine ⟨?_, hsound'⟩
    rw [hcount, hsteps, ← h'.count_eq ht]
    rfl
  case pull =>
    intro held store h h' hsound hmem hsteps request
    obtain ⟨hresult, hsound'⟩ := engine_pull ht parallel hpool hsound hmem request
    refine ⟨?_, hsound'⟩
    rw [hresult, hsteps, ← h'.materialize_eq ht]
    rfl

variable {namer : Namer} {options : BuildOptions} {regions : List (Region ω)}

private theorem suits_draft (h : ActionGraph.Built t p accepted d g)
    (htable : table.Suits t g.actions) : table.Suits t d.actions :=
  ⟨htable.has, h.definedColumns_eq ▸ htable.lacks⟩

/-- What the results of the actions lead to is what the kept regions have to be handed. -/
private theorem handovers_eq (ht : t.Reachable)
    (hs : Schedule.build t namer options regions = .ok s)
    (htable : table.Suits t s.graph.actions) :
    s.handovers (table.backend.answers s.graph.actions) =
      (s.graph.kept regions).flatMap fun r => r.expected t table := by
  obtain ⟨hgraph, htree⟩ := Schedule.graph_of_build hs
  obtain ⟨p, accepted, d, hbuilt, hplans⟩ := ActionGraph.kept_planned ht hgraph
  rw [Schedule.handovers, hbuilt.answers_eq]
  refine aligned_flatMap hplans ?_
  rintro r hr plan hplan ⟨a, hmem, haccept, hfor⟩
  have hr' : r ∈ regions := ActionGraph.mem_of_mem_kept hr
  have hname : plan.name = r.name :=
    hfor.name_eq.trans (Region.accept?_eq_some haccept).2.1
  refine regionDeliveries_eq hbuilt (suits_draft hbuilt htable) htree hmem haccept hfor ?_
  rw [hname]
  exact Schedule.writersOf_of_build hs hr' hplan hname

/-- Whatever planning shares and in whichever order the actions come, executing a schedule hands to
every writer of every kept region, once under each requested systematic, what the tree means.  On
the engine, which remembers what frames came to, the run is the same, in parallel or not. -/
theorem Schedule.execute_meaning (ht : t.Reachable)
    (hs : Schedule.build t namer options regions = .ok s)
    (htable : table.Suits t s.graph.actions) (output : ω) :
    let handovers := (s.graph.kept regions).flatMap fun r => r.expected t table
    let run := s.execute table.backend output
    s.graph.regions.map RegionPlan.name = (s.graph.kept regions).map Region.name ∧
      run.2.written = handovers.map Handover.call ∧
      run.2.output = handovers.foldl Handover.store output ∧
      ∀ (parallel : Bool) (pool : RowLoop), table.Reachable → pool.Ordered →
        let run' := s.executeOn (table.engine parallel pool) {} output
        run'.1 = run.1 ∧ run'.2.slots = run.2.slots ∧
          run'.2.view.written = handovers.map Handover.call ∧
          run'.2.output = handovers.foldl Handover.store output := by
  obtain ⟨hgraph, -⟩ := Schedule.graph_of_build hs
  obtain ⟨hwritten, houtput⟩ := s.execute_spec ht hs table.backend output
  rw [handovers_eq ht hs htable] at hwritten houtput
  refine ⟨ActionGraph.names_planned ht hgraph, hwritten, houtput, ?_⟩
  intro parallel pool hreachable hpool
  have halike := Schedule.executeOn_alike
    (EventTable.engine_implements hreachable parallel hpool) (.start table) s output
  generalize s.executeOn (table.engine parallel pool) {} output = r,
    s.execute table.backend output = r' at halike hwritten houtput ⊢
  cases halike with
  | intro report h => exact ⟨rfl, h.slots_eq, h.written.trans hwritten, h.output_eq.trans houtput⟩

/-- Three results are handed over: all events, the hard ones, and the hard ones under `up`. -/
theorem Schedule.execute_meaning_sample : ∃ s : Schedule Nat,
    Schedule.build Sample.tree Sample.namer {} Sample.regions = .ok s ∧
      Sample.table.Suits Sample.tree s.graph.actions ∧
      let x := (s.execute Sample.table.backend 0).2
      let x' := (s.executeOn (Sample.table.engine true EventTable.halves) {} 0).2
      x.written.map (fun call => (call.context.region, call.context.systematic,
          call.result.entries)) =
        [("control", .nominal, 2), ("signal", .nominal, 1), ("signal", .variation "up", 2)] ∧
      x.output = 5 ∧ x'.view.written = x.written ∧ x'.output = 5 := by
  obtain ⟨g, hg⟩ := Sample.exists_build
  obtain ⟨s, hs, rfl⟩ := Schedule.exists_build Sample.tree_reachable hg
  have hgraph : s.graph ∈
      (ActionGraph.build Sample.tree Sample.namer {} Sample.regions).toOption := by
    rw [hg]
    rfl
  have hlacks : ∀ g ∈ (ActionGraph.build Sample.tree Sample.namer {} Sample.regions).toOption,
      ∀ column ∈ definedColumns g.actions, (Sample.table.column? column).isNone := by decide
  have hsuits : Sample.table.Suits Sample.tree s.graph.actions := by
    constructor
    · have hhas : ∀ column ∈ Sample.tree.datasetColumns,
          (Sample.table.column? column).isSome := by decide
      exact fun column hcolumn => Option.isSome_iff_exists.mp (hhas column hcolumn)
    · intro column hcolumn
      exact Option.isNone_iff_eq_none.mp (hlacks s.graph hgraph column hcolumn)
  have hexpected : ∀ g ∈ (ActionGraph.build Sample.tree Sample.namer {} Sample.regions).toOption,
      let handovers := (g.kept Sample.regions).flatMap fun r => r.expected Sample.tree Sample.table
      (handovers.map Handover.call).map (fun call => (call.context.region, call.context.systematic,
          call.result.entries)) =
        [("control", .nominal, 2), ("signal", .nominal, 1), ("signal", .variation "up", 2)] ∧
      handovers.foldl Handover.store 0 = 5 := by decide
  obtain ⟨-, hwritten, houtput, hengine⟩ := s.execute_meaning Sample.tree_reachable hs hsuits 0
  obtain ⟨hcalls, hstored⟩ := hexpected s.graph hgraph
  obtain ⟨-, -, hwritten', houtput'⟩ :=
    hengine true EventTable.halves EventTable.sample_reachable EventTable.halves_ordered
  refine ⟨s, hs, hsuits, ?_, ?_, ?_, ?_⟩
  · rw [hwritten, hcalls]
  · rw [houtput, hstored]
  · rw [hwritten', hwritten]
  · rw [houtput', hstored]

end SelectionPlan
