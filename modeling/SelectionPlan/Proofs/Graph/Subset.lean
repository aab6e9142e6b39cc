import SelectionPlan.Proofs.Graph.Renumber

/-!
# Regions do not interfere

If some regions can be planned together, then any of them can be planned without the others, and
every entry of their plans has the same lineage as before but for the numbers of the actions.
-/

namespace SelectionPlan

section Granted

variable {t : SelectionTree} {p : Planner} {accepted : List AcceptedRegion}
  {G : ColumnRef → Systematic → Prop} {d : Draft}

def Draft.Computes (d : Draft) (c : ColumnRef) (s : Systematic) : Prop :=
  ∃ a ∈ d.actions, a.task = some (.define c s)

theorem Draft.Sound.clean (h : d.Sound p accepted G) (hlaw : ScopeIndex.Lawful t p.index) :
    p.Clean d.Computes := by
  have hown {c : Column} {older : Scope} {s : Systematic} (hdecl : p.index.Declares c older)
      (hc : d.Computes c.ref s) :
      lookupKey (p.namer.physical c.name s) d.registry.dataset = none ∧
        lookupKey (p.namer.physical c.name s) d.registry.assigned = some (c.name, s) := by
    obtain ⟨a, ha, htask⟩ := hc
    have hmem := ha
    cases h.made a ha with
    | @define c' older' s' id tip hdecl' =>
        simp only [Planner.defineAction_task, Option.some.injEq, Task.define.injEq] at htask
        obtain ⟨href, rfl⟩ := htask
        obtain ⟨rfl, -⟩ := hlaw.eq_of_ref hdecl' hdecl href
        exact h.registered _ hmem _ _ _ _ rfl
    | source => simp at htask
    | filter => simp at htask
    | statistics => simp at htask
    | output => simp at htask
  intro c older s hdecl hc
  obtain ⟨hfree, howner⟩ := hown hdecl hc
  refine ⟨h.dataset_eq ▸ hfree, fun c' older' s' hdecl' hc' hname => ?_⟩
  obtain ⟨-, howner'⟩ := hown hdecl' hc'
  rw [hname, howner] at howner'
  simp only [Option.some.injEq, Prod.mk.injEq] at howner'
  exact ⟨howner'.1.symm, howner'.2.symm⟩

private theorem computes_of_tasks (h : d.Sound p accepted G) {id : Nat} {a : Action}
    (ha : d.actions[id]? = some a) {c : ColumnRef} {s : Systematic}
    (hmem : .define c s ∈ tasks d.actions id) : d.Computes c s := by
  obtain ⟨b, hb, htask⟩ := mem_tasks.mp hmem
  exact ⟨b, List.mem_of_getElem? (h.toLinked.lineage_suffix ha hb).1, htask⟩

theorem ActionGraph.Built.computes {g : ActionGraph} (h : ActionGraph.Built t p accepted d g)
    {c : ColumnRef} {s : Systematic} (hdemand : p.Demands accepted c s) : d.Computes c s := by
  have hplan {r : AcceptedRegion} (hr : r ∈ accepted) {s : Systematic} (hs : s ∈ r.systematics) :
      ∃ plan, PlanFor p d.actions r.name s (p.index.tree.path r.place.node) r.outputs.zipIdx
        plan := by
    obtain ⟨plan, -, hplan⟩ := exists_aligned h.plans hr
    obtain ⟨entry, -, -, hentry⟩ := exists_aligned hplan.systematics hs
    exact ⟨entry.2, hentry⟩
  cases hdemand with
  | @selection r s place need hr hs hplace hneed =>
      obtain ⟨plan, hplan⟩ := hplan hr hs
      obtain ⟨m, hm, hpm⟩ := h.lawful.mem_trail.mp hplace
      have hnode := (h.lawful.place_lt hpm).1
      subst hnode
      obtain ⟨entry, -, hentry⟩ := exists_aligned hplan.filters (h.lawful.tree_eq.symm ▸ hm)
      obtain ⟨place', a, hplace', ha, hk⟩ := hentry.consumer
      rw [hpm, Option.some.injEq] at hplace'
      subst hplace'
      refine computes_of_tasks h.sound ha ?_
      rw [h.sound.consumer_tasks h.lawful h.names ha hk, Consumer.tasks,
        h.lawful.selectionTasks_chainUnder hpm, mem_selectionTasks_define]
      have hself : place ∈ p.index.trail place.node := by
        rw [h.lawful.trail_eq hpm]
        exact List.mem_cons_self
      exact ⟨place, hself, need, hneed, rfl, rfl⟩
  | @weight r s place weight need hr hs hplace hw hneed =>
      obtain ⟨plan, hplan⟩ := hplan hr hs
      obtain ⟨m, hm, hpm⟩ := h.lawful.mem_trail.mp hplace
      have hnode := (h.lawful.place_lt hpm).1
      subst hnode
      have hmem : place.node ∈ (p.index.tree.path r.place.node).filter fun node =>
          (p.index.tree.weight node).isSome := by
        rw [List.mem_filter]
        exact ⟨h.lawful.tree_eq.symm ▸ hm, by simp [hw]⟩
      obtain ⟨entry, -, hentry⟩ := exists_aligned hplan.statistics hmem
      obtain ⟨place', weight', c, a, hplace', hw', hc, ha, hk⟩ := hentry.consumer h.sound
      rw [hpm, Option.some.injEq] at hplace'
      subst hplace'
      rw [hw, Option.some.injEq] at hw'
      subst hw'
      refine computes_of_tasks h.sound ha ?_
      rw [h.sound.consumer_tasks h.lawful h.names ha hk]
      have heffective := Planner.reads_effective (s := s) (h.lawful.resolved hpm) hc
      have hread := (Scope.mem_needs.mp hneed).1
      simp only [Consumer.tasks, hpm, hw, mem_extended, ← Scope.needs_congr heffective]
      exact .inr ⟨need, hneed, by rw [heffective _ _ hread]⟩
  | @output r s spec need hr hs hspec hneed =>
      obtain ⟨plan, hplan⟩ := hplan hr hs
      obtain ⟨writer, hwriter, hget⟩ := List.getElem_of_mem hspec
      have hget' : r.outputs[writer]? = some spec := List.getElem?_eq_some_iff.mpr ⟨hwriter, hget⟩
      obtain ⟨entry, -, hentry⟩ := exists_aligned hplan.outputs
        (List.mk_mem_zipIdx_iff_getElem?.mpr hget')
      obtain ⟨a, ha, hk⟩ := hentry.consumer
      refine computes_of_tasks h.sound ha ?_
      rw [h.sound.consumer_tasks h.lawful h.names ha hk]
      simp only [Consumer.tasks, find?_name hr h.names, hget', mem_extended]
      exact .inr ⟨need, hneed, rfl⟩

end Granted

section SamePlan

/-- Entries for the same node or writer whose actions have the same lineage. -/
def SameEntry (actions actions' : List Action) (entry entry' : Nat × ActionId) : Prop :=
  entry.1 = entry'.1 ∧ SameChain actions actions' entry.2 entry'.2

structure SamePlan (actions actions' : List Action) (plan plan' : SystematicPlan) : Prop where
  filters : List.Forall₂ (SameEntry actions actions') plan.filters plan'.filters
  outputs : List.Forall₂ (SameEntry actions actions') plan.outputs plan'.outputs
  statistics : List.Forall₂ (SameEntry actions actions') plan.statistics plan'.statistics

structure SameRegion {ω : Type} (actions actions' : List Action) (r : Region ω)
    (plan plan' : RegionPlan) : Prop where
  name : plan.name = r.name ∧ plan'.name = r.name
  target : plan.target = r.target.index ∧ plan'.target = r.target.index
  requested : plan.systematics.map Prod.fst = r.systematics
  systematics : List.Forall₂ (fun entry entry' =>
    entry.1 = entry'.1 ∧ SamePlan actions actions' entry.2 entry'.2) plan.systematics
    plan'.systematics

variable {t : SelectionTree} {p : Planner} {accepted accepted' : List AcceptedRegion}
  {d d' : Draft} {g g' : ActionGraph}

theorem SameChain.noted (h : ActionGraph.Built t p accepted d g)
    (h' : ActionGraph.Built t p accepted' d' g') {id id' : Nat}
    (hsame : SameChain d.actions d'.actions id id') : SameChain g.actions g'.actions id id' := by
  obtain ⟨f, hf, horder, hactions⟩ := hsame
  refine ⟨f, hf, ?_, ?_⟩
  · rw [h.lineage_eq]
    rintro i ⟨b, hb, rfl⟩ j ⟨c, hc, rfl⟩ hlt
    obtain ⟨b', hb', rfl⟩ := List.mem_map.mp hb
    obtain ⟨c', hc', rfl⟩ := List.mem_map.mp hc
    exact horder ⟨b', hb', rfl⟩ ⟨c', hc', rfl⟩ hlt
  · rw [h.lineage_eq, h'.lineage_eq, List.forall₂_map_left_iff, List.forall₂_map_right_iff]
    exact hactions

private theorem samePlan (h : ActionGraph.Built t p accepted d g)
    (h' : ActionGraph.Built t p accepted' d' g') (hsub : accepted ⊆ accepted') {region : String}
    {s : Systematic} {nodes : List Nat} {specs : List (OutputSpec × Nat)}
    {plan plan' : SystematicPlan} (hplan : PlanFor p d.actions region s nodes specs plan)
    (hplan' : PlanFor p d'.actions region s nodes specs plan') :
    SamePlan g.actions g'.actions plan plan' := by
  have hsame {id id' : Nat} {a a' : Action} {k : Consumer} (ha : d.actions[id]? = some a)
      (ha' : d'.actions[id']? = some a') (hk : a.consumer? = some k)
      (hk' : a'.consumer? = some k) : SameChain g.actions g'.actions id id' :=
    (sameChain_of_consumer h.lawful h.sound h'.sound hsub h.names h'.names ha ha' hk hk').noted h h'
  refine ⟨aligned_both hplan.filters hplan'.filters ?_,
    aligned_both hplan.outputs hplan'.outputs ?_,
    aligned_both hplan.statistics hplan'.statistics ?_⟩
  · intro node entry entry' he he'
    obtain ⟨place, a, hplace, ha, hk⟩ := he.consumer
    obtain ⟨place', a', hplace', ha', hk'⟩ := he'.consumer
    rw [hplace, Option.some.injEq] at hplace'
    subst hplace'
    exact ⟨he.1.trans he'.1.symm, hsame ha ha' hk hk'⟩
  · intro spec entry entry' he he'
    obtain ⟨a, ha, hk⟩ := he.consumer
    obtain ⟨a', ha', hk'⟩ := he'.consumer
    exact ⟨he.1.trans he'.1.symm, hsame ha ha' hk hk'⟩
  · intro node entry entry' he he'
    obtain ⟨place, weight, c, a, hplace, hw, hc, ha, hk⟩ := he.consumer h.sound
    obtain ⟨place', weight', c', a', hplace', hw', hc', ha', hk'⟩ := he'.consumer h'.sound
    rw [hplace, Option.some.injEq] at hplace'
    subst hplace'
    rw [hw, Option.some.injEq] at hw'
    subst hw'
    rw [hc, Option.some.injEq] at hc'
    subst hc'
    exact ⟨he.1.trans he'.1.symm, hsame ha ha' hk hk'⟩

end SamePlan

section Subset

variable {ω : Type} {t : SelectionTree} {namer : Namer} {options : BuildOptions}
  {regions all : List (Region ω)} {g g' : ActionGraph}

private theorem exists_accepted (h : ActionGraph.build t namer options all = .ok g')
    (hskipped : g'.skipped = []) {index : ScopeIndex} (hindex : ScopeIndex.build t = .ok index)
    {r : Region ω} (hr : r ∈ all) : ∃ q, r.accept? index = some q := by
  have hnames := ActionGraph.skipped_of_build hindex h
  rw [hskipped, List.map_nil, eq_comm, List.map_eq_nil_iff, List.filter_eq_nil_iff] at hnames
  have hsome := hnames r (mem_sortStable.mpr hr)
  rw [← Option.isSome_iff_exists]
  simpa [Option.isSome_iff_ne_none] using hsome

private theorem exists_build (ht : t.Reachable) (hsub : regions.Sublist all)
    (h : ActionGraph.build t namer options all = .ok g') (hskipped : g'.skipped = []) :
    ∃ g, ActionGraph.build t namer options regions = .ok g ∧ g.skipped = [] := by
  obtain ⟨⟨index, namer', cost⟩, accepted', d', hindex, hnamer, hdefault, haccepted', -, hb'⟩ :=
    ActionGraph.built_of_build ht h
  simp only at hindex hnamer hdefault haccepted'
  subst hnamer hdefault
  obtain ⟨hcost, hregions, index', accepted, skipped, plans, b, hindex', hnames, haccept, hcolumns,
    -, rfl⟩ := ActionGraph.build_eq_ok.mp h
  rw [hindex, Except.ok.injEq] at hindex'
  subst hindex'
  have hregions' : checkRegions t []
      (sortStable (fun a b => decide (a.name < b.name)) regions) = .ok () := by
    obtain ⟨hall, hnodup⟩ := checkRegions_eq_ok.mp hregions
    refine checkRegions_eq_ok.mpr ⟨fun r hr => hall r ?_, ?_⟩
    · rw [mem_sortStable] at hr ⊢
      exact hsub.subset hr
    · rw [((perm_sortStable _).map _).nodup_iff] at hnodup ⊢
      exact hnodup.sublist (hsub.map _)
  have hall : ∀ r ∈ sortStable (fun a b => decide (a.name < b.name)) regions,
      (r.accept? index).isSome := fun r hr => Option.isSome_iff_exists.mpr
    (exists_accepted h hskipped hindex (hsub.subset (mem_sortStable.mp hr)))
  have haccept' := acceptRegions_all options.onUnknownSystematic hall
  have hmore : (sortStable (fun a b => decide (a.name < b.name)) regions).filterMap
      (Region.accept? index) ⊆ accepted' := by
    rw [haccepted']
    exact accepted_subset index hsub.subset _
  have hvalid := fun q hq => hb'.valid q (hmore hq)
  have hcolumns' : ((sortStable (fun a b => decide (a.name < b.name)) regions).filterMap
      (Region.accept? index)).forM AcceptedRegion.checkColumns = .ok () :=
    forM_eq_ok.mpr fun q hq => checkColumns_eq_ok.mpr (hvalid q hq).visible
  obtain ⟨⟨plans', b'⟩, hplan, -⟩ := (Builder.planAll_meets hb'.lawful
    (fun q hq => (hvalid q hq).place_eq) (Planner.planAll_meets hb'.lawful (G := d'.Computes)
      (fun c s hdemand => hb'.computes (hdemand.mono hmore)) hvalid)).exists_ok
    (hb'.sound.clean hb'.lawful).not_clash
  exact ⟨_, ActionGraph.build_eq_ok.mpr ⟨hcost, hregions', index, _, _, plans', b', hindex, hnames,
    haccept', hcolumns', hplan, rfl⟩, rfl⟩

/-- Whatever is planned with others without a region being skipped can be planned alone, and then
the lineage of every filter, statistics and output entry of its plans is the one it has among the
others, but for the numbers of the actions. -/
theorem build_sublist (ht : t.Reachable) (hsub : regions.Sublist all)
    (h : ActionGraph.build t namer options all = .ok g') (hskipped : g'.skipped = []) :
    ∃ g, ActionGraph.build t namer options regions = .ok g ∧ g.skipped = [] ∧
      ∀ r ∈ regions, ∃ plan ∈ g.regions, ∃ plan' ∈ g'.regions,
        SameRegion g.actions g'.actions r plan plan' := by
  obtain ⟨g, hg, hnone⟩ := exists_build ht hsub h hskipped
  refine ⟨g, hg, hnone, fun r hr => ?_⟩
  obtain ⟨⟨index, namer', cost⟩, accepted', d', hindex, hnamer, hdefault, haccepted', -, hb'⟩ :=
    ActionGraph.built_of_build ht h
  obtain ⟨⟨index', namer'', cost'⟩, accepted, d, hindex', hnamer', hdefault', haccepted, -, hb⟩ :=
    ActionGraph.built_of_build ht hg
  simp only at hindex hnamer hdefault haccepted' hindex' hnamer' hdefault' haccepted
  rw [hindex, Except.ok.injEq] at hindex'
  subst hindex' hnamer hnamer' hdefault hdefault'
  obtain ⟨q, hq⟩ := exists_accepted h hskipped hindex (hsub.subset hr)
  obtain ⟨hplace, hname, hsys, -⟩ := Region.accept?_eq_some hq
  have hmem : q ∈ accepted := by
    rw [haccepted, List.mem_filterMap]
    exact ⟨r, mem_sortStable.mpr hr, hq⟩
  have hmem' : q ∈ accepted' := by
    rw [haccepted', List.mem_filterMap]
    exact ⟨r, mem_sortStable.mpr (hsub.subset hr), hq⟩
  have hmore : accepted ⊆ accepted' := by
    rw [haccepted, haccepted']
    exact accepted_subset index hsub.subset _
  obtain ⟨plan, hplan, hfor⟩ := exists_aligned hb.plans hmem
  obtain ⟨plan', hplan', hfor'⟩ := exists_aligned hb'.plans hmem'
  have htarget : q.place.node = r.target.index := (hb.lawful.place_lt hplace).1
  refine ⟨plan, hplan, plan', hplan', ⟨hfor.name_eq.trans hname, hfor'.name_eq.trans hname⟩,
    ⟨hfor.target_eq.trans htarget, hfor'.target_eq.trans htarget⟩, ?_, ?_⟩
  · rw [(Planner.plansFor_entries hfor.systematics).1, hsys]
  · refine aligned_both hfor.systematics hfor'.systematics ?_
    rintro s entry entry' ⟨hs, he⟩ ⟨hs', he'⟩
    exact ⟨hs.trans hs'.symm, samePlan hb hb' hmore he he'⟩

end Subset
end SelectionPlan
