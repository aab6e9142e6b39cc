import SelectionPlan.Proofs.Graph.Unique
import SelectionPlan.Proofs.Schedule.Built

/-!
# Plans hang together

All filters of a plan are on the way to each of its outputs, so whoever has realized an output has
realized them.  The statistics are asked for in the order of the filters, every one of them.
-/

namespace SelectionPlan

/-- A plan with actions that do what its entries say, its filters on the way to its outputs. -/
structure SystematicPlan.Coherent (actions : List Action) (region : String)
    (systematic : Systematic) (plan : SystematicPlan) : Prop where
  output : ∀ e ∈ plan.outputs, ∃ a name request, actions[e.2]? = some a ∧
    a.systematic = systematic ∧ a.operation = .output region e.1 name request
  filter : ∀ e ∈ plan.filters, IsFrame actions e.2
  statistics : ∀ e ∈ plan.statistics, ∃ a filter weight effective request,
    actions[e.2]? = some a ∧ a.operation = .statistics filter weight effective request
  passed : ∀ e ∈ plan.outputs, ∀ f ∈ plan.filters, f.2 ∈ lineageIds actions e.2
  summed : plan.filters.filterMap (fun f => lookupKey f.1 plan.statistics) =
    plan.statistics.map Prod.snd

theorem Wired.frame_of_lineage {actions : List Action} (h : Wired actions) {id i : Nat}
    (hi : i ∈ lineageIds actions id) (hne : i ≠ id) : IsFrame actions i := by
  cases ha : actions[id]? with
  | none =>
      rw [lineageIds, lineage_of_none ha] at hi
      cases hi
  | some a =>
      obtain ⟨c, hc, rfl⟩ := mem_lineageIds.mp hi
      clear hi
      induction id, a, ha using h.toLinked.induction with
      | start id a ha hinput =>
          rw [h.lineage_eq ha, hinput, Option.elim_none, List.mem_singleton] at hc
          subst hc
          exact absurd (h.id_eq id c ha) hne
      | step id a input b ha hinput hb ih =>
          rw [h.lineage_eq ha, hinput, Option.elim_some, List.mem_cons] at hc
          rcases hc with rfl | hc
          · exact absurd (h.id_eq id c ha) hne
          · by_cases hsame : c.id = input
            · rw [hsame]
              exact h.input_frame id a input ha hinput
            · exact ih hc hsame

section Plan

variable {t : SelectionTree} {p : Planner} {accepted : List AcceptedRegion} {d : Draft}
  {g : ActionGraph} {r : AcceptedRegion} {s : Systematic} {plan : SystematicPlan}

/-- The selections on the way to an output are those that its plan has for the nodes. -/
private theorem passed_of_planFor (h : ActionGraph.Built t p accepted d g)
    (hd : d.Planned p accepted) (hr : r ∈ accepted)
    (hplan : PlanFor p d.actions r.name s (p.index.tree.path r.place.node) r.outputs.zipIdx plan)
    {e f : Nat × ActionId} (he : e ∈ plan.outputs) (hf : f ∈ plan.filters) :
    f.2 ∈ lineageIds d.actions e.2 := by
  obtain ⟨⟨spec, writer⟩, hspec, houtput⟩ := exists_aligned hplan.outputs.flip he
  obtain ⟨a, ha, hka⟩ := OutputEntry.consumer houtput
  obtain ⟨node, hnode, hselects⟩ := exists_aligned hplan.filters.flip hf
  obtain ⟨place, c, hplace, hc, hkc⟩ := SelectionEntry.consumer hselects
  have hspec : r.outputs[writer]? = some spec := List.mk_mem_zipIdx_iff_getElem?.mp hspec
  have htasks := h.sound.consumer_tasks h.lawful h.names ha hka
  simp only [Consumer.tasks, find?_name hr h.names, hspec] at htasks
  have hpath : node ∈ t.path r.place.node := h.lawful.tree_eq ▸ hnode
  have hmem : .select node (place.chainUnder s) ∈ tasks d.actions e.2 := by
    rw [htasks, mem_extended, h.lawful.selectionTasks_chainUnder (h.valid r hr).place_eq]
    exact .inl (mem_selectionTasks_select.mpr ⟨place,
      h.lawful.mem_trail.mpr ⟨node, hpath, hplace⟩, (h.lawful.place_lt hplace).1, rfl⟩)
  obtain ⟨b, hb, htask⟩ := mem_tasks.mp hmem
  have hbmem := List.mem_of_getElem? (h.sound.toLinked.lineage_suffix ha hb).1
  have hsame := hd.eq_of_selection hbmem (List.mem_of_getElem? hc) h.lawful
    (Action.consumer?_of_select htask) hkc
  exact mem_lineageIds.mpr ⟨b, hb, by rw [hsame, h.sound.id_eq f.2 c hc]⟩

private theorem summed_of_planFor (h : ActionGraph.Built t p accepted d g) (hr : r ∈ accepted)
    {specs : List (OutputSpec × Nat)}
    (hplan : PlanFor p d.actions r.name s (p.index.tree.path r.place.node) specs plan) :
    plan.filters.filterMap (fun f => lookupKey f.1 plan.statistics) =
      plan.statistics.map Prod.snd := by
  have hfilters : plan.filters.map Prod.fst = p.index.tree.path r.place.node := by
    rw [aligned_map (f := id) hplan.filters fun node _ e he => he.1, List.map_id]
  have hstatistics : plan.statistics.map Prod.fst = (p.index.tree.path r.place.node).filter
      fun node => (p.index.tree.weight node).isSome := by
    rw [aligned_map (f := id) hplan.statistics fun node _ e he => he.1, List.map_id]
  have hnodup : (plan.filters.map Prod.fst).Nodup := by
    rw [hfilters, h.lawful.tree_eq]
    exact h.lawful.wellFormed.nodup_path (h.lawful.place_lt (h.valid r hr).place_eq).2
  have hsub : (plan.statistics.map Prod.fst).Sublist (plan.filters.map Prod.fst) := by
    rw [hfilters, hstatistics]
    exact List.filter_sublist
  rw [← filterMap_lookupKey hnodup hsub, List.filterMap_map]
  rfl

theorem ActionGraph.Built.coherent (h : ActionGraph.Built t p accepted d g)
    (hd : d.Planned p accepted) {region : RegionPlan} (hregion : region ∈ g.regions)
    {entry : Systematic × SystematicPlan} (hentry : entry ∈ region.systematics) :
    entry.2.Coherent g.actions region.name entry.1 := by
  obtain ⟨r, hr, hfor⟩ := exists_aligned h.plans.flip hregion
  obtain ⟨s, hs, hsame, hplan⟩ := exists_aligned hfor.systematics.flip hentry
  subst hsame
  have hget {id : Nat} {a : Action} (ha : d.actions[id]? = some a) :
      g.actions[id]? = some (noteConsumers g.regions d.actions a) := by
    rw [h.getElem?_actions, ha, Option.map_some]
  refine ⟨fun e he => ?_, fun e he => ?_, fun e he => ?_, fun e he f hf => ?_,
    summed_of_planFor h hr hplan⟩
  · obtain ⟨spec, hspec, hwriter, a, request, ha, hsystematic, hop⟩ :=
      exists_aligned hplan.outputs.flip he
    rw [hfor.name_eq, hwriter]
    exact ⟨_, _, request, hget ha, hsystematic, hop⟩
  · obtain ⟨node, hnode, -, place, a, -, ha, htask⟩ := exists_aligned hplan.filters.flip he
    refine ⟨_, hget ha, ?_⟩
    change a.task.isSome
    rw [htask]
    rfl
  · obtain ⟨node, hnode, -, place, weight, c, base, b, a, -, -, -, -, -, ha, hsums⟩ :=
      exists_aligned hplan.statistics.flip he
    cases hop : a.operation with
    | statistics filter w effective request =>
        exact ⟨_, filter, w, effective, request, hget ha, hop⟩
    | _ => simp [Action.sums, hop] at hsums
  · rw [h.lineageIds_eq]
    exact passed_of_planFor h hd hr hplan he hf

end Plan

namespace ActionGraph

variable {ω : Type} {t : SelectionTree} {namer : Namer} {options : BuildOptions}
  {regions : List (Region ω)} {g : ActionGraph}

theorem coherent_of_build (ht : t.Reachable) (h : build t namer options regions = .ok g) :
    ∀ region ∈ g.regions, ∀ entry ∈ region.systematics,
      entry.2.Coherent g.actions region.name entry.1 := by
  obtain ⟨p, accepted, d, -, -, -, -, hplan, hbuilt⟩ := built_of_build ht h
  have hd := Planner.planAll_planned hbuilt.lawful hbuilt.sound.toLinked hplan
  exact fun region hregion entry hentry => hbuilt.coherent hd hregion hentry

end ActionGraph
end SelectionPlan
