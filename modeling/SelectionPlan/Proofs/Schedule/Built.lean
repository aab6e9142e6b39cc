import SelectionPlan.Schedule.Basic
import SelectionPlan.Proofs.Graph.Built
import SelectionPlan.Proofs.Schedule.Order

/-!
# Schedules of graphs that planning builds

Planning never deadlocks.  A schedule constructs every action of its graph in time, and its plans
are made of actions of the graph.
-/

namespace SelectionPlan

structure Wired (actions : List Action) : Prop extends Chained actions where
  input_frame : ∀ (i : Nat) (a : Action) (j : Nat), actions[i]? = some a → a.input = some j →
    IsFrame actions j

def RegionPlan.Within (actions : List Action) (region : RegionPlan) : Prop :=
  ∀ entry ∈ region.systematics, ∀ id ∈ entry.2.roots, ∃ a, actions[id]? = some a

variable {ω : Type}

section Plans

variable {p : Planner} {actions : List Action}

theorem RegionFor.within {specs : List (OutputSpec × Nat)} {r : AcceptedRegion} {plan : RegionPlan}
    (h : RegionFor p actions specs r plan) : plan.Within actions := by
  intro entry hentry id hid
  obtain ⟨s, -, -, hplan⟩ := exists_aligned h.systematics.flip hentry
  simp only [SystematicPlan.roots, List.map_append, List.mem_append, List.mem_map] at hid
  rcases hid with (⟨e, he, rfl⟩ | ⟨e, he, rfl⟩) | ⟨e, he, rfl⟩
  · obtain ⟨spec, -, -, a, request, ha, -⟩ := exists_aligned hplan.outputs.flip he
    exact ⟨a, ha⟩
  · obtain ⟨node, -, -, place, a, -, ha, -⟩ := exists_aligned hplan.filters.flip he
    exact ⟨a, ha⟩
  · obtain ⟨node, -, -, place, weight, c, base, e', a, -, -, -, -, -, ha, -⟩ :=
      exists_aligned hplan.statistics.flip he
    exact ⟨a, ha⟩

namespace ActionGraph.Built

variable {t : SelectionTree} {accepted : List AcceptedRegion} {d : Draft} {g : ActionGraph}
  (h : Built t p accepted d g)
include h

theorem wired : Wired g.actions := by
  refine ⟨h.chained, fun i a j ha hj => ?_⟩
  rw [h.getElem?_actions, Option.map_eq_some_iff] at ha
  obtain ⟨c, hc, rfl⟩ := ha
  obtain ⟨e, he, htask⟩ := (h.sound.made c (List.mem_of_getElem? hc)).input_frame hj
  exact ⟨noteConsumers g.regions d.actions e, by rw [h.getElem?_actions, he]; rfl, htask⟩

theorem within : ∀ region ∈ g.regions, region.Within g.actions := by
  intro region hregion entry hentry id hid
  obtain ⟨r, -, hfor⟩ := exists_aligned h.plans.flip hregion
  obtain ⟨a, ha⟩ := hfor.within entry hentry id hid
  exact ⟨_, by rw [h.getElem?_actions, ha]; rfl⟩

theorem mem_consumers {a : Action} {region : RegionPlan}
    {entry : Systematic × SystematicPlan} {id : Nat} (hregion : region ∈ g.regions)
    (hentry : entry ∈ region.systematics) (hid : id ∈ entry.2.roots) (ha : a ∈ g.actions)
    (hmem : a.id ∈ lineageIds g.actions id) : region.name ∈ a.consumers := by
  obtain ⟨-, c, hc, hac⟩ := h.of_mem ha
  obtain ⟨e, he⟩ := h.within region hregion entry hentry id hid
  rw [h.getElem?_actions, Option.map_eq_some_iff] at he
  obtain ⟨e', he', -⟩ := he
  have hneeded : c.id ∈ region.needed d.actions := by
    rw [RegionPlan.needed, mem_sortDistinct, List.mem_flatMap]
    refine ⟨id, List.mem_flatMap.mpr ⟨entry, hentry, hid⟩, ?_⟩
    rw [h.sound.chained.closure_eq he', ← h.lineageIds_eq, h.sound.id_eq a.id c hc]
    exact hmem
  rw [hac]
  refine List.mem_map_of_mem (List.mem_filter.mpr ⟨hregion, ?_⟩)
  simpa using hneeded

end ActionGraph.Built
end Plans

namespace Schedule

variable {t : SelectionTree} {namer : Namer} {options : BuildOptions} {regions : List (Region ω)}
  {s : Schedule ω} {g : ActionGraph}

theorem build_eq_ok : build t namer options regions = .ok s ↔ ∃ graph order,
    ActionGraph.build t namer options regions = .ok graph ∧
    constructionOrder graph.actions = .ok order ∧
    s = ⟨t, graph, order, (regions.filter fun r =>
      graph.regions.any fun plan => plan.name == r.name).map fun r => (r.name, r.writers)⟩ := by
  rw [build]
  cases hg : ActionGraph.build t namer options regions with
  | error e =>
      constructor
      · intro h
        cases h
      · rintro ⟨graph, order, hgraph, -⟩
        cases hgraph
  | ok graph =>
      simp only [bind_eq_ok]
      constructor
      · rintro ⟨order, horder, h⟩
        cases h
        exact ⟨graph, order, rfl, horder, rfl⟩
      · rintro ⟨graph', order, hgraph, horder, rfl⟩
        cases hgraph
        exact ⟨order, horder, rfl⟩

theorem graph_of_build (h : build t namer options regions = .ok s) :
    ActionGraph.build t namer options regions = .ok s.graph ∧ s.tree = t := by
  obtain ⟨graph, order, hgraph, -, rfl⟩ := build_eq_ok.mp h
  exact ⟨hgraph, rfl⟩

theorem exists_build (ht : t.Reachable) (h : ActionGraph.build t namer options regions = .ok g) :
    ∃ s, build t namer options regions = .ok s ∧ s.graph = g := by
  obtain ⟨p, accepted, d, -, -, -, -, -, hbuilt⟩ := ActionGraph.built_of_build ht h
  obtain ⟨order, horder, -⟩ := hbuilt.chained.constructionOrder_ready
  exact ⟨_, build_eq_ok.mpr ⟨g, order, h, horder, rfl⟩, rfl⟩

/-- Schedules are refused when their graphs are, as they never deadlock. -/
theorem build_eq_error (ht : t.Reachable) {e : ScheduleError} :
    build t namer options regions = .error e ↔
      ∃ cause, ActionGraph.build t namer options regions = .error cause ∧ e = .build cause := by
  cases hgraph : ActionGraph.build t namer options regions with
  | error cause =>
      rw [build, hgraph]
      constructor
      · intro h
        cases h
        exact ⟨cause, rfl, rfl⟩
      · rintro ⟨cause', hcause, rfl⟩
        cases hcause
        rfl
  | ok g =>
      obtain ⟨s, hs, -⟩ := exists_build ht hgraph
      rw [hs]
      constructor
      · intro h
        cases h
      · rintro ⟨cause, hcause, -⟩
        cases hcause

theorem nodup_writers (h : build t namer options regions = .ok s) :
    (s.writers.map Prod.fst).Nodup := by
  obtain ⟨graph, order, hgraph, horder, rfl⟩ := build_eq_ok.mp h
  rw [List.map_map]
  exact (ActionGraph.names_of_build hgraph).sublist (List.filter_sublist.map _)

theorem writersOf_of_build (h : build t namer options regions = .ok s) {r : Region ω}
    (hr : r ∈ regions) {plan : RegionPlan} (hplan : plan ∈ s.graph.regions)
    (hname : plan.name = r.name) : s.writersOf r.name = r.writers := by
  have hnodup := nodup_writers h
  obtain ⟨graph, order, hgraph, horder, rfl⟩ := build_eq_ok.mp h
  have hmem : (r.name, r.writers) ∈ (regions.filter fun r =>
      graph.regions.any fun plan => plan.name == r.name).map fun r => (r.name, r.writers) := by
    refine List.mem_map.mpr ⟨r, List.mem_filter.mpr ⟨hr, ?_⟩, rfl⟩
    exact List.any_eq_true.mpr ⟨plan, hplan, by simp [hname]⟩
  rw [writersOf, lookupKey_of_mem hnodup hmem]
  rfl

theorem order_of_build (ht : t.Reachable) (h : build t namer options regions = .ok s) :
    Wired s.graph.actions ∧ ReadyOrder s.graph.actions [] s.order ∧
      ∀ id a, s.graph.actions[id]? = some a → id ∈ s.order := by
  obtain ⟨graph, order, hgraph, horder, rfl⟩ := build_eq_ok.mp h
  obtain ⟨p, accepted, d, -, -, -, -, -, hbuilt⟩ := ActionGraph.built_of_build ht hgraph
  obtain ⟨order', horder', hready, hall⟩ := hbuilt.chained.constructionOrder_ready
  rw [horder, Except.ok.injEq] at horder'
  subst horder'
  refine ⟨hbuilt.wired, hready, fun id a ha => ?_⟩
  rw [← hbuilt.chained.id_eq id a ha]
  exact hall a (List.mem_of_getElem? ha)

end Schedule

end SelectionPlan
