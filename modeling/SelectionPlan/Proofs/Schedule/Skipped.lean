import SelectionPlan.Proofs.Graph.Requests
import SelectionPlan.Proofs.Schedule.Built

/-!
# Skipped regions

Under a policy that skips them, regions with unknown variations still take part in the checks of
names and targets, and in nothing else: what is planned is planned without them.
-/

namespace SelectionPlan

variable {ω : Type}

/-- A region asks for a variation that is not declared, and that changes neither a filter on the way
to its target nor a column that is visible there. -/
def Region.AsksInVain (index : ScopeIndex) (r : Region ω) : Prop :=
  ∃ place variation, index.place? r.target.index = some place ∧
    .variation variation ∈ r.systematics ∧ variation ∉ index.tree.systematics ∧
      variation ∉ place.chain ∧ ∀ c ∈ place.scope, variation ∉ c.affects

def Region.skipped? (index : ScopeIndex) (r : Region ω) : Option SkippedRegion :=
  (index.place? r.target.index).bind fun place =>
    (unknownSystematic? index r place).map (SkippedRegion.mk r.name)

section Regions

variable {index : ScopeIndex} {r : Region ω} {k : SkippedRegion}

theorem Region.skipped?_eq_some (h : r.skipped? index = some k) : k.name = r.name ∧
    r.AsksInVain index ∧ ∃ place variation, index.place? r.target.index = some place ∧
      unknownSystematic? index r place = some k.error ∧
        k.error = .unknownSystematic r.name variation place.path := by
  obtain ⟨place, hplace, h⟩ := Option.bind_eq_some_iff.mp h
  obtain ⟨e, he, rfl⟩ := Option.map_eq_some_iff.mp h
  obtain ⟨variation, hrequested, hunknown, herror⟩ := unknownSystematic?_eq_some he
  rw [ScopeIndex.mem_known_iff] at hunknown
  push Not at hunknown
  exact ⟨rfl, ⟨place, variation, hplace, hrequested, hunknown⟩, place, variation, hplace, he,
    herror⟩

theorem Region.AsksInVain.exists_skipped (h : r.AsksInVain index) :
    ∃ k, r.skipped? index = some k := by
  obtain ⟨place, variation, hplace, hrequested, hdeclared, hchain, hscope⟩ := h
  cases hunknown : unknownSystematic? index r place with
  | some e => exact ⟨⟨r.name, e⟩, by simp [Region.skipped?, hplace, hunknown]⟩
  | none =>
      rcases ScopeIndex.mem_known_iff.mp (unknownSystematic?_eq_none.mp hunknown variation
        hrequested) with hmem | hmem | ⟨c, hc, hmem⟩
      · exact absurd hmem hdeclared
      · exact absurd hmem hchain
      · exact absurd hmem (hscope c hc)

theorem acceptRegions_skipped {policy : UnknownSystematicPolicy} {regions : List (Region ω)}
    {accepted : List AcceptedRegion} {skipped : List SkippedRegion}
    (h : acceptRegions index policy regions = .ok (accepted, skipped)) :
    skipped = regions.filterMap (Region.skipped? index) := by
  induction regions generalizing accepted skipped with
  | nil =>
      cases h
      rfl
  | cons r rest ih =>
      simp only [acceptRegions] at h
      cases hplace : index.place? r.target.index with
      | none => simp [hplace] at h
      | some place =>
          cases hknown : unknownSystematic? index r place with
          | none =>
              have hr : r.skipped? index = none := by simp [Region.skipped?, hplace, hknown]
              simp only [hplace, hknown, bind_eq_ok] at h
              obtain ⟨⟨accepted', skipped'⟩, hrest, h⟩ := h
              cases h
              rw [List.filterMap_cons_none hr, ih hrest]
          | some e =>
              have hr : r.skipped? index = some ⟨r.name, e⟩ := by
                simp [Region.skipped?, hplace, hknown]
              cases policy with
              | fail => simp [hplace, hknown] at h
              | skipRegion =>
                  simp only [hplace, hknown, bind_eq_ok] at h
                  obtain ⟨⟨accepted', skipped'⟩, hrest, h⟩ := h
                  cases h
                  rw [List.filterMap_cons_some hr, ih hrest]

end Regions

/-! ### Graphs -/

namespace ActionGraph

def remaining (g : ActionGraph) (regions : List (Region ω)) : List (Region ω) :=
  regions.filter fun r => r.name ∉ g.skipped.map SkippedRegion.name

variable {t : SelectionTree} {namer : Namer} {options : BuildOptions} {regions : List (Region ω)}
  {g : ActionGraph} {index : ScopeIndex}

theorem skipped_eq (hindex : ScopeIndex.build t = .ok index)
    (h : build t namer options regions = .ok g) : g.skipped =
      (sortStable (fun a b => decide (a.name < b.name)) regions).filterMap
        (Region.skipped? index) := by
  obtain ⟨-, -, index', accepted, skipped, plans, d, hindex', -, haccept, -, -, rfl⟩ :=
    build_eq_ok.mp h
  rw [hindex, Except.ok.injEq] at hindex'
  subst hindex'
  exact acceptRegions_skipped haccept

theorem skipped_ascending (h : build t namer options regions = .ok g) :
    (g.skipped.map SkippedRegion.name).Pairwise (· < ·) := by
  obtain ⟨-, -, index, -, -, -, -, hindex, -⟩ := build_eq_ok.mp h
  rw [skipped_of_build hindex h]
  exact (pairwise_sortStable_lt (names_of_build h)).sublist (List.filter_sublist.map _)

theorem mem_skipped_iff (hindex : ScopeIndex.build t = .ok index)
    (h : build t namer options regions = .ok g) {name : String} :
    name ∈ g.skipped.map SkippedRegion.name ↔
      ∃ r ∈ regions, r.name = name ∧ r.AsksInVain index := by
  simp only [skipped_eq hindex h, List.mem_map, List.mem_filterMap, mem_sortStable]
  constructor
  · rintro ⟨k, ⟨r, hr, hk⟩, rfl⟩
    obtain ⟨hname, hvain, -⟩ := Region.skipped?_eq_some hk
    exact ⟨r, hr, hname.symm, hvain⟩
  · rintro ⟨r, hr, rfl, hvain⟩
    obtain ⟨k, hk⟩ := hvain.exists_skipped
    exact ⟨k, ⟨r, hr, hk⟩, (Region.skipped?_eq_some hk).1⟩

theorem build_alone (h : build t namer options regions = .ok g) {k : SkippedRegion}
    (hk : k ∈ g.skipped) {r : Region ω} (hr : r ∈ regions) (hname : r.name = k.name) :
    build t namer { options with onUnknownSystematic := .fail } [r] = .error k.error ∧
      ∃ variation path, k.error = .unknownSystematic r.name variation path := by
  obtain ⟨hcost, hchecked, index, -, -, -, -, hindex, hnames, -⟩ := build_eq_ok.mp h
  rw [skipped_eq hindex h] at hk
  obtain ⟨q, hq, hskipped⟩ := List.mem_filterMap.mp hk
  obtain ⟨hqname, -, place, variation, hplace, hunknown, herror⟩ := Region.skipped?_eq_some hskipped
  have hsame : q = r := List.inj_on_of_nodup_map (names_of_build h) (mem_sortStable.mp hq) hr
    (hqname.symm.trans hname.symm)
  subst hsame
  have halone : checkRegions t [] [q] = .ok () := by
    obtain ⟨hregion, htarget, -⟩ := (checkRegions_eq_ok.mp hchecked).1 q hq
    exact checkRegions_eq_ok.mpr ⟨by simpa using ⟨hregion, htarget⟩, List.nodup_singleton _⟩
  have hrefused : acceptRegions index .fail [q] = .error k.error := by
    simp only [acceptRegions, hplace, hunknown]
  refine ⟨?_, variation, place.path, herror⟩
  have hsorted : sortStable (fun a b => decide (a.name < b.name)) [q] = [q] := rfl
  simp only [build, hcost, hsorted, halone, hindex, hnames, hrefused, Bool.not_true,
    Bool.false_eq_true, if_false, ok_bind]
  rfl

/-- The regions that are not skipped are planned as if no other region had been asked for. -/
theorem build_remaining (h : build t namer options regions = .ok g)
    (policy : UnknownSystematicPolicy) :
    build t namer { options with onUnknownSystematic := policy } (g.remaining regions) =
      .ok { g with skipped := [] } := by
  have hnames := names_of_build h
  have hkept : sortStable (fun a b => decide (a.name < b.name)) (g.remaining regions) =
      g.kept regions := sortStable_filter hnames _
  obtain ⟨hcost, hchecked, index, accepted, skipped, plans, d, hindex, hnamer, haccept, hcolumns,
    hplans, hg⟩ := build_eq_ok.mp h
  have hsome := kept_of_build hindex h
  have hleft : checkRegions t [] (g.kept regions) = .ok () := by
    obtain ⟨hall, hnodup⟩ := checkRegions_eq_ok.mp hchecked
    exact checkRegions_eq_ok.mpr ⟨fun r hr => hall r (List.mem_of_mem_filter hr),
      hnodup.sublist (List.filter_sublist.map _)⟩
  have haccepted : acceptRegions index policy (g.kept regions) = .ok (accepted, []) := by
    rw [hsome, acceptRegions_all policy fun r hr => (List.mem_filter.mp hr).2,
      List.filterMap_filter, (acceptRegions_eq_ok haccept).1]
    congr 2
    refine List.filterMap_congr fun r _ => ?_
    cases r.accept? index <;> rfl
  refine build_eq_ok.mpr ⟨hcost, hkept ▸ hleft, index, accepted, [], plans, d, hindex, hnamer,
    hkept ▸ haccepted, hcolumns, hplans, ?_⟩
  rw [hg]

theorem remaining_planned (ht : t.Reachable) (h : build t namer options regions = .ok g) :
    ∀ plan ∈ g.regions, plan.name ∉ g.skipped.map SkippedRegion.name := by
  intro plan hplan
  have hname : plan.name ∈ (g.kept regions).map Region.name :=
    names_planned ht h ▸ List.mem_map_of_mem hplan
  obtain ⟨r, hr, hname⟩ := List.mem_map.mp hname
  rw [← hname]
  simpa using (List.mem_filter.mp hr).2

end ActionGraph

/-! ### Schedules -/

def Sample.lost : Region Nat :=
  ((Region.new "lost" ⟨0, 0⟩).request (.variation "down")).addWriter keep

namespace Schedule

variable {t : SelectionTree} {namer : Namer} {options : BuildOptions} {regions : List (Region ω)}
  {s : Schedule ω}

/-- The schedule for all regions is that for the regions that were not skipped. -/
theorem build_remaining (ht : t.Reachable) (h : build t namer options regions = .ok s)
    (policy : UnknownSystematicPolicy) :
    build t namer { options with onUnknownSystematic := policy } (s.graph.remaining regions) =
      .ok { s with graph := { s.graph with skipped := [] } } := by
  obtain ⟨graph, order, hgraph, horder, rfl⟩ := build_eq_ok.mp h
  have hplanned := ActionGraph.remaining_planned ht hgraph
  have hwriters : (graph.remaining regions).filter (fun r =>
        graph.regions.any fun plan => plan.name == r.name) =
      regions.filter fun r => graph.regions.any fun plan => plan.name == r.name := by
    rw [ActionGraph.remaining, List.filter_filter]
    refine List.filter_congr fun r _ => ?_
    rw [Bool.eq_iff_iff, Bool.and_eq_true, decide_eq_true_eq, List.any_eq_true]
    refine and_iff_left_of_imp ?_
    rintro ⟨plan, hplan, hname⟩
    exact beq_iff_eq.mp hname ▸ hplanned plan hplan
  refine build_eq_ok.mpr ⟨_, order, ActionGraph.build_remaining hgraph policy, horder, ?_⟩
  rw [hwriters]

/-- Skipping a region is not asking for it.  The regions that are skipped are those that ask in
vain, each for the reason for which it is refused alone; the others are planned as they are without
them. -/
theorem build_skipRegion (ht : t.Reachable) (h : build t namer
      { options with onUnknownSystematic := .skipRegion } regions = .ok s) :
    (∃ index, ScopeIndex.build t = .ok index ∧
      ∀ name, name ∈ s.graph.skipped.map SkippedRegion.name ↔
        ∃ r ∈ regions, r.name = name ∧ r.AsksInVain index) ∧
    (s.graph.skipped.map SkippedRegion.name).Pairwise (· < ·) ∧
    (∀ k ∈ s.graph.skipped, ∀ r ∈ regions, r.name = k.name →
      build t namer { options with onUnknownSystematic := .fail } [r] = .error (.build k.error) ∧
        ∃ variation path, k.error = .unknownSystematic r.name variation path) ∧
    build t namer { options with onUnknownSystematic := .fail } (s.graph.remaining regions) =
      .ok { s with graph := { s.graph with skipped := [] } } ∧
    (s.graph.skipped = [] →
      build t namer { options with onUnknownSystematic := .fail } regions = .ok s) := by
  have hgraph := (graph_of_build h).1
  have hremaining := build_remaining ht h .fail
  refine ⟨?_, ActionGraph.skipped_ascending hgraph, ?_, hremaining, ?_⟩
  · obtain ⟨-, -, index, -, -, -, -, hindex, -⟩ := ActionGraph.build_eq_ok.mp hgraph
    exact ⟨index, hindex, fun _ => ActionGraph.mem_skipped_iff hindex hgraph⟩
  · intro k hk r hr hname
    obtain ⟨halone, herror⟩ := ActionGraph.build_alone hgraph hk hr hname
    exact ⟨(build_eq_error ht).mpr ⟨_, halone, rfl⟩, herror⟩
  · intro hnone
    obtain ⟨tree, ⟨actions, plans, skipped⟩, order, writers⟩ := s
    obtain rfl : skipped = [] := hnone
    simpa [ActionGraph.remaining] using hremaining

/-- Next to a region that asks in vain, the sample is planned as it is alone. -/
theorem build_skipRegion_sample : ∃ s : Schedule Nat,
    build Sample.tree Sample.namer { onUnknownSystematic := .skipRegion }
      (Sample.lost :: Sample.regions) = .ok s ∧
    s.graph.skipped.map SkippedRegion.name = ["lost"] ∧
    build Sample.tree Sample.namer {} (s.graph.remaining (Sample.lost :: Sample.regions)) =
      .ok { s with graph := { s.graph with skipped := [] } } := by
  have hskips : ((ActionGraph.build Sample.tree Sample.namer { onUnknownSystematic := .skipRegion }
      (Sample.lost :: Sample.regions)).toOption.map fun g => g.skipped.map SkippedRegion.name) =
      some ["lost"] := by decide
  obtain ⟨g, hgraph, hskipped⟩ := exists_ok_of_toOption hskips
  obtain ⟨s, hs, rfl⟩ := exists_build Sample.tree_reachable hgraph
  obtain ⟨-, -, -, hremaining, -⟩ :=
    @build_skipRegion Nat Sample.tree Sample.namer {} _ s Sample.tree_reachable hs
  exact ⟨s, hs, hskipped, hremaining⟩

end Schedule
end SelectionPlan
