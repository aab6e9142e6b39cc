import SelectionPlan.Backend.Memory
import SelectionPlan.Proofs.Execution.Construct
import SelectionPlan.Proofs.Execution.Exchange

/-!
# The order of the regions

Regions are planned by ascending name, and their writers are looked up by name.  The same regions in
another order give a schedule that agrees with the first one, and errors depend on the order only if
two regions have the same name.
-/

namespace SelectionPlan

variable {H ω : Type} {t : SelectionTree} {namer : Namer} {options : BuildOptions}
  {regions regions' : List (Region ω)}

/-- Planning does not see the order of regions that have different names. -/
theorem ActionGraph.build_of_perm (hnames : (regions.map Region.name).Nodup)
    (h : regions.Perm regions') :
    build t namer options regions = build t namer options regions' := by
  have hsorted := sortStable_of_perm hnames h
  simp only [build, hsorted]

namespace Schedule

theorem exists_build_of_perm (h : regions.Perm regions') {s : Schedule ω}
    (hs : build t namer options regions = .ok s) :
    ∃ s', build t namer options regions' = .ok s' ∧ s'.graph = s.graph ∧ s'.order = s.order ∧
      s.Agrees Action.cost s' := by
  obtain ⟨graph, order, hgraph, horder, rfl⟩ := build_eq_ok.mp hs
  have hnames := ActionGraph.names_of_build hgraph
  refine ⟨_, build_eq_ok.mpr ⟨graph, order, ActionGraph.build_of_perm hnames h ▸ hgraph, horder,
    rfl⟩, rfl, rfl, fun _ => rfl, fun _ => rfl, (List.map_id graph.actions).symm, rfl, rfl,
    fun region => ?_⟩
  simp only [writersOf, lookupKey_of_perm (nodup_writers hs) ((h.filter _).map _)]

theorem Agrees.execute {s s' : Schedule ω} (h : s.Agrees Action.cost s')
    (hsize : s'.graph.size = s.graph.size) (horder : s'.order = s.order) (b : Backend H)
    (output : ω) :
    Execution.Matches Action.cost [] [] (s.execute b output) (s'.execute b output) := by
  refine execute_matches ?_
  simp only [Execution.construct, hsize, horder]
  exact Execution.Twins.constructAll ⟨s', [.started s.graph.size], h, rfl, rfl⟩ s.order

/-- In whichever order the regions come, they are planned or refused alike, and what is planned is
executed alike.  With different names they are also refused with the same error. -/
theorem build_perm (h : regions.Perm regions') :
    ((∃ s, build t namer options regions = .ok s) ↔
      ∃ s', build t namer options regions' = .ok s') ∧
    (∀ s s', build t namer options regions = .ok s → build t namer options regions' = .ok s' →
      s'.graph = s.graph ∧ s'.order = s.order ∧ s'.fingerprint = s.fingerprint ∧
      ∀ (H : Type) (b : Backend H) (output : ω),
        (s'.execute b output).1 = (s.execute b output).1 ∧
        (s'.execute b output).2.journal = (s.execute b output).2.journal ∧
        (s'.execute b output).2.written = (s.execute b output).2.written ∧
        (s'.execute b output).2.output = (s.execute b output).2.output) ∧
    ((regions.map Region.name).Nodup → ∀ e, build t namer options regions = .error e ↔
      build t namer options regions' = .error e) := by
  refine ⟨⟨fun ⟨s, hs⟩ => ?_, fun ⟨s', hs'⟩ => ?_⟩, fun s s' hs hs' => ?_, fun hnames e => ?_⟩
  · obtain ⟨s', hs', -⟩ := exists_build_of_perm h hs
    exact ⟨s', hs'⟩
  · obtain ⟨s, hs, -⟩ := exists_build_of_perm h.symm hs'
    exact ⟨s, hs⟩
  · obtain ⟨s'', hs'', hgraph, horder, hagrees⟩ := exists_build_of_perm h hs
    rw [hs', Except.ok.injEq] at hs''
    subst hs''
    refine ⟨hgraph, horder, ?_, fun H b output => ?_⟩
    · simp only [fingerprint, orderedActions, hgraph, horder]
    · have hsize : s'.graph.size = s.graph.size := by rw [hgraph]
      obtain ⟨report, x, y, hx, hy, r, since, -, hsince, rfl⟩ :=
        hagrees.execute hsize horder b output
      have hjournal : [] ++ since.map (Event.recost Action.cost) = x.journal := by
        rw [hsince, funext Event.recost_cost, List.map_id']
      rw [hx, hy, hjournal]
      exact ⟨rfl, rfl, rfl, rfl⟩
  · rw [build, build, ← ActionGraph.build_of_perm hnames h]
    cases ActionGraph.build t namer options regions with
    | error cause => exact Iff.rfl
    | ok graph =>
        simp only
        cases constructionOrder graph.actions with
        | error deadlock => exact Iff.rfl
        | ok order => constructor <;> exact fun hok => by cases hok

/-- Two regions and the same two the other way round. -/
theorem build_perm_sample : ∃ s s' : Schedule Nat,
    build Sample.tree Sample.namer {} [Sample.signal, Sample.control] = .ok s ∧
      build Sample.tree Sample.namer {} [Sample.control, Sample.signal] = .ok s' ∧
      s'.fingerprint = s.fingerprint ∧
      (s'.execute Sample.table.backend 0).2.written =
        (s.execute Sample.table.backend 0).2.written := by
  have hswap : [Sample.signal, Sample.control].Perm [Sample.control, Sample.signal] :=
    List.Perm.swap _ _ _
  obtain ⟨g, hg⟩ := Sample.exists_build
  obtain ⟨s, hs, -⟩ := exists_build Sample.tree_reachable hg
  obtain ⟨hbuilds, halike, -⟩ := @build_perm _ Sample.tree Sample.namer {} _ _ hswap
  obtain ⟨s', hs'⟩ := hbuilds.mp ⟨s, hs⟩
  obtain ⟨-, -, hfingerprint, hexecute⟩ := halike s s' hs hs'
  exact ⟨s, s', hs, hs', hfingerprint, (hexecute _ Sample.table.backend 0).2.2.1⟩

end Schedule
end SelectionPlan
