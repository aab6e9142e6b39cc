import SelectionPlan.Proofs.Graph.Built

/-!
# Consumers

Selections, statistics and outputs read columns.  The tree and the accepted regions alone say which
tasks come before a consumer, whatever else is planned beside it.
-/

namespace SelectionPlan

inductive Consumer
  /-- The events of a node under the systematic in effect there. -/
  | selection (node : Nat) (chain : Systematic)
  /-- The sums of a weight column, taken for a systematic, over the events of a node. -/
  | statistics (node : Nat) (chain : Systematic) (weight : ColumnRef) (effective : Systematic)
  /-- What a writer of a region is handed under a systematic. -/
  | output (region : String) (writer : Nat) (s : Systematic)
  deriving DecidableEq, Repr

def Action.consumer? (a : Action) : Option Consumer :=
  match a.operation with
  | .source | .filter _ => some (.selection a.node a.systematic)
  | .define .. => none
  | .output region writer _ _ => some (.output region writer a.systematic)
  | .statistics _ weight effective _ =>
    some (.statistics a.node a.systematic weight effective)

theorem Action.task_of_selection {a : Action} {node : Nat} {s : Systematic}
    (h : a.consumer? = some (.selection node s)) : a.task = some (.select node s) := by
  cases hop : a.operation <;> simp_all [Action.consumer?, Action.task]

theorem Action.consumer?_of_select {a : Action} {node : Nat} {s : Systematic}
    (h : a.task = some (.select node s)) : a.consumer? = some (.selection node s) := by
  cases hop : a.operation <;> simp_all [Action.consumer?, Action.task]

namespace Consumer

def tasks (index : ScopeIndex) (accepted : List AcceptedRegion) : Consumer → List Task
  | selection node chain => selectionTasks chain (index.trail node)
  | statistics node chain _ s =>
    match index.place? node, index.tree.weight node with
    | some place, some weight =>
      extended s (selectionTasks chain (index.trail node)) (place.scope.needs s [weight])
    | _, _ => []
  | output region writer s =>
    match accepted.find? fun r => r.name == region with
    | none => []
    | some r =>
      match r.outputs[writer]? with
      | none => []
      | some spec =>
        extended s (selectionTasks (r.place.chainUnder s) (index.trail r.place.node))
          (r.place.scope.needs s (spec.columns ++ (r.weightOf spec).toList))

end Consumer

theorem find?_name {accepted : List AcceptedRegion} {r : AcceptedRegion} (hr : r ∈ accepted)
    (hnames : (accepted.map AcceptedRegion.name).Nodup) :
    accepted.find? (fun q => q.name == r.name) = some r := by
  induction accepted with
  | nil => cases hr
  | cons q rest ih =>
      rw [List.map_cons, List.nodup_cons] at hnames
      rcases List.mem_cons.mp hr with rfl | hr
      · simp
      · have hne : ¬ q.name = r.name := fun heq =>
          hnames.1 (heq ▸ List.mem_map_of_mem hr)
        simp [hne, ih hr hnames.2]

section Tasks

variable {t : SelectionTree} {p : Planner} {accepted : List AcceptedRegion}
  {G : ColumnRef → Systematic → Prop} {d : Draft} {id : Nat} {a : Action} {k : Consumer}

/-- The lineage of a consumer has the tasks that the tree and the regions ask for. -/
theorem Draft.Sound.consumer_tasks (h : d.Sound p accepted G) (hlaw : ScopeIndex.Lawful t p.index)
    (hnames : (accepted.map AcceptedRegion.name).Nodup) (ha : d.actions[id]? = some a)
    (hk : a.consumer? = some k) : tasks d.actions id = k.tasks p.index accepted := by
  have hmade := h.made a (List.mem_of_getElem? ha)
  have htasks := h.toLinked.tasks_eq ha
  cases hmade with
  | source =>
      cases hk
      exact (h.selection hlaw ha rfl).choose_spec.2.2
  | define => cases hk
  | filter =>
      cases hk
      exact (h.selection hlaw ha rfl).choose_spec.2.2
  | @statistics place weight c chain s _ tip base hplace hw _ _ _ hs =>
      cases hk
      have htail : tasks d.actions id = tasks d.actions tip := htasks
      rw [htail, hs.tasks_eq]
      simp only [Consumer.tasks, Planner.statisticsAction, hplace, hw]
  | @output r s writer spec _ tip base hr _ _ hspec _ hs =>
      cases hk
      have htail : tasks d.actions id = tasks d.actions tip := htasks
      rw [htail, hs.tasks_eq]
      simp only [Consumer.tasks, Planner.outputAction, find?_name hr hnames, hspec]

theorem Draft.Sound.consumer_tasks_mono (h : d.Sound p accepted G) {more : List AcceptedRegion}
    (hsub : accepted ⊆ more) (hnames : (more.map AcceptedRegion.name).Nodup)
    (hnames' : (accepted.map AcceptedRegion.name).Nodup)
    (ha : a ∈ d.actions) (hk : a.consumer? = some k) :
    k.tasks p.index accepted = k.tasks p.index more := by
  cases h.made a ha with
  | source => cases hk; rfl
  | define => cases hk
  | filter => cases hk; rfl
  | statistics => cases hk; rfl
  | @output r s writer spec _ tip base hr =>
      cases hk
      simp only [Consumer.tasks, Planner.outputAction, find?_name hr hnames',
        find?_name (hsub hr) hnames]

theorem ActionGraph.Built.tasks_of_consumer {g : ActionGraph}
    (h : ActionGraph.Built t p accepted d g) (ha : a ∈ d.actions) (hk : a.consumer? = some k) :
    (k.tasks p.index accepted).Nodup ∧ ∃ i place, p.index.place? i = some place ∧
      Visible p.index place.scope (k.tasks p.index accepted) := by
  have hnodup {i : Nat} {place : Place} (hplace : p.index.place? i = some place) (s : Systematic) :
      (selectionTasks s (p.index.trail i)).Nodup :=
    h.lawful.nodup_selectionTasks (h.lawful.place_lt hplace).2 s
  have hvisible {i : Nat} {place : Place} (hplace : p.index.place? i = some place)
      (s : Systematic) := visible_selectionTasks h.lawful hplace s
  cases h.sound.made a ha with
  | @source place id hplace =>
      cases hk
      rw [← (h.lawful.place_lt hplace).1] at hplace
      exact ⟨hnodup hplace _, _, place, hplace, hvisible hplace _⟩
  | define => cases hk
  | @filter place _ _ _ _ _ _ hplace =>
      cases hk
      exact ⟨hnodup hplace _, _, place, hplace, hvisible hplace _⟩
  | @statistics place weight column chain s id tip base hplace hw =>
      cases hk
      simp only [Planner.statisticsAction, Consumer.tasks, hplace, hw]
      exact ⟨nodup_extended (hnodup hplace _), _, place, hplace,
        visible_extended (hvisible hplace _)⟩
  | @output q s writer spec id tip base hq hplace _ hspec =>
      cases hk
      simp only [Planner.outputAction, Consumer.tasks, find?_name hq h.names, hspec]
      exact ⟨nodup_extended (hnodup hplace _), _, q.place, hplace,
        visible_extended (hvisible hplace _)⟩

end Tasks

section Entries

variable {p : Planner} {regions : List AcceptedRegion} {G : ColumnRef → Systematic → Prop}
  {d : Draft} {s : Systematic} {node : Nat} {entry : Nat × ActionId}

theorem SelectionEntry.consumer (h : SelectionEntry p d.actions s node entry) :
    ∃ place a, p.index.place? node = some place ∧ d.actions[entry.2]? = some a ∧
      a.consumer? = some (.selection node (place.chainUnder s)) := by
  obtain ⟨-, place, a, hplace, ha, htask⟩ := h
  exact ⟨place, a, hplace, ha, Action.consumer?_of_select htask⟩

theorem StatisticsEntry.consumer (hd : d.Sound p regions G)
    (h : StatisticsEntry p d.actions s node entry) :
    ∃ place weight c a, p.index.place? node = some place ∧
      p.index.tree.weight node = some weight ∧ place.scope.lookup weight = some c ∧
      d.actions[entry.2]? = some a ∧
      a.consumer? = some (.statistics node (place.chainUnder s) c.ref (c.effective s)) := by
  obtain ⟨-, place, weight, c, base, b, a, hplace, hw, hc, hb, htask, ha, hsums⟩ := h
  refine ⟨place, weight, c, a, hplace, hw, hc, ha, ?_⟩
  cases hd.made a (List.mem_of_getElem? ha) with
  | statistics _ _ _ _ _ hs =>
      simp only [Action.sums, Planner.statisticsAction, Bool.and_eq_true, beq_iff_eq] at hsums
      obtain ⟨⟨hbase, href⟩, heff⟩ := hsums
      obtain ⟨b', hb', htask'⟩ := hs.base_task
      rw [hbase, hb, Option.some.injEq] at hb'
      subst hb'
      rw [htask, Option.some.injEq, Task.select.injEq] at htask'
      simp only [Action.consumer?, Planner.statisticsAction, href, heff, htask'.1, htask'.2]
  | _ => simp [Action.sums, Planner.sourceAction, Planner.defineAction, Planner.filterAction,
      Planner.outputAction] at hsums

theorem OutputEntry.consumer {region : String} {spec : OutputSpec × Nat}
    (h : OutputEntry d.actions region s spec entry) :
    ∃ a, d.actions[entry.2]? = some a ∧ a.consumer? = some (.output region spec.2 s) := by
  obtain ⟨-, a, request, ha, hsys, hop⟩ := h
  exact ⟨a, ha, by simp [Action.consumer?, hop, hsys]⟩

end Entries
end SelectionPlan
