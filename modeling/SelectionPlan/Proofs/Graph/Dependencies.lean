import SelectionPlan.Proofs.Graph.Consumer

/-!
# Exact dependencies

A consumer depends on the definitions of the computed columns that are read for it, each for the
systematic in effect on it, on each of them once and on no others.
-/

namespace SelectionPlan

def Action.computed? (a : Action) : Option (ColumnRef × Systematic) :=
  match a.operation with
  | .define slot .. => some (⟨a.node, slot⟩, a.systematic)
  | _ => none

/-- The columns that are computed by the actions an action needs, one entry for every definition. -/
def ActionGraph.computedFor (g : ActionGraph) (id : ActionId) : List (ColumnRef × Systematic) :=
  (closure g.actions id).filterMap fun i => (g.action? i).bind Action.computed?

/-- At a place a reader of `wanted` under `s` reads the column `c`, computed for `e`. -/
def Place.ReadsComputed (p : Place) (s : Systematic) (wanted : List String) (c : ColumnRef)
    (e : Systematic) : Prop :=
  ∃ column older, Scope.Reads s p.scope wanted column older ∧ column.isComputed s = true ∧
    c = column.ref ∧ e = column.effective s

/-- Some filter on the way to a node, selected on `chain`, reads the column `c` computed for `e`. -/
def ScopeIndex.FiltersRead (index : ScopeIndex) (node : Nat) (chain : Systematic) (c : ColumnRef)
    (e : Systematic) : Prop :=
  ∃ m ∈ index.tree.path node, ∃ place v, index.place? m = some place ∧ place.filter = some v ∧
    place.ReadsComputed (place.chainUnder chain) (v.spec (place.chainUnder chain)).inputs c e

def Consumer.Reads {ω : Type} (index : ScopeIndex) (regions : List (Region ω)) (c : ColumnRef)
    (e : Systematic) : Consumer → Prop
  | selection node chain => index.FiltersRead node chain c e
  | statistics node chain _ s => index.FiltersRead node chain c e ∨
      ∃ place weight, index.place? node = some place ∧ index.tree.weight node = some weight ∧
        place.ReadsComputed s [weight] c e
  | output region writer s => ∃ r ∈ regions, r.name = region ∧ ∃ w, r.writers[writer]? = some w ∧
      ∃ place, index.place? r.target.index = some place ∧
        (index.FiltersRead place.node (place.chainUnder s) c e ∨
          place.ReadsComputed s
            (w.columns ++ (w.weight.or (index.tree.weight place.node)).toList) c e)

private def Task.computed? : Task → Option (ColumnRef × Systematic)
  | .define c s => some (c, s)
  | .select .. => none

section Computed

variable {actions : List Action} {tasks : List Task} {c : ColumnRef} {e : Systematic}

private theorem Action.computed?_eq (a : Action) : a.computed? = a.task.bind Task.computed? := by
  cases hop : a.operation <;> simp [Action.computed?, Action.task, hop, Task.computed?]

private theorem mem_filterMap_computed? :
    (c, e) ∈ tasks.filterMap Task.computed? ↔ .define c e ∈ tasks := by
  rw [List.mem_filterMap]
  constructor
  · rintro ⟨task, htask, hc⟩
    cases task with
    | select => cases hc
    | define c' e' =>
        cases hc
        exact htask
  · exact fun h => ⟨_, h, rfl⟩

private theorem nodup_filterMap_computed? (h : tasks.Nodup) :
    (tasks.filterMap Task.computed?).Nodup := by
  refine h.filterMap fun a b pair ha hb => ?_
  cases a with
  | select => cases ha
  | define c e =>
      cases b with
      | select => cases hb
      | define c' e' =>
          cases ha
          cases hb
          rfl

end Computed

section Place

variable {p : Place} {s e : Systematic} {wanted : List String} {c : ColumnRef}

theorem Place.readsComputed_iff : p.ReadsComputed s wanted c e ↔
    ∃ need ∈ p.scope.needs s wanted, c = need.1.ref ∧ e = need.1.effective s := by
  constructor
  · rintro ⟨column, older, hread, hcomp, hc, he⟩
    exact ⟨(column, older), Scope.mem_needs.mpr ⟨hread, hcomp⟩, hc, he⟩
  · rintro ⟨⟨column, older⟩, hneed, hc, he⟩
    obtain ⟨hread, hcomp⟩ := Scope.mem_needs.mp hneed
    exact ⟨column, older, hread, hcomp, hc, he⟩

end Place

theorem filtersRead_iff {t : SelectionTree} {index : ScopeIndex}
    (hlaw : ScopeIndex.Lawful t index) {node : Nat} {chain e : Systematic} {c : ColumnRef} :
    index.FiltersRead node chain c e ↔
      .define c e ∈ selectionTasks chain (index.trail node) := by
  rw [mem_selectionTasks_define]
  constructor
  · rintro ⟨m, hm, place, v, hplace, hv, hread⟩
    obtain ⟨need, hneed, hc, he⟩ := Place.readsComputed_iff.mp hread
    refine ⟨place, hlaw.mem_trail.mpr ⟨m, hlaw.tree_eq ▸ hm, hplace⟩, need, ?_, hc, he⟩
    simpa [Place.filterNeeds, Place.filterInputs, hv] using hneed
  · rintro ⟨place, hplace, need, hneed, hc, he⟩
    obtain ⟨m, hm, hpm⟩ := hlaw.mem_trail.mp hplace
    cases hv : place.filter with
    | none => simp [Place.filterNeeds, Place.filterInputs, hv] at hneed
    | some v =>
        refine ⟨m, hlaw.tree_eq.symm ▸ hm, place, v, hpm, hv, Place.readsComputed_iff.mpr
          ⟨need, ?_, hc, he⟩⟩
        simpa [Place.filterNeeds, Place.filterInputs, hv] using hneed

section Built

variable {ω : Type} {t : SelectionTree} {p : Planner} {accepted : List AcceptedRegion} {d : Draft}
  {g : ActionGraph} {namer : Namer} {options : BuildOptions} {regions : List (Region ω)}

/-- What is computed for an action are the columns among the tasks of its lineage. -/
private theorem computedFor_eq (h : ActionGraph.Built t p accepted d g) {id : Nat} {a : Action}
    (ha : g.actions[id]? = some a) :
    g.computedFor id = ((tasks d.actions id).filterMap Task.computed?).reverse := by
  have hline : ∀ b ∈ (lineage g.actions id).reverse,
      (g.action? b.id).bind Action.computed? = b.task.bind Task.computed? := by
    intro b hb
    have hget := (h.chained.toLinked.lineage_suffix ha (List.mem_reverse.mp hb)).1
    rw [ActionGraph.action?, hget, Option.bind_some, Action.computed?_eq]
  rw [ActionGraph.computedFor, h.chained.closure_eq ha, lineageIds, ← List.map_reverse,
    List.filterMap_map, ← h.tasks_eq, tasks, List.filterMap_filterMap, ← List.filterMap_reverse]
  exact List.filterMap_congr hline

private theorem output_reads (hnames : (regions.map Region.name).Nodup) {r : Region ω}
    (hr : r ∈ regions)
    {q : AcceptedRegion} (hq : r.accept? p.index = some q) {writer : Nat} {spec : OutputSpec}
    (hspec : q.outputs[writer]? = some spec) {s e : Systematic} {c : ColumnRef} :
    (Consumer.output q.name writer s).Reads p.index regions c e ↔
      p.index.FiltersRead q.place.node (q.place.chainUnder s) c e ∨
        q.place.ReadsComputed s (spec.columns ++ (q.weightOf spec).toList) c e := by
  obtain ⟨hplace, hname, -, houtputs, hweight⟩ := Region.accept?_eq_some hq
  rw [houtputs, List.getElem?_map] at hspec
  obtain ⟨w, hw, rfl⟩ := Option.map_eq_some_iff.mp hspec
  have hwanted : q.weightOf w.toOutputSpec = w.weight.or (p.index.tree.weight q.place.node) := by
    rw [AcceptedRegion.weightOf, hweight]
  rw [hwanted]
  constructor
  · rintro ⟨r', hr', hname', w', hw', place, hplace', hreads⟩
    have hsame : r' = r := List.inj_on_of_nodup_map hnames hr' hr (hname'.trans hname)
    subst hsame
    rw [hw, Option.some.injEq] at hw'
    rw [hplace, Option.some.injEq] at hplace'
    subst hw' hplace'
    exact hreads
  · intro hreads
    exact ⟨r, hr, hname.symm, w, hw, q.place, hplace, hreads⟩

private theorem consumer_reads (h : ActionGraph.Built t p accepted d g)
    (hnames : (regions.map Region.name).Nodup)
    (haccepted : ∀ q ∈ accepted, ∃ r ∈ regions, r.accept? p.index = some q) {a : Action}
    (ha : a ∈ d.actions) {k : Consumer} (hk : a.consumer? = some k) (c : ColumnRef)
    (e : Systematic) :
    .define c e ∈ k.tasks p.index accepted ↔ k.Reads p.index regions c e := by
  have hread (place : Place) (s : Systematic) (wanted : List String) :
      (∃ need ∈ place.scope.needs s wanted,
        Task.define c e = .define need.1.ref (need.1.effective s)) ↔
        place.ReadsComputed s wanted c e := by
    simp only [Task.define.injEq, Place.readsComputed_iff]
  cases h.sound.made a ha with
  | source =>
      cases hk
      exact (filtersRead_iff h.lawful).symm
  | define => cases hk
  | filter =>
      cases hk
      exact (filtersRead_iff h.lawful).symm
  | @statistics place weight column chain s id tip base hplace hw =>
      cases hk
      simp only [Planner.statisticsAction, Consumer.tasks, hplace, hw, mem_extended, hread,
        Consumer.Reads, filtersRead_iff h.lawful, Option.some.injEq, exists_eq_left',
        exists_and_left]
  | @output q s writer spec id tip base hq _ _ hspec =>
      cases hk
      obtain ⟨r, hr, hrq⟩ := haccepted q hq
      simp only [Planner.outputAction]
      rw [output_reads hnames hr hrq hspec]
      simp only [Consumer.tasks, find?_name hq h.names, hspec, mem_extended, hread,
        filtersRead_iff h.lawful]

/-- In every graph that is built, the definitions that a selection, a statistics action or an output
needs are in one-to-one correspondence with the computed columns read for it, each with the
systematic in effect on it.  Regions planned beside do not change them. -/
theorem computedFor_exact (ht : t.Reachable)
    (h : ActionGraph.build t namer options regions = .ok g) :
    ∃ index, ScopeIndex.build t = .ok index ∧
      ∀ a ∈ g.actions, ∀ k, a.consumer? = some k →
        (g.computedFor a.id).Nodup ∧
        (∀ c e, (c, e) ∈ g.computedFor a.id ↔ k.Reads index regions c e) ∧
        ∀ (more : List (Region ω)) (g' : ActionGraph), regions ⊆ more →
          ActionGraph.build t namer options more = .ok g' →
          ∀ a' ∈ g'.actions, a'.consumer? = some k →
            g'.computedFor a'.id = g.computedFor a.id := by
  obtain ⟨p, accepted, d, hindex, hnamer, hcost, haccepted, -, hb⟩ :=
    ActionGraph.built_of_build ht h
  have hnames := ActionGraph.names_of_build h
  refine ⟨p.index, hindex, fun a ha k hk => ?_⟩
  obtain ⟨hget, b, hbget, hab⟩ := hb.of_mem ha
  have hbk : b.consumer? = some k := by
    rw [hab] at hk
    exact hk
  have htasks := hb.sound.consumer_tasks hb.lawful hb.names hbget hbk
  have hcomputed := computedFor_eq hb hget
  rw [htasks] at hcomputed
  refine ⟨?_, fun c e => ?_, fun more g' hsub h' a' ha' hk' => ?_⟩
  · rw [hcomputed, List.nodup_reverse]
    exact nodup_filterMap_computed? (hb.tasks_of_consumer (List.mem_of_getElem? hbget) hbk).1
  · rw [hcomputed, List.mem_reverse, mem_filterMap_computed?]
    refine consumer_reads hb hnames (fun q hq => ?_) (List.mem_of_getElem? hbget) hbk c e
    rw [haccepted, List.mem_filterMap] at hq
    obtain ⟨r, hr, hrq⟩ := hq
    exact ⟨r, mem_sortStable.mp hr, hrq⟩
  · obtain ⟨p', accepted', d', hindex', -, -, haccepted', -, hb'⟩ :=
      ActionGraph.built_of_build ht h'
    rw [hindex, Except.ok.injEq] at hindex'
    obtain ⟨hget', b', hbget', hab'⟩ := hb'.of_mem ha'
    have hbk' : b'.consumer? = some k := by
      rw [hab'] at hk'
      exact hk'
    have hmore : accepted ⊆ accepted' := by
      rw [haccepted, haccepted', ← hindex']
      exact accepted_subset p.index hsub _
    rw [hcomputed, computedFor_eq hb' hget',
      hb'.sound.consumer_tasks hb'.lawful hb'.names hbget' hbk',
      hb.sound.consumer_tasks_mono hmore hb'.names hb.names (List.mem_of_getElem? hbget) hbk,
      hindex']

/-- Under `up` hard events need the score for `up` and nothing else. -/
theorem computedFor_exact_sample : ∃ g index,
    ActionGraph.build Sample.tree Sample.namer {} Sample.regions = .ok g ∧
      ScopeIndex.build Sample.tree = .ok index ∧
      ∀ c e, (Consumer.selection 1 (.variation "up")).Reads index Sample.regions c e ↔
        (c, e) = (⟨0, 1⟩, .variation "up") := by
  obtain ⟨g, hg⟩ := Sample.exists_build
  obtain ⟨index, hindex, hexact⟩ := computedFor_exact Sample.tree_reachable hg
  have hfilter : ((ActionGraph.build Sample.tree Sample.namer {} Sample.regions).toOption.bind
      fun g => g.actions[4]?.map fun a => (a.consumer?, g.computedFor a.id)) =
        some (some (.selection 1 (.variation "up")), [(⟨0, 1⟩, .variation "up")]) := by decide
  rw [hg] at hfilter
  obtain ⟨a, ha, hfilter⟩ := Option.map_eq_some_iff.mp hfilter
  obtain ⟨hk, hcomputed⟩ := Prod.mk.inj hfilter
  obtain ⟨-, hreads, -⟩ := hexact a (List.mem_of_getElem? ha) _ hk
  refine ⟨g, index, hg, hindex, fun c e => ?_⟩
  rw [← hreads, hcomputed, List.mem_singleton]

end Built

end SelectionPlan
