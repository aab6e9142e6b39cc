import SelectionPlan.Proofs.Graph.Unique
import SelectionPlan.Proofs.Schedule.Built
import SelectionPlan.Proofs.Scope.Affects
import SelectionPlan.Proofs.Scope.Lookup

/-!
# What plans share

Plans share whatever they have in common.  Under a variation a plan has the filters of the nominal
plan up to the first that the variation can change and none of them from there on, and every action
but the source is needed by some region.
-/

namespace SelectionPlan

variable {ω : Type}

/-- The regions that can be put together. -/
inductive Region.Reachable : Region ω → Prop
  | new (name : String) (target : NodeId) : Reachable (.new name target)
  | request {r : Region ω} (s : Systematic) : Reachable r → Reachable (r.request s)
  | addWriter {r : Region ω} (w : Writer ω) : Reachable r → Reachable (r.addWriter w)

theorem Region.Reachable.systematics {r : Region ω} (h : r.Reachable) :
    r.systematics.Pairwise (· < ·) ∧ .nominal ∈ r.systematics := by
  induction h with
  | new name target => exact ⟨List.pairwise_singleton _ _, List.mem_singleton.mpr rfl⟩
  | request s _ ih => exact ⟨pairwise_insertDistinct ih.1, mem_insertDistinct.mpr (.inr ih.2)⟩
  | addWriter w _ ih => exact ih

theorem Sample.regions_reachable : ∀ r ∈ Sample.regions, r.Reachable := by
  intro r hr
  rcases List.mem_pair.mp hr with rfl | rfl
  · exact .addWriter _ (.request _ (.new _ _))
  · exact .addWriter _ (.new _ _)

def SelectionTree.Forks (t : SelectionTree) (s : Systematic) (node : Nat) : Prop :=
  ∃ variation, s = .variation variation ∧ ∃ m ∈ t.path node, t.FilterAffected variation m

def RegionPlan.FilterAt (plan : RegionPlan) (s : Systematic) (node : Nat) (id : ActionId) : Prop :=
  ∃ entry, (s, entry) ∈ plan.systematics ∧ (node, id) ∈ entry.filters

def RegionPlan.SumsAt (plan : RegionPlan) (s : Systematic) (node : Nat) (id : ActionId) : Prop :=
  ∃ entry, (s, entry) ∈ plan.systematics ∧ (node, id) ∈ entry.statistics

/-- A graph in which nothing is planned twice, nothing in vain, and every plan forks from the
nominal one where it has to. -/
structure ActionGraph.Economical (t : SelectionTree) (regions : List (Region ω)) (g : ActionGraph) :
    Prop where
  /-- No two selections, definitions, sums or outputs are for the same. -/
  keys : (g.actions.map Action.key).Nodup
  /-- There is one output for every requested systematic and writer of a region that was kept. -/
  output : ∀ r ∈ g.kept regions, ∀ s ∈ r.systematics, ∀ writer < r.writers.length,
    ∃! a, a ∈ g.actions ∧ a.consumer? = some (.output r.name writer s)
  requested : ∀ a ∈ g.actions, ∀ region writer s,
    a.consumer? = some (.output region writer s) →
      ∃ r ∈ g.kept regions, r.name = region ∧ s ∈ r.systematics ∧ writer < r.writers.length
  /-- A plan is nominal, too, and under every systematic has one filter for each node on the way. -/
  nominal : ∀ plan ∈ g.regions, .nominal ∈ plan.systematics.map Prod.fst
  filters : ∀ plan ∈ g.regions, ∀ s ∈ plan.systematics.map Prod.fst, ∀ node ∈ t.path plan.target,
    ∃! id, plan.FilterAt s node id
  /-- The filter is the nominal one if and only if the variation changes no filter down to the
  node. -/
  fork : ∀ plan ∈ g.regions, ∀ variation node id nominal,
    plan.FilterAt (.variation variation) node id → plan.FilterAt .nominal node nominal →
      (id = nominal ↔ ∀ m ∈ t.path node, ¬ t.FilterAffected variation m)
  /-- A plan that has left the nominal one stays apart. -/
  apart : ∀ plan ∈ g.regions, ∀ s above node id id' nominal nominal', above ∈ t.path node →
    plan.FilterAt s above id → plan.FilterAt .nominal above nominal → id ≠ nominal →
    plan.FilterAt s node id' → plan.FilterAt .nominal node nominal' → id' ≠ nominal'
  /-- Plans share the filter of a node exactly if the same systematic is in effect there. -/
  shared : ∀ plan ∈ g.regions, ∀ plan' ∈ g.regions, ∀ s s' node id id',
    plan.FilterAt s node id → plan'.FilterAt s' node id' →
      (id = id' ↔ (t.Forks s node ∨ t.Forks s' node → s = s'))
  /-- A definition is for a variable of its node and for a systematic in effect for the variable. -/
  defined : ∀ a ∈ g.actions, ∀ slot column name definition,
    a.operation = .define slot column name definition →
      t.nameAt? ⟨a.node, slot⟩ = some name ∧ t.InEffect a.node name a.systematic a.systematic
  /-- Under every systematic a plan has one entry with sums for each weighted node on the way. -/
  sums : ∀ plan ∈ g.regions, ∀ s ∈ plan.systematics.map Prod.fst, ∀ node ∈ t.path plan.target,
    (t.weight node).isSome → ∃! id, plan.SumsAt s node id
  /-- They are taken over the plan's filter of the node, of the column that the weight of the node
  means, for the systematic in effect for it. -/
  summed : ∀ plan ∈ g.regions, ∀ s node id, plan.SumsAt s node id →
    ∃ name filter weight e a request, t.weight node = some name ∧ plan.FilterAt s node filter ∧
      weight.node ∈ t.path node ∧ t.nameAt? weight = some name ∧ t.InEffect node name s e ∧
      g.action? id = some a ∧ a.operation = .statistics filter weight e request
  /-- Plans share the sums of a node exactly if they share its filter and the same systematic is in
  effect for its weight. -/
  shared_sums : ∀ plan ∈ g.regions, ∀ plan' ∈ g.regions,
    ∀ s s' node name id id' filter filter' e e',
      plan.SumsAt s node id → plan'.SumsAt s' node id' → t.weight node = some name →
      plan.FilterAt s node filter → plan'.FilterAt s' node filter' →
      t.InEffect node name s e → t.InEffect node name s' e' →
        (id = id' ↔ filter = filter' ∧ e = e')
  /-- No other sums are taken. -/
  summing : ∀ a ∈ g.actions, ∀ filter weight e request,
    a.operation = .statistics filter weight e request →
      ∃ plan ∈ g.regions, ∃ s node, plan.SumsAt s node a.id
  consumed : ∀ a ∈ g.actions, a.operation ≠ .source → ∃ plan ∈ g.regions, plan.name ∈ a.consumers

section Forks

variable {t : SelectionTree} {index : ScopeIndex} (hlaw : ScopeIndex.Lawful t index) {node : Nat}
  {place : Place} (hplace : index.place? node = some place)
include hlaw hplace

theorem chainUnder_of_forks {s : Systematic} (h : t.Forks s node) : place.chainUnder s = s := by
  obtain ⟨variation, rfl, hforks⟩ := h
  simp [Place.chainUnder, (hlaw.mem_chain hplace variation).mpr hforks]

theorem chainUnder_of_not_forks {s : Systematic} (h : ¬ t.Forks s node) :
    place.chainUnder s = .nominal := by
  cases s with
  | nominal => rfl
  | variation name =>
      have hchain : name ∉ place.chain := fun hmem =>
        h ⟨name, rfl, (hlaw.mem_chain hplace name).mp hmem⟩
      simp [Place.chainUnder, hchain]

/-- Systematics are in effect alike at a node unless one of them forks before it. -/
theorem chainUnder_eq_iff {s s' : Systematic} : place.chainUnder s = place.chainUnder s' ↔
    (t.Forks s node ∨ t.Forks s' node → s = s') := by
  have hnominal : ¬ t.Forks .nominal node := fun ⟨_, heq, _⟩ => by cases heq
  by_cases hs : t.Forks s node <;> by_cases hs' : t.Forks s' node
  · simp [chainUnder_of_forks hlaw hplace, hs, hs']
  · simp only [chainUnder_of_forks hlaw hplace hs, chainUnder_of_not_forks hlaw hplace hs', hs,
      true_or, true_imp_iff]
    constructor
    · intro heq
      exact absurd (heq ▸ hs) hnominal
    · intro heq
      exact absurd (heq ▸ hs) hs'
  · simp only [chainUnder_of_not_forks hlaw hplace hs, chainUnder_of_forks hlaw hplace hs', hs',
      or_true, true_imp_iff]
    constructor
    · intro heq
      exact absurd (heq ▸ hs') hnominal
    · intro heq
      exact absurd (heq ▸ hs') hs
  · simp [chainUnder_of_not_forks hlaw hplace, hs, hs']

end Forks

namespace ActionGraph

variable {t : SelectionTree} {namer : Namer} {options : BuildOptions} {regions : List (Region ω)}
  {g : ActionGraph}

namespace Built

variable {p : Planner} {accepted : List AcceptedRegion} {d : Draft} (h : Built t p accepted d g)
  (hd : d.Planned p accepted)
include h

theorem selection_of_filterAt {plan : RegionPlan} (hplan : plan ∈ g.regions) {s : Systematic}
    {node id : Nat} (hfilter : plan.FilterAt s node id) :
    ∃ place a, p.index.place? node = some place ∧ d.actions[id]? = some a ∧
      a.consumer? = some (.selection node (place.chainUnder s)) := by
  obtain ⟨entry, hentry, hmem⟩ := hfilter
  obtain ⟨r, -, hfor⟩ := exists_aligned h.plans.flip hplan
  have hplanned := (Planner.plansFor_entries hfor.systematics).2 _ hentry
  obtain ⟨m, -, hselects⟩ := exists_aligned hplanned.filters.flip hmem
  have hnode : node = m := hselects.1
  subst hnode
  exact SelectionEntry.consumer hselects

theorem exists_filterAt {plan : RegionPlan} (hplan : plan ∈ g.regions) {s : Systematic}
    (hs : s ∈ plan.systematics.map Prod.fst) {node : Nat} (hnode : node ∈ t.path plan.target) :
    ∃ id, plan.FilterAt s node id := by
  obtain ⟨⟨s, entry⟩, hentry, rfl⟩ := List.mem_map.mp hs
  obtain ⟨r, -, hfor⟩ := exists_aligned h.plans.flip hplan
  have hplanned := (Planner.plansFor_entries hfor.systematics).2 _ hentry
  rw [hfor.target_eq, ← h.lawful.tree_eq] at hnode
  obtain ⟨⟨m, id⟩, hmem, hselects⟩ := exists_aligned hplanned.filters hnode
  have hm : m = node := hselects.1
  exact ⟨id, entry, hentry, hm ▸ hmem⟩

theorem exists_sumsAt {plan : RegionPlan} (hplan : plan ∈ g.regions) {s : Systematic}
    (hs : s ∈ plan.systematics.map Prod.fst) {node : Nat} (hnode : node ∈ t.path plan.target)
    (hweight : (t.weight node).isSome) : ∃ id, plan.SumsAt s node id := by
  obtain ⟨⟨s, entry⟩, hentry, rfl⟩ := List.mem_map.mp hs
  obtain ⟨r, -, hfor⟩ := exists_aligned h.plans.flip hplan
  have hplanned := (Planner.plansFor_entries hfor.systematics).2 _ hentry
  rw [← h.lawful.tree_eq] at hnode hweight
  rw [hfor.target_eq] at hnode
  obtain ⟨⟨m, id⟩, hmem, hsums⟩ :=
    exists_aligned hplanned.statistics (List.mem_filter.mpr ⟨hnode, hweight⟩)
  have hm : m = node := hsums.1
  exact ⟨id, entry, hentry, hm ▸ hmem⟩

theorem defined_of_mem {a : Action} (ha : a ∈ g.actions) {slot : Nat} {column name : String}
    {definition : Definition} (hop : a.operation = .define slot column name definition) :
    t.nameAt? ⟨a.node, slot⟩ = some name ∧ t.InEffect a.node name a.systematic a.systematic := by
  obtain ⟨-, b, hb, rfl⟩ := h.of_mem ha
  change b.operation = _ at hop
  cases h.sound.made b (List.mem_of_getElem? hb) with
  | @define c older s id tip hdecl heff =>
      obtain ⟨i, q, hq, hc⟩ := hdecl
      obtain ⟨home, hhome, hsuffix, -⟩ :=
        h.lawful.column_home (h.lawful.place_lt hq).2 q c older hq hc
      cases hop
      have hlookup : home.scope.lookup c.name = some c :=
        (h.lawful.resolved hhome).lookup_eq_some.mpr ⟨hsuffix.subset (by simp), rfl⟩
      obtain ⟨-, hname⟩ := (h.lawful.lookup_scope hhome).mp ⟨c, hlookup, rfl⟩
      exact ⟨hname, (h.lawful.inEffect_iff hhome hlookup).mpr heff.symm⟩
  | _ => cases hop

include hd

theorem sums_of_sumsAt {plan : RegionPlan} (hplan : plan ∈ g.regions) {s : Systematic}
    {node id : Nat} (hsums : plan.SumsAt s node id) :
    ∃ place name c filter a, p.index.place? node = some place ∧ t.weight node = some name ∧
      place.scope.lookup name = some c ∧ plan.FilterAt s node filter ∧ d.actions[id]? = some a ∧
      a.sums filter c.ref (c.effective s) = true := by
  obtain ⟨entry, hentry, hmem⟩ := hsums
  obtain ⟨r, -, hfor⟩ := exists_aligned h.plans.flip hplan
  have hplanned := (Planner.plansFor_entries hfor.systematics).2 _ hentry
  obtain ⟨m, hm, hnode, place, name, c, base, b, a, hplace, hw, hc, hb, htask, ha, hsums⟩ :=
    exists_aligned hplanned.statistics.flip hmem
  have hnode : node = m := hnode
  subst hnode
  obtain ⟨⟨m, filter⟩, hfilter, hselects⟩ :=
    exists_aligned hplanned.filters (List.mem_of_mem_filter hm)
  have hm : m = node := hselects.1
  subst hm
  obtain ⟨place', b', hplace', hb', hkb'⟩ := SelectionEntry.consumer hselects
  rw [hplace, Option.some.injEq] at hplace'
  subst hplace'
  have hsame := hd.eq_of_selection (List.mem_of_getElem? hb) (List.mem_of_getElem? hb') h.lawful
    (Action.consumer?_of_select htask) hkb'
  have hbase : base = filter := by
    rw [← h.sound.id_eq base b hb, hsame, h.sound.id_eq filter b' hb']
  subst hbase
  exact ⟨place, name, c, base, a, hplace, h.lawful.tree_eq ▸ hw, hc, ⟨entry, hentry, hfilter⟩, ha,
    hsums⟩

theorem filterAt_eq_iff {plan plan' : RegionPlan} (hplan : plan ∈ g.regions)
    (hplan' : plan' ∈ g.regions) {s s' : Systematic} {node id id' : Nat}
    (hfilter : plan.FilterAt s node id) (hfilter' : plan'.FilterAt s' node id') :
    id = id' ↔ (t.Forks s node ∨ t.Forks s' node → s = s') := by
  obtain ⟨place, a, hplace, ha, hka⟩ := h.selection_of_filterAt hplan hfilter
  obtain ⟨place', a', hplace', ha', hka'⟩ := h.selection_of_filterAt hplan' hfilter'
  rw [hplace, Option.some.injEq] at hplace'
  subst hplace'
  rw [← chainUnder_eq_iff h.lawful hplace]
  constructor
  · intro hid
    rw [hid, ha', Option.some.injEq] at ha
    subst ha
    rw [hka, Option.some.injEq, Consumer.selection.injEq] at hka'
    exact hka'.2
  · intro hchain
    rw [← hchain] at hka'
    have hsame := hd.eq_of_selection (List.mem_of_getElem? ha) (List.mem_of_getElem? ha') h.lawful
      hka hka'
    rw [← h.sound.id_eq id a ha, ← h.sound.id_eq id' a' ha', hsame]

theorem summed {plan : RegionPlan} (hplan : plan ∈ g.regions) {s : Systematic} {node id : Nat}
    (hsums : plan.SumsAt s node id) : ∃ name filter weight e a request,
      t.weight node = some name ∧ plan.FilterAt s node filter ∧ weight.node ∈ t.path node ∧
      t.nameAt? weight = some name ∧ t.InEffect node name s e ∧ g.action? id = some a ∧
      a.operation = .statistics filter weight e request := by
  obtain ⟨place, name, c, filter, a, hplace, hw, hc, hfilter, ha, hkey⟩ :=
    h.sums_of_sumsAt hd hplan hsums
  obtain ⟨request, hop⟩ := Action.sums_iff.mp hkey
  obtain ⟨hpath, hname⟩ := (h.lawful.lookup_scope hplace).mp ⟨c, hc, rfl⟩
  refine ⟨name, filter, c.ref, c.effective s, noteConsumers g.regions d.actions a, request, hw,
    hfilter, hpath, hname, (h.lawful.inEffect_iff hplace hc).mpr rfl, ?_, hop⟩
  rw [action?, h.getElem?_actions, ha, Option.map_some]

/-- Plans have the same sums for a node if and only if they have the same filter there and read the
weight for the same systematic. -/
theorem sumsAt_eq_iff (hsystematics : ∀ r ∈ accepted, r.systematics.Nodup)
    {plan plan' : RegionPlan} (hplan : plan ∈ g.regions) (hplan' : plan' ∈ g.regions)
    {s s' e e' : Systematic} {node id id' filter filter' : Nat} {name : String}
    (hsums : plan.SumsAt s node id) (hsums' : plan'.SumsAt s' node id')
    (hname : t.weight node = some name) (hfilter : plan.FilterAt s node filter)
    (hfilter' : plan'.FilterAt s' node filter') (he : t.InEffect node name s e)
    (he' : t.InEffect node name s' e') : id = id' ↔ filter = filter' ∧ e = e' := by
  obtain ⟨place, _, c, base, a, hplace, hw, hc, hbase, ha, hkey⟩ := h.sums_of_sumsAt hd hplan hsums
  obtain ⟨place', _, c', base', a', hplace', hw', hc', hbase', ha', hkey'⟩ :=
    h.sums_of_sumsAt hd hplan' hsums'
  rw [hname, Option.some.injEq] at hw hw'
  subst hw hw'
  rw [hplace, Option.some.injEq] at hplace'
  subst hplace'
  rw [hc, Option.some.injEq] at hc'
  subst hc'
  have hb : base = filter := (h.filterAt_eq_iff hd hplan hplan hbase hfilter).mpr fun _ => rfl
  have hb' : base' = filter' :=
    (h.filterAt_eq_iff hd hplan' hplan' hbase' hfilter').mpr fun _ => rfl
  subst hb hb'
  rw [h.lawful.inEffect_iff hplace hc] at he he'
  subst he he'
  rw [← Action.key_eq_statistics] at hkey hkey'
  constructor
  · intro hid
    rw [hid, ha', Option.some.injEq] at ha
    subst ha
    rw [hkey, ActionKey.statistics.injEq] at hkey'
    exact ⟨hkey'.1, hkey'.2.2⟩
  · rintro ⟨hfilter, heff⟩
    rw [hfilter, heff, ← hkey'] at hkey
    have hsame := hd.eq_of_key (List.mem_of_getElem? ha) (List.mem_of_getElem? ha') h.lawful
      h.names hsystematics hkey
    rw [← h.sound.id_eq id a ha, ← h.sound.id_eq id' a' ha', hsame]

theorem exists_sumsAt_of_mem (hsystematics : ∀ r ∈ accepted, r.systematics.Nodup) {a : Action}
    (ha : a ∈ g.actions) {filter : ActionId} {weight : ColumnRef} {e : Systematic}
    {request : Request} (hop : a.operation = .statistics filter weight e request) :
    ∃ plan ∈ g.regions, ∃ s node, plan.SumsAt s node a.id := by
  obtain ⟨-, b, hget, rfl⟩ := h.of_mem ha
  have hb := List.mem_of_getElem? hget
  change b.operation = _ at hop
  have hk : b.consumer? = some (.statistics b.node b.systematic weight e) := by
    simp [Action.consumer?, hop]
  rcases h.asked hd hb hk with hinput | hasked
  · cases h.sound.made b hb with
    | source => cases hop
    | _ => cases hinput
  · cases hasked with
    | sums hsums =>
        obtain ⟨plan, hplan, s, entry, hentry, ⟨node, id⟩, hmem, c, hc, hkc⟩ := h.exists_sums hsums
        have hsame := h.eq_of_consumer hd hsystematics hb (List.mem_of_getElem? hc) hk hkc
        have hid : id = b.id := by rw [hsame, h.sound.id_eq id c hc]
        exact ⟨plan, hplan, s, node, entry, hentry, hid ▸ hmem⟩

theorem exists_consumer (hsystematics : ∀ r ∈ accepted, r.systematics.Nodup) {a : Action}
    (ha : a ∈ g.actions) (hsource : a.operation ≠ .source) :
    ∃ plan ∈ g.regions, plan.name ∈ a.consumers := by
  obtain ⟨-, b, hb, hab⟩ := h.of_mem ha
  obtain ⟨c, hc, hck, hline⟩ := hd.led b (List.mem_of_getElem? hb)
  obtain ⟨k, hk⟩ := Option.isSome_iff_exists.mp hck
  have hget := h.sound.toLinked.get_of_mem hc
  rcases h.asked hd hc hk with hinput | hasked
  · -- The lineage of the source is the source alone.
    simp only [h.sound.toLinked.lineage_eq hget, hinput, Option.elim_none,
      List.mem_singleton] at hline
    subst hline
    cases h.sound.made b hc with
    | source => exact absurd (congrArg Action.operation hab) hsource
    | _ => cases hinput
  · obtain ⟨plan, hplan, entry, hentry, id, hroot, e, he, hke⟩ := h.exists_entry hasked
    have hsame := h.eq_of_consumer hd hsystematics hc (List.mem_of_getElem? he) hk hke
    subst hsame
    refine ⟨plan, hplan, h.mem_consumers hplan hentry hroot ha ?_⟩
    rw [h.lineageIds_eq]
    refine mem_lineageIds.mpr ⟨b, ?_, h.sound.id_eq _ _ hb⟩
    rw [← h.sound.id_eq id c he]
    exact hline

/-- A plan that has left the nominal one at some node has other filters from there on. -/
theorem filterAt_ne_nominal {plan : RegionPlan} (hplan : plan ∈ g.regions) {s : Systematic}
    {above node id id' nominal nominal' : Nat} (habove : above ∈ t.path node)
    (hid : plan.FilterAt s above id) (hnominal : plan.FilterAt .nominal above nominal)
    (hne : id ≠ nominal) (hid' : plan.FilterAt s node id')
    (hnominal' : plan.FilterAt .nominal node nominal') : id' ≠ nominal' := by
  obtain ⟨place, -, hplace, -⟩ := h.selection_of_filterAt hplan hid'
  have hsub := h.lawful.wellFormed.path_subset (h.lawful.place_lt hplace).2 habove
  rw [Ne, h.filterAt_eq_iff hd hplan hplan hid hnominal] at hne
  rw [Ne, h.filterAt_eq_iff hd hplan hplan hid' hnominal']
  intro himp
  apply hne
  rintro (⟨variation, rfl, m, hm, haffected⟩ | ⟨_, heq, -⟩)
  · exact himp (.inl ⟨variation, rfl, m, hsub hm, haffected⟩)
  · cases heq

theorem nodup_keys (hsystematics : ∀ r ∈ accepted, r.systematics.Nodup) :
    (g.actions.map Action.key).Nodup := by
  have hkeys : g.actions.map Action.key = d.actions.map Action.key := by
    rw [h.actions_eq, assignConsumers_eq, List.map_map]
    rfl
  rw [hkeys]
  apply List.Nodup.map_on
  · intro a ha b hb hkey
    exact hd.eq_of_key ha hb h.lawful h.names hsystematics hkey
  · exact h.sound.toLinked.nodup

theorem existsUnique_output (hsystematics : ∀ r ∈ accepted, r.systematics.Nodup)
    {r : AcceptedRegion} (hr : r ∈ accepted) {s : Systematic} (hs : s ∈ r.systematics)
    {writer : Nat} {spec : OutputSpec} (hspec : r.outputs[writer]? = some spec) :
    ∃! a, a ∈ g.actions ∧ a.consumer? = some (.output r.name writer s) := by
  obtain ⟨plan, -, entry, -, id, -, e, he, hke⟩ := h.exists_entry (.output hr hs hspec)
  have hget := h.getElem?_actions id
  rw [he, Option.map_some] at hget
  refine ⟨_, ⟨List.mem_of_getElem? hget, hke⟩, ?_⟩
  rintro x ⟨hx, hkx⟩
  obtain ⟨-, y, hy, rfl⟩ := h.of_mem hx
  rw [hd.eq_of_output (List.mem_of_getElem? hy) (List.mem_of_getElem? he) h.names hsystematics
    hkx hke]

omit hd in
theorem requested_of_output {a : Action} (ha : a ∈ g.actions) {region : String} {writer : Nat}
    {s : Systematic} (hk : a.consumer? = some (.output region writer s)) :
    ∃ r ∈ accepted, r.name = region ∧ s ∈ r.systematics ∧
      ∃ spec, r.outputs[writer]? = some spec := by
  obtain ⟨-, b, hb, rfl⟩ := h.of_mem ha
  change b.consumer? = _ at hk
  cases h.sound.made b (List.mem_of_getElem? hb) with
  | output hr _ hs hspec =>
      cases hk
      exact ⟨_, hr, rfl, hs, _, hspec⟩
  | _ => cases hk

end Built

theorem planned_of_build (ht : t.Reachable) (h : build t namer options regions = .ok g) :
    ∃ p accepted d, ScopeIndex.build t = .ok p.index ∧ p.namer = namer ∧ Built t p accepted d g ∧
      d.Planned p accepted ∧
      List.Forall₂ (fun a r => r.accept? p.index = some a) accepted (g.kept regions) := by
  obtain ⟨p, accepted, d, hindex, hnamer, -, haccepted, hplan, hbuilt⟩ := built_of_build ht h
  refine ⟨p, accepted, d, hindex, hnamer, hbuilt, ?_, haccepted ▸ kept_accepted hindex h⟩
  exact Planner.planAll_planned hbuilt.lawful hbuilt.sound.toLinked hplan

/-- Whatever is built shares all that can be shared. -/
theorem economical_of_build (ht : t.Reachable) (hregions : ∀ r ∈ regions, r.Reachable)
    (h : build t namer options regions = .ok g) : g.Economical t regions := by
  obtain ⟨p, accepted, d, -, -, hb, hd, hkept⟩ := planned_of_build ht h
  have hrequests : ∀ a ∈ accepted, a.systematics.Nodup ∧ .nominal ∈ a.systematics := by
    intro a ha
    obtain ⟨r, hr, haccept⟩ := exists_aligned hkept ha
    have hmem : r ∈ regions := ActionGraph.mem_of_mem_kept hr
    obtain ⟨hascending, hnominal⟩ := (hregions r hmem).systematics
    rw [(Region.accept?_eq_some haccept).2.2.1]
    exact ⟨nodup_of_ascending hascending, hnominal⟩
  have hsystematics := fun a ha => (hrequests a ha).1
  constructor
  case keys => exact hb.nodup_keys hd hsystematics
  case output =>
    intro r hr s hs writer hwriter
    obtain ⟨a, ha, haccept⟩ := exists_aligned hkept.flip hr
    obtain ⟨-, hname, hsys, houtputs, -⟩ := Region.accept?_eq_some haccept
    have hspec : a.outputs[writer]? = some r.writers[writer].toOutputSpec := by
      rw [houtputs, List.getElem?_map, List.getElem?_eq_getElem hwriter, Option.map_some]
    rw [← hname]
    exact hb.existsUnique_output hd hsystematics ha (hsys ▸ hs) hspec
  case requested =>
    intro x hx region writer s hk
    obtain ⟨a, ha, rfl, hs, spec, hspec⟩ := hb.requested_of_output hx hk
    obtain ⟨r, hr, haccept⟩ := exists_aligned hkept ha
    obtain ⟨-, hname, hsys, houtputs, -⟩ := Region.accept?_eq_some haccept
    rw [houtputs, List.getElem?_map] at hspec
    obtain ⟨w, hw, -⟩ := Option.map_eq_some_iff.mp hspec
    exact ⟨r, hr, hname.symm, hsys ▸ hs, (List.getElem?_eq_some_iff.mp hw).1⟩
  case nominal =>
    intro plan hplan
    obtain ⟨a, ha, hfor⟩ := exists_aligned hb.plans.flip hplan
    rw [(Planner.plansFor_entries hfor.systematics).1]
    exact (hrequests a ha).2
  case filters =>
    intro plan hplan s hs node hnode
    obtain ⟨id, hid⟩ := hb.exists_filterAt hplan hs hnode
    exact ⟨id, hid, fun id' hid' => (hb.filterAt_eq_iff hd hplan hplan hid' hid).mpr fun _ => rfl⟩
  case fork =>
    intro plan hplan variation node id nominal hid hnominal
    rw [hb.filterAt_eq_iff hd hplan hplan hid hnominal]
    simp [SelectionTree.Forks]
  case apart =>
    intro plan hplan s above node id id' nominal nominal' habove hid hnominal hne hid' hnominal'
    exact hb.filterAt_ne_nominal hd hplan habove hid hnominal hne hid' hnominal'
  case shared =>
    intro plan hplan plan' hplan' s s' node id id' hid hid'
    exact hb.filterAt_eq_iff hd hplan hplan' hid hid'
  case defined =>
    intro a ha slot column name definition hop
    exact hb.defined_of_mem ha hop
  case sums =>
    intro plan hplan s hs node hnode hweight
    obtain ⟨id, hid⟩ := hb.exists_sumsAt hplan hs hnode hweight
    refine ⟨id, hid, fun id' hid' => ?_⟩
    obtain ⟨name, filter, -, e, -, -, hname, hfilter, -, -, he, -⟩ := hb.summed hd hplan hid
    exact (hb.sumsAt_eq_iff hd hsystematics hplan hplan hid' hid hname hfilter hfilter he he).mpr
      ⟨rfl, rfl⟩
  case summed =>
    intro plan hplan s node id hid
    exact hb.summed hd hplan hid
  case shared_sums =>
    intro plan hplan plan' hplan' s s' node name id id' filter filter' e e' hid hid' hname hfilter
      hfilter' he he'
    exact hb.sumsAt_eq_iff hd hsystematics hplan hplan' hid hid' hname hfilter hfilter' he he'
  case summing =>
    intro a ha filter weight e request hop
    exact hb.exists_sumsAt_of_mem hd hsystematics ha hop
  case consumed =>
    intro a ha hsource
    exact hb.exists_consumer hd hsystematics ha hsource

/-- Under `up` hard events have a filter of their own, since `up` changes the score they are
selected by. -/
theorem economical_of_build_sample : ∃ g,
    build Sample.tree Sample.namer {} Sample.regions = .ok g ∧
      g.Economical Sample.tree Sample.regions ∧
      ∀ plan ∈ g.regions, ∀ id nominal, plan.FilterAt (.variation "up") 1 id →
        plan.FilterAt .nominal 1 nominal → id ≠ nominal := by
  have hscore : Affects "up" [Sample.score, Sample.pt] "score" :=
    .input (v := Sample.score) (i := "pt") (by decide) (.override (v := Sample.pt) (by decide))
  have hhard : Sample.tree.FilterAffected "up" 1 :=
    ⟨Sample.hard, rfl, .inr ⟨"score", by decide, hscore⟩⟩
  obtain ⟨g, hg⟩ := Sample.exists_build
  have heconomical := economical_of_build Sample.tree_reachable Sample.regions_reachable hg
  refine ⟨g, hg, heconomical, fun plan hplan id nominal hid hnominal hsame => ?_⟩
  exact (heconomical.fork plan hplan _ _ _ _ hid hnominal).mp hsame 1 (by decide) hhard

end ActionGraph
end SelectionPlan
