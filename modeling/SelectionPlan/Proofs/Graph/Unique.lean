import SelectionPlan.Proofs.Graph.History

/-!
# Every action once

No two planned actions have the same key, every one leads to a consumer, and every consumer but the
source is one that some region asks for.
-/

namespace SelectionPlan

/-- What some regions ask of planning: the selections on the way to their nodes, sums of the weights
there, and an output for each of their writers, all under every systematic they request. -/
inductive Planner.Asks (p : Planner) (regions : List AcceptedRegion) : Consumer → Prop
  | selection {r : AcceptedRegion} {s : Systematic} {place : Place} :
      r ∈ regions → s ∈ r.systematics → place.node ∈ p.index.tree.path r.place.node →
      p.index.place? place.node = some place →
      Asks p regions (.selection place.node (place.chainUnder s))
  | sums {k : Consumer} : p.Sums regions k → Asks p regions k
  | output {r : AcceptedRegion} {s : Systematic} {writer : Nat} {spec : OutputSpec} :
      r ∈ regions → s ∈ r.systematics → r.outputs[writer]? = some spec →
      Asks p regions (.output r.name writer s)

structure Draft.Planned (p : Planner) (regions : List AcceptedRegion) (d : Draft) : Prop where
  consumers : ∃ sums, (∀ k ∈ sums, p.Sums regions k) ∧ d.actions.filterMap Action.consumer? =
    p.index.places.flatMap (p.selectionsAt regions) ++ sums ++ Planner.outputs regions
  distinct : Draft.Distinct d.actions
  led : Draft.Led d.actions

theorem Planner.planAll_planned {p : Planner} {regions : List AcceptedRegion} {t : SelectionTree}
    (hlaw : ScopeIndex.Lawful t p.index) {plans : List RegionPlan} {d : Draft}
    (hl : Linked d.actions) (h : p.planAll regions = .ok (plans, d)) : d.Planned p regions := by
  obtain ⟨sums, hsums, history⟩ := (planAll_history hlaw).of_eq_ok h
  refine ⟨⟨sums, hsums, ?_⟩, history.distinct ?_, history.led hl ?_⟩
  · simpa using history.consumers
  · exact List.nodup_nil
  · intro a ha
    cases ha

section Selections

variable {p : Planner} {regions : List AcceptedRegion} {k : Consumer}

theorem Planner.mem_selectionsAt {place : Place} (h : k ∈ p.selectionsAt regions place) :
    ∃ chain, k = .selection place.node chain := by
  simp only [selectionsAt] at h
  split at h
  · obtain ⟨chain, -, rfl⟩ := List.mem_map.mp h
    exact ⟨chain, rfl⟩
  · exact ⟨.nominal, List.mem_singleton.mp h⟩

theorem Planner.nodup_selectionsAt (place : Place) : (p.selectionsAt regions place).Nodup := by
  simp only [selectionsAt]
  split
  · refine List.Nodup.map ?_ (nodup_of_ascending (pairwise_unionDistinct List.Pairwise.nil))
    intro chain chain' heq
    cases heq
    rfl
  · exact List.nodup_singleton _

theorem Planner.nodup_selections {t : SelectionTree} (hlaw : ScopeIndex.Lawful t p.index) :
    (p.index.places.flatMap (p.selectionsAt regions)).Nodup := by
  have hnodes : (p.index.places.map Place.node).Nodup := by
    rw [hlaw.places_node]
    exact hlaw.wellFormed.nodup_preorder
  refine List.nodup_flatMap.mpr ⟨fun place _ => nodup_selectionsAt place, ?_⟩
  refine (List.pairwise_map.mp hnodes).imp fun {q q'} hne k hq hq' => ?_
  obtain ⟨chain, rfl⟩ := mem_selectionsAt hq
  obtain ⟨chain', heq⟩ := mem_selectionsAt hq'
  injection heq with hnode _
  exact hne hnode

theorem Planner.mem_outputsUnder {r : AcceptedRegion} {s : Systematic} :
    k ∈ outputsUnder r s ↔ ∃ writer spec, r.outputs[writer]? = some spec ∧
      k = .output r.name writer s := by
  simp only [outputsUnder, List.mem_map, Prod.exists, List.mk_mem_zipIdx_iff_getElem?]
  constructor
  · rintro ⟨spec, writer, hspec, rfl⟩
    exact ⟨writer, spec, hspec, rfl⟩
  · rintro ⟨writer, spec, hspec, rfl⟩
    exact ⟨spec, writer, hspec, rfl⟩

theorem Planner.nodup_outputs (hnames : (regions.map AcceptedRegion.name).Nodup)
    (hsystematics : ∀ r ∈ regions, r.systematics.Nodup) : (outputs regions).Nodup := by
  refine List.nodup_flatMap.mpr ⟨fun r hr => List.nodup_flatMap.mpr ⟨fun s _ => ?_, ?_⟩, ?_⟩
  · have hwriters : (r.outputs.zipIdx.map Prod.snd).Nodup := by
      rw [List.zipIdx_map_snd]
      exact List.nodup_range'
    refine (List.pairwise_map.mp hwriters).map _ fun entry entry' hne heq => ?_
    injection heq with _ hwriter _
    exact hne hwriter
  · refine (hsystematics r hr).imp fun {s s'} hne k hk hk' => ?_
    obtain ⟨writer, spec, -, rfl⟩ := mem_outputsUnder.mp hk
    obtain ⟨writer', spec', -, heq⟩ := mem_outputsUnder.mp hk'
    injection heq with _ _ hs
    exact hne hs
  · refine (List.pairwise_map.mp hnames).imp fun {r r'} hne k hk hk' => ?_
    obtain ⟨s, -, hk⟩ := List.mem_flatMap.mp hk
    obtain ⟨s', -, hk'⟩ := List.mem_flatMap.mp hk'
    obtain ⟨writer, spec, -, rfl⟩ := mem_outputsUnder.mp hk
    obtain ⟨writer', spec', -, heq⟩ := mem_outputsUnder.mp hk'
    injection heq with hname _ _
    exact hne hname

end Selections

theorem eq_of_count_filterMap {α κ : Type} [DecidableEq κ] {f : α → Option κ} {xs : List α} {k : κ}
    (h : (xs.filterMap f).count k ≤ 1) {x y : α} (hx : x ∈ xs) (hy : y ∈ xs) (hfx : f x = some k)
    (hfy : f y = some k) : x = y := by
  induction xs with
  | nil => cases hx
  | cons z zs ih =>
      have honce (hz : f z = some k) (w : α) (hw : w ∈ zs) : f w ≠ some k := by
        intro hfw
        have hpos : 0 < (zs.filterMap f).count k :=
          List.count_pos_iff.mpr (List.mem_filterMap.mpr ⟨w, hw, hfw⟩)
        rw [List.filterMap_cons_some hz, List.count_cons_self] at h
        omega
      have hle : (zs.filterMap f).count k ≤ ((z :: zs).filterMap f).count k :=
        ((List.sublist_cons_self z zs).filterMap f).count_le k
      rcases List.mem_cons.mp hx with rfl | hx
      · rcases List.mem_cons.mp hy with rfl | hy
        · rfl
        · exact absurd hfy (honce hfx y hy)
      · rcases List.mem_cons.mp hy with hyz | hy
        · exact absurd hfx (honce (hyz ▸ hfy) x hx)
        · exact ih (hle.trans h) hx hy

theorem Linked.nodup {actions : List Action} (h : Linked actions) : actions.Nodup := by
  refine List.nodup_iff_getElem?_ne_getElem?.mpr fun i j hlt hj heq => ?_
  have ha := List.getElem?_eq_getElem hj
  have hij := (h.id_eq i _ (heq.trans ha)).symm.trans (h.id_eq j _ ha)
  exact absurd hij (Nat.ne_of_lt hlt)

namespace Draft.Planned

variable {p : Planner} {regions : List AcceptedRegion} {d : Draft} {t : SelectionTree}
  {a b : Action} {s : Systematic}
  (h : d.Planned p regions) (hlaw : ScopeIndex.Lawful t p.index) (ha : a ∈ d.actions)
include h ha

theorem consumer_cases {k : Consumer} (hk : a.consumer? = some k) :
    (∃ place ∈ p.index.places, k ∈ p.selectionsAt regions place) ∨ p.Sums regions k ∨
      k ∈ Planner.outputs regions := by
  obtain ⟨sums, hsums, hconsumers⟩ := h.consumers
  have hmem : k ∈ d.actions.filterMap Action.consumer? := List.mem_filterMap.mpr ⟨a, ha, hk⟩
  rw [hconsumers, List.mem_append, List.mem_append, List.mem_flatMap] at hmem
  rcases hmem with (hselection | hsum) | houtput
  · exact .inl hselection
  · exact .inr (.inl (hsums k hsum))
  · exact .inr (.inr houtput)

variable (hb : b ∈ d.actions)
include hb

theorem eq_of_selection {node : Nat} (hlaw : ScopeIndex.Lawful t p.index)
    (hka : a.consumer? = some (.selection node s)) (hkb : b.consumer? = some (.selection node s)) :
    a = b := by
  obtain ⟨sums, hsums, hconsumers⟩ := h.consumers
  refine eq_of_count_filterMap ?_ ha hb hka hkb
  have hsum : Consumer.selection node s ∉ sums := fun hmem => by cases hsums _ hmem
  have houtput : Consumer.selection node s ∉ Planner.outputs regions := by
    simp [Planner.outputs, Planner.mem_outputsUnder]
  rw [hconsumers, List.count_append, List.count_append, List.count_eq_zero_of_not_mem hsum,
    List.count_eq_zero_of_not_mem houtput]
  exact List.nodup_iff_count_le_one.mp (Planner.nodup_selections hlaw) _

theorem eq_of_output {region : String} {writer : Nat}
    (hnames : (regions.map AcceptedRegion.name).Nodup)
    (hsystematics : ∀ r ∈ regions, r.systematics.Nodup)
    (hka : a.consumer? = some (.output region writer s))
    (hkb : b.consumer? = some (.output region writer s)) : a = b := by
  obtain ⟨sums, hsums, hconsumers⟩ := h.consumers
  refine eq_of_count_filterMap ?_ ha hb hka hkb
  have hsum : Consumer.output region writer s ∉ sums := fun hmem => by cases hsums _ hmem
  have hselection : Consumer.output region writer s ∉
      p.index.places.flatMap (p.selectionsAt regions) := by
    intro hmem
    obtain ⟨place, -, hk⟩ := List.mem_flatMap.mp hmem
    obtain ⟨chain, heq⟩ := Planner.mem_selectionsAt hk
    cases heq
  rw [hconsumers, List.count_append, List.count_append, List.count_eq_zero_of_not_mem hsum,
    List.count_eq_zero_of_not_mem hselection, Nat.zero_add]
  exact List.nodup_iff_count_le_one.mp (Planner.nodup_outputs hnames hsystematics) _

theorem eq_of_cached (hkey : a.key = b.key) (hcached : a.key.isCached = true) : a = b := by
  have hdistinct : ((d.actions.filter (ActionKey.isCached ∘ Action.key)).map Action.key).Nodup := by
    rw [← List.filter_map]
    exact h.distinct
  refine List.inj_on_of_nodup_map hdistinct (List.mem_filter.mpr ⟨ha, hcached⟩)
    (List.mem_filter.mpr ⟨hb, ?_⟩) hkey
  simpa [← hkey] using hcached

/-- No two actions have the same key. -/
theorem eq_of_key (hlaw : ScopeIndex.Lawful t p.index)
    (hnames : (regions.map AcceptedRegion.name).Nodup)
    (hsystematics : ∀ r ∈ regions, r.systematics.Nodup) (hkey : a.key = b.key) : a = b := by
  cases hk : a.key with
  | selection node s =>
      exact h.eq_of_selection ha hb hlaw (Action.key_eq_selection.mp hk)
        (Action.key_eq_selection.mp (hkey ▸ hk))
  | output region writer s =>
      exact h.eq_of_output ha hb hnames hsystematics (Action.key_eq_output.mp hk)
        (Action.key_eq_output.mp (hkey ▸ hk))
  | definition => exact h.eq_of_cached ha hb hkey (by rw [hk]; rfl)
  | statistics => exact h.eq_of_cached ha hb hkey (by rw [hk]; rfl)

end Draft.Planned

namespace ActionGraph.Built

variable {t : SelectionTree} {p : Planner} {accepted : List AcceptedRegion} {d : Draft}
  {g : ActionGraph} (h : Built t p accepted d g)
include h

theorem exists_plan {r : AcceptedRegion} {s : Systematic} (hr : r ∈ accepted)
    (hs : s ∈ r.systematics) : ∃ plan ∈ g.regions, ∃ entry, (s, entry) ∈ plan.systematics ∧
      PlanFor p d.actions r.name s (p.index.tree.path r.place.node) r.outputs.zipIdx entry := by
  obtain ⟨plan, hplan, hfor⟩ := exists_aligned h.plans hr
  obtain ⟨⟨s', entry⟩, hentry, rfl, hentries⟩ := exists_aligned hfor.systematics hs
  exact ⟨plan, hplan, entry, hentry, hentries⟩

theorem exists_sums {k : Consumer} (hk : p.Sums accepted k) :
    ∃ plan ∈ g.regions, ∃ s entry, (s, entry) ∈ plan.systematics ∧ ∃ sum ∈ entry.statistics, ∃ a,
      d.actions[sum.2]? = some a ∧ a.consumer? = some k := by
  obtain ⟨hr, hs, hnode, hplace, hw, hc⟩ := hk
  obtain ⟨plan, hplan, entry, hentry, hfor⟩ := h.exists_plan hr hs
  obtain ⟨sum, hsum, hstatistics⟩ := exists_aligned hfor.statistics
    (List.mem_filter.mpr ⟨hnode, by simp [hw]⟩)
  obtain ⟨q, w, c, a, hq, hw', hc', ha, hka⟩ := hstatistics.consumer h.sound
  rw [hplace, Option.some.injEq] at hq
  subst hq
  rw [hw, Option.some.injEq] at hw'
  subst hw'
  rw [hc, Option.some.injEq] at hc'
  subst hc'
  exact ⟨plan, hplan, _, entry, hentry, sum, hsum, a, ha, hka⟩

theorem exists_entry {k : Consumer} (hk : p.Asks accepted k) :
    ∃ plan ∈ g.regions, ∃ entry ∈ plan.systematics, ∃ id ∈ entry.2.roots, ∃ a,
      d.actions[id]? = some a ∧ a.consumer? = some k := by
  cases hk with
  | @selection r s place hr hs hnode hplace =>
      obtain ⟨plan, hplan, entry, hentry, hfor⟩ := h.exists_plan hr hs
      obtain ⟨filter, hfilter, hselects⟩ := exists_aligned hfor.filters hnode
      obtain ⟨q, a, hq, ha, hka⟩ := hselects.consumer
      rw [hplace, Option.some.injEq] at hq
      subst hq
      exact ⟨plan, hplan, _, hentry, _, List.mem_map_of_mem (by simp [hfilter]), a, ha, hka⟩
  | sums hsum =>
      obtain ⟨plan, hplan, s, entry, hentry, sum, hsum, a, ha, hka⟩ := h.exists_sums hsum
      exact ⟨plan, hplan, _, hentry, _, List.mem_map_of_mem (by simp [hsum]), a, ha, hka⟩
  | @output r s writer spec hr hs hspec =>
      obtain ⟨plan, hplan, entry, hentry, hfor⟩ := h.exists_plan hr hs
      obtain ⟨output, houtput, hentries⟩ := exists_aligned hfor.outputs
        (List.mk_mem_zipIdx_iff_getElem?.mpr hspec)
      obtain ⟨a, ha, hka⟩ := hentries.consumer
      exact ⟨plan, hplan, _, hentry, _, List.mem_map_of_mem (by simp [houtput]), a, ha, hka⟩

theorem sums_over {a : Action} (ha : a ∈ d.actions) {node : Nat} {chain s : Systematic}
    {weight : ColumnRef} (hk : a.consumer? = some (.statistics node chain weight s)) :
    ∃ base b, d.actions[base]? = some b ∧ b.task = some (.select node chain) ∧
      a.key = .statistics base weight s := by
  cases h.sound.made a ha with
  | statistics _ _ _ _ _ hs =>
      cases hk
      obtain ⟨b, hb, htask⟩ := hs.base_task
      exact ⟨_, b, hb, htask, rfl⟩
  | _ => cases hk

variable (hd : d.Planned p accepted)
include hd

theorem asked {a : Action} (ha : a ∈ d.actions) {k : Consumer} (hk : a.consumer? = some k) :
    a.input = none ∨ p.Asks accepted k := by
  have hcases := hd.consumer_cases ha hk
  cases h.sound.made a ha with
  | source => exact .inl rfl
  | define => cases hk
  | statistics =>
      cases hk
      rcases hcases with ⟨q, -, hselection⟩ | hsum | houtput
      · obtain ⟨chain, heq⟩ := Planner.mem_selectionsAt hselection
        cases heq
      · exact .inr (.sums hsum)
      · simp [Planner.outputs, Planner.mem_outputsUnder, Planner.statisticsAction] at houtput
  | output hr _ hs hspec =>
      cases hk
      exact .inr (.output hr hs hspec)
  | @filter place parent v chain id tip base hplace hfilter hparent =>
      cases hk
      rcases hcases with ⟨q, hq, hselection⟩ | hsum | houtput
      · obtain ⟨chain', heq⟩ := Planner.mem_selectionsAt hselection
        injection heq with hnode _
        have hsame := h.lawful.place_of_mem q hq
        rw [← hnode] at hsame
        change p.index.place? place.node = some q at hsame
        rw [hplace, Option.some.injEq] at hsame
        subst hsame
        simp only [Planner.selectionsAt, hparent, hfilter, List.mem_map] at hselection
        obtain ⟨chain'', hchain, heq⟩ := hselection
        obtain ⟨r, hr, hbelow, s, hs, rfl⟩ := Planner.mem_chainsAt.mp hchain
        exact .inr (heq ▸ .selection hr hs hbelow hplace)
      · cases hsum
      · simp [Planner.outputs, Planner.mem_outputsUnder, Planner.filterAction] at houtput

theorem input_eq_none_iff {a : Action} (ha : a ∈ d.actions) : a.input = none ↔ a.id = 0 := by
  have hsource {b : Action} (hb : b ∈ d.actions) (hinput : b.input = none) :
      b.consumer? = some (.selection 0 .nominal) := by
    cases h.sound.made b hb with
    | source hplace =>
        simp only [Planner.sourceAction, Action.consumer?, (h.lawful.place_lt hplace).1]
    | _ => cases hinput
  have hfirst {b : Action} (hb : b ∈ d.actions) (hid : b.id = 0) : b.input = none := by
    refine Option.eq_none_iff_forall_ne_some.mpr fun input hinput => ?_
    have hget := h.sound.toLinked.get_of_mem hb
    have hlt := h.sound.input_lt _ _ _ hget hinput
    rw [hid] at hlt
    exact Nat.not_lt_zero _ hlt
  constructor
  · intro hinput
    have hpos : 0 < d.actions.length := List.length_pos_of_mem ha
    have hget := List.getElem?_eq_getElem hpos
    have hid := h.sound.id_eq 0 _ hget
    have hmem := List.getElem_mem hpos
    have hsame := hd.eq_of_selection ha hmem h.lawful (hsource ha hinput)
      (hsource hmem (hfirst hmem hid))
    rw [hsame, hid]
  · exact hfirst ha

/-- A consumer is served once. -/
theorem eq_of_consumer (hsystematics : ∀ r ∈ accepted, r.systematics.Nodup) {a b : Action}
    (ha : a ∈ d.actions) (hb : b ∈ d.actions) {k : Consumer} (hka : a.consumer? = some k)
    (hkb : b.consumer? = some k) : a = b := by
  cases k with
  | selection node chain => exact hd.eq_of_selection ha hb h.lawful hka hkb
  | output region writer s => exact hd.eq_of_output ha hb h.names hsystematics hka hkb
  | statistics node chain weight s =>
      -- The selections that are summed over are the same, and then so are the keys.
      obtain ⟨base, c, hc, hctask, hkey⟩ := h.sums_over ha hka
      obtain ⟨base', c', hc', hctask', hkey'⟩ := h.sums_over hb hkb
      have hsame := hd.eq_of_selection (List.mem_of_getElem? hc) (List.mem_of_getElem? hc') h.lawful
        (Action.consumer?_of_select hctask) (Action.consumer?_of_select hctask')
      have hbase : base = base' := by
        rw [← h.sound.id_eq _ _ hc, ← h.sound.id_eq _ _ hc', hsame]
      refine hd.eq_of_cached ha hb ?_ (by rw [hkey]; rfl)
      rw [hkey, hkey', hbase]

end ActionGraph.Built
end SelectionPlan
