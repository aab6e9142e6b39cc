import SelectionPlan.Proofs.Graph.Consumer

/-!
# How planning proceeds

Planning serves one consumer after the other.  It climbs from a frame to one that has the columns
the consumer reads, over definitions that are there or new ones, and puts the consumer behind
it.  So every action leads to a consumer, and no definition is put twice behind the same frame.
-/

namespace SelectionPlan

inductive ActionKey
  /-- The events of a node under the systematic in effect there. -/
  | selection (node : Nat) (chain : Systematic)
  /-- A column, computed for a systematic, behind a frame. -/
  | definition (input : Option ActionId) (column : ColumnRef) (s : Systematic)
  /-- The sums of a weight column, taken for a systematic, over a selection. -/
  | statistics (filter : ActionId) (weight : ColumnRef) (effective : Systematic)
  /-- What a writer of a region is handed under a systematic. -/
  | output (region : String) (writer : Nat) (s : Systematic)
  deriving DecidableEq, Repr

/-- Whether planning looks for an action before it creates one with the key. -/
def ActionKey.isCached : ActionKey → Bool
  | selection .. | output .. => false
  | definition .. | statistics .. => true

namespace Action

def key (a : Action) : ActionKey :=
  match a.operation with
  | .source | .filter _ => .selection a.node a.systematic
  | .define slot .. => .definition a.input ⟨a.node, slot⟩ a.systematic
  | .statistics filter weight effective _ => .statistics filter weight effective
  | .output region writer _ _ => .output region writer a.systematic

variable {a : Action}

theorem key_eq_selection {node : Nat} {s : Systematic} :
    a.key = .selection node s ↔ a.consumer? = some (.selection node s) := by
  cases hop : a.operation <;> simp [key, consumer?, hop]

theorem key_eq_definition {input : Option ActionId} {c : ColumnRef} {s : Systematic} :
    a.key = .definition input c s ↔ a.input = input ∧ a.task = some (.define c s) := by
  cases hop : a.operation <;> simp [key, task, hop]

theorem sums_iff {filter : ActionId} {weight : ColumnRef} {s : Systematic} :
    a.sums filter weight s = true ↔
      ∃ request, a.operation = .statistics filter weight s request := by
  cases hop : a.operation <;> simp [sums, hop, and_assoc]

theorem key_eq_statistics {filter : ActionId} {weight : ColumnRef} {s : Systematic} :
    a.key = .statistics filter weight s ↔ a.sums filter weight s = true := by
  cases hop : a.operation <;> simp [key, sums, hop, and_assoc]

theorem key_eq_output {region : String} {writer : Nat} {s : Systematic} :
    a.key = .output region writer s ↔ a.consumer? = some (.output region writer s) := by
  cases hop : a.operation <;> simp [key, consumer?, hop]

theorem consumer?_of_define {c : ColumnRef} {s : Systematic} (h : a.task = some (.define c s)) :
    a.consumer? = none := by
  cases hop : a.operation <;> simp_all [task, consumer?]

theorem consumer?_of_sums {filter : ActionId} {weight : ColumnRef} {s : Systematic}
    (h : a.sums filter weight s = true) : ∃ k, a.consumer? = some k := by
  cases hop : a.operation <;> simp_all [sums, consumer?]

theorem key_isCached_of_consumer {k : Consumer} (h : a.consumer? = some k)
    (hcached : a.key.isCached = true) : ∃ filter weight s, a.key = .statistics filter weight s := by
  cases hop : a.operation <;> simp_all [key, consumer?, ActionKey.isCached]

end Action

namespace Draft

/-- Planning climbs from the frame `base` of `d` to the frame `r.1` of `r.2`: over an action that is
there already, or over a new definition where there is none. -/
inductive Climbs (d : Draft) (base : ActionId) : ActionId × Draft → Prop
  | refl : Climbs d base (base, d)
  | shared {tip id : ActionId} {e : Draft} {a : Action} : Climbs d base (tip, e) →
      e.actions[id]? = some a → a.input = some tip → Climbs d base (id, e)
  | fresh {tip : ActionId} {e : Draft} {a : Action} {registry : NameRegistry} {c : ColumnRef}
      {s : Systematic} : Climbs d base (tip, e) → a.input = some tip →
      a.task = some (.define c s) → e.extension? tip c s = none →
      Climbs d base (e.actions.length, ⟨e.actions ++ [a], registry⟩)

/-- Planning serves a consumer: the source starts a draft, and every other consumer is put behind a
frame that planning climbs to, sums only where they are not taken yet. -/
inductive Serves (d : Draft) (k : Consumer) : Draft → Prop
  | source {a : Action} : a.operation = .source → a.input = none → a.consumer? = some k →
      Serves d k ⟨d.actions ++ [a], d.registry⟩
  | behind {base tip : ActionId} {e : Draft} {a : Action} : d.Climbs base (tip, e) →
      a.input = some tip → a.consumer? = some k →
      (a.key.isCached = true → a.key ∉ d.actions.map Action.key) →
      Serves d k ⟨e.actions ++ [a], e.registry⟩

inductive History (start : Draft) : List Consumer → Draft → Prop
  | start : History start [] start
  | serve {ks : List Consumer} {k : Consumer} {d d' : Draft} : History start ks d → d.Serves k d' →
      History start (ks ++ [k]) d'

theorem History.trans {start d d' : Draft} {ks ks' : List Consumer} (h : History start ks d)
    (h' : History d ks' d') : History start (ks ++ ks') d' := by
  induction h' with
  | start => simpa using h
  | serve _ hserve ih =>
      rw [← List.append_assoc]
      exact .serve ih hserve

theorem Serves.history {d d' : Draft} {k : Consumer} (h : d.Serves k d') : History d [k] d' :=
  .serve .start h

section Ledger

variable {start d d' : Draft} {k : Consumer} {ks : List Consumer} {base : ActionId}
  {r : ActionId × Draft}

theorem Climbs.isPrefix (h : d.Climbs base r) : d.actions <+: r.2.actions := by
  induction h with
  | refl => exact List.prefix_refl _
  | shared _ _ _ ih => exact ih
  | fresh _ _ _ _ ih => exact ih.trans (List.prefix_append _ _)

theorem Serves.isPrefix (h : d.Serves k d') : d.actions <+: d'.actions := by
  cases h with
  | source => exact List.prefix_append _ _
  | behind hclimb => exact hclimb.isPrefix.trans (List.prefix_append _ _)

/-! ### The ledger of consumers -/

theorem Climbs.mem_of_consumer (h : d.Climbs base r) {b : Action} (hb : b ∈ r.2.actions)
    (hk : b.consumer? = some k) : b ∈ d.actions := by
  induction h with
  | refl => exact hb
  | shared _ _ _ ih => exact ih hb
  | fresh _ _ htask _ ih =>
      rcases List.mem_append.mp hb with hb | hb
      · exact ih hb
      · rw [List.mem_singleton.mp hb, Action.consumer?_of_define htask] at hk
        cases hk

theorem Climbs.consumers (h : d.Climbs base r) :
    r.2.actions.filterMap Action.consumer? = d.actions.filterMap Action.consumer? := by
  induction h with
  | refl => rfl
  | shared _ _ _ ih => exact ih
  | fresh _ _ htask _ ih =>
      simp only [List.filterMap_append, List.filterMap_cons, List.filterMap_nil,
        Action.consumer?_of_define htask, List.append_nil]
      exact ih

theorem Serves.consumers (h : d.Serves k d') :
    d'.actions.filterMap Action.consumer? = d.actions.filterMap Action.consumer? ++ [k] := by
  cases h with
  | source _ _ hk => simp [hk]
  | behind hclimb _ hk _ =>
      have hrest := hclimb.consumers
      simp only at hrest
      simp [hk, hrest]

theorem History.consumers (h : History start ks d) :
    d.actions.filterMap Action.consumer? = start.actions.filterMap Action.consumer? ++ ks := by
  induction h with
  | start => simp
  | serve _ hserve ih => rw [hserve.consumers, ih, List.append_assoc]

/-! ### Nothing is cached twice -/

def Distinct (actions : List Action) : Prop :=
  ((actions.map Action.key).filter ActionKey.isCached).Nodup

theorem Distinct.push {actions : List Action} {a : Action} (h : Distinct actions)
    (ha : a.key.isCached = true → a.key ∉ actions.map Action.key) : Distinct (actions ++ [a]) := by
  rw [Distinct, List.map_append, List.filter_append, List.map_singleton]
  by_cases hcached : a.key.isCached = true
  · rw [List.filter_singleton, hcached, cond_true, ← List.concat_eq_append, List.nodup_concat]
    exact ⟨fun hmem => ha hcached (List.mem_of_mem_filter hmem), h⟩
  · rw [Bool.not_eq_true] at hcached
    simpa [hcached, Distinct] using h

theorem Climbs.distinct (h : d.Climbs base r) (hd : Distinct d.actions) :
    Distinct r.2.actions := by
  induction h with
  | refl => exact hd
  | shared _ _ _ ih => exact ih
  | @fresh tip e a registry c s _ hinput htask hnone ih =>
      refine Distinct.push ih fun _ hmem => ?_
      have hkey : a.key = .definition (some tip) c s := Action.key_eq_definition.mpr ⟨hinput, htask⟩
      obtain ⟨b, hb, hbkey⟩ := List.mem_map.mp hmem
      rw [hkey, Action.key_eq_definition] at hbkey
      have hnot := List.findIdx?_eq_none_iff.mp hnone b hb
      simp [hbkey.1, Action.computes_iff.mpr hbkey.2] at hnot

theorem Serves.distinct (h : d.Serves k d') (hd : Distinct d.actions) : Distinct d'.actions := by
  cases h with
  | @source a hop =>
      refine hd.push fun hcached => ?_
      simp [Action.key, hop, ActionKey.isCached] at hcached
  | @behind base tip e a hclimb _ hk hfresh =>
      refine Distinct.push (hclimb.distinct hd) fun hcached hmem => hfresh hcached ?_
      obtain ⟨filter, weight, s, hkey⟩ := Action.key_isCached_of_consumer hk hcached
      obtain ⟨b, hb, hbkey⟩ := List.mem_map.mp hmem
      obtain ⟨k', hk'⟩ := Action.consumer?_of_sums (Action.key_eq_statistics.mp (hbkey.trans hkey))
      exact hbkey ▸ List.mem_map_of_mem (hclimb.mem_of_consumer hb hk')

theorem History.distinct (h : History start ks d) (hs : Distinct start.actions) :
    Distinct d.actions := by
  induction h with
  | start => exact hs
  | serve _ hserve ih => exact hserve.distinct ih

/-! ### Everything leads to a consumer -/

def Led (actions : List Action) : Prop :=
  ∀ a ∈ actions, ∃ b ∈ actions, b.consumer?.isSome ∧ a ∈ lineage actions b.id

theorem Climbs.led (h : d.Climbs base r) (hl : Linked r.2.actions) :
    ∀ a ∈ r.2.actions, a ∈ d.actions ∨ a ∈ lineage r.2.actions r.1 := by
  induction h with
  | refl => exact fun a ha => .inl ha
  | shared _ hget hinput ih =>
      intro a ha
      rcases ih hl a ha with hold | hline
      · exact .inl hold
      · exact .inr (hl.mem_lineage_of_input hget hinput hline)
  | @fresh tip e b registry c s _ hinput _ _ ih =>
      have hget : (e.actions ++ [b])[e.actions.length]? = some b := List.getElem?_concat_length
      intro a ha
      rcases List.mem_append.mp ha with ha | ha
      · rcases ih hl.append a ha with hold | hline
        · exact .inl hold
        · have htip := List.getElem?_eq_getElem (hl.input_lt _ _ _ hget hinput)
          rw [← hl.lineage_append htip] at hline
          exact .inr (hl.mem_lineage_of_input hget hinput hline)
      · rw [List.mem_singleton.mp ha]
        exact .inr (hl.mem_lineage_self hget)

private theorem Led.push {actions : List Action} {a : Action} (hl : Linked (actions ++ [a]))
    (hk : a.consumer?.isSome) (h : ∀ b ∈ actions, (∃ c ∈ actions, c.consumer?.isSome ∧
      b ∈ lineage actions c.id) ∨ ∃ tip, a.input = some tip ∧ b ∈ lineage actions tip) :
    Led (actions ++ [a]) := by
  have hget : (actions ++ [a])[actions.length]? = some a := List.getElem?_concat_length
  have hid : a.id = actions.length := hl.id_eq _ _ hget
  intro b hb
  rcases List.mem_append.mp hb with hb | hb
  · rcases h b hb with ⟨c, hc, hck, hline⟩ | ⟨tip, hinput, hline⟩
    · rw [← hl.lineage_append (hl.append.get_of_mem hc)] at hline
      exact ⟨c, List.mem_append_left _ hc, hck, hline⟩
    · have htip := List.getElem?_eq_getElem (hl.input_lt _ _ _ hget hinput)
      rw [← hl.lineage_append htip] at hline
      exact ⟨a, by simp, hk, hid ▸ hl.mem_lineage_of_input hget hinput hline⟩
  · rw [List.mem_singleton.mp hb]
    exact ⟨a, by simp, hk, hid ▸ hl.mem_lineage_self hget⟩

theorem Serves.led (h : d.Serves k d') (hl : Linked d'.actions) (hd : Led d.actions) :
    Led d'.actions := by
  cases h with
  | source _ _ hk => exact Led.push hl (by simp [hk]) fun b hb => .inl (hd b hb)
  | @behind base tip e a hclimb hinput hk _ =>
      refine Led.push hl (by simp [hk]) fun b hb => ?_
      rcases hclimb.led hl.append b hb with hold | hline
      · obtain ⟨c, hc, hck, hline⟩ := hd b hold
        have hget := (hl.append.of_prefix hclimb.isPrefix).get_of_mem hc
        rw [← hl.append.lineage_of_prefix hclimb.isPrefix hget] at hline
        exact .inl ⟨c, hclimb.isPrefix.subset hc, hck, hline⟩
      · exact .inr ⟨tip, hinput, hline⟩

theorem History.led (h : History start ks d) (hl : Linked d.actions) (hs : Led start.actions) :
    Led d.actions := by
  induction h with
  | start => exact hs
  | serve _ hserve ih => exact hserve.led hl (ih (hl.of_prefix hserve.isPrefix))

end Ledger
end Draft

namespace Planner

variable {p : Planner} {regions : List AcceptedRegion} {d : Draft} {base : ActionId}
  {s : Systematic} {place : Place}

def selectionsAt (p : Planner) (regions : List AcceptedRegion) (place : Place) : List Consumer :=
  match place.parent, place.filter with
  | some _, some _ => (p.chainsAt regions place).map (.selection place.node)
  | _, _ => [.selection place.node .nominal]

def outputsUnder (r : AcceptedRegion) (s : Systematic) : List Consumer :=
  r.outputs.zipIdx.map fun entry => .output r.name entry.2 s

def outputs (regions : List AcceptedRegion) : List Consumer :=
  regions.flatMap fun r => r.systematics.flatMap (outputsUnder r)

inductive Sums (p : Planner) (regions : List AcceptedRegion) : Consumer → Prop
  | sums {r : AcceptedRegion} {s : Systematic} {place : Place} {weight : String} {c : Column} :
      r ∈ regions → s ∈ r.systematics → place.node ∈ p.index.tree.path r.place.node →
      p.index.place? place.node = some place → p.index.tree.weight place.node = some weight →
      place.scope.lookup weight = some c →
      Sums p regions (.statistics place.node (place.chainUnder s) c.ref (c.effective s))

theorem createDefine_climbs {tip : ActionId} {e : Draft} (h : d.Climbs base (tip, e)) {c : Column}
    {older : Scope} {s : Systematic} (hnone : e.extension? tip c.ref s = none) :
    Meets (p.createDefine (e.producer? tip) e tip c older s) (d.Climbs base) fun _ => True := by
  refine Meets.result fun r hr => ?_
  simp only [createDefine, bind_eq_ok] at hr
  obtain ⟨bindings, -, definition, -, hr⟩ := hr
  split at hr
  · cases hr
  · cases hr
    exact .fresh (e := e) h rfl rfl hnone

theorem withColumn_climbs {r : ActionId × Draft} (h : d.Climbs base r) (need : Column × Scope) :
    Meets (p.withColumn s r need) (d.Climbs base) fun _ => True := by
  obtain ⟨tip, e⟩ := r
  obtain ⟨c, older⟩ := need
  simp only [withColumn]
  split
  · exact h
  · split
    · rename_i id hid
      obtain ⟨hlt, hfound, -⟩ := List.findIdx?_eq_some_iff_getElem.mp hid
      simp only [Bool.and_eq_true, beq_iff_eq] at hfound
      exact .shared h (List.getElem?_eq_getElem hlt) hfound.1
    · exact createDefine_climbs h ‹_›

theorem extend_climbs {scope : Scope} {wanted : List String} :
    Meets (p.extend d base scope wanted s) (d.Climbs base) fun _ => True :=
  Meets.foldlM (I := fun _ r => d.Climbs base r) .refl fun _ need _ _ h => withColumn_climbs h need

private theorem any {ε α : Type} {r : Except ε α} : Meets r (fun _ => True) fun _ => True :=
  Meets.result fun _ _ => trivial

theorem createFilter_serves {parent : Place} {filter : Variable} {chain : Systematic} :
    Meets (p.createFilter d place parent filter chain) (d.Serves (.selection place.node chain))
      fun _ => True := by
  refine any.bind fun base _ => extend_climbs.bind ?_
  rintro ⟨tip, e⟩ hclimb
  have hpush : Meets (p.pushFilter (e.producer? tip) e tip place filter chain)
      (fun r => d.Serves (.selection place.node chain) r.2) fun _ => True :=
    any.bind fun bindings _ => any.bind fun predicate _ =>
      .behind hclimb rfl rfl fun hcached => by cases hcached
  exact hpush.bind fun _ hserve => hserve

theorem createSelections_history :
    Meets (p.createSelections (p.chainsAt regions place) d place)
      (Draft.History d (p.selectionsAt regions place)) fun _ => True := by
  have hsource : d.Serves (.selection place.node .nominal)
      (d.push place.node place.path .nominal none [] 0 .source).2 := .source rfl rfl rfl
  simp only [createSelections, selectionsAt]
  cases place.parent with
  | none => exact hsource.history
  | some i =>
      cases place.filter with
      | none => exact hsource.history
      | some v =>
          dsimp only
          cases p.index.place? i with
          | none => trivial
          | some parent =>
              refine Meets.foldlM
                (I := fun done => Draft.History d (done.map (.selection place.node))) .start ?_
              intro done chain e _ h
              refine createFilter_serves.mono fun e' hserve => ?_
              rw [List.map_append]
              exact .serve h hserve

theorem createStatistics_history {filter : ActionId} {weight : String} {c : Column}
    (hc : place.scope.lookup weight = some c) :
    Meets (p.createStatistics d place filter s weight) (fun r => r.2 = d ∨
      d.Serves (.statistics place.node (place.chainUnder s) c.ref (c.effective s)) r.2)
      fun _ => True := by
  simp only [createStatistics, Scope.require_eq_ok.mpr hc, ok_bind]
  split
  · exact .inl rfl
  · rename_i hnone
    refine extend_climbs.bind ?_
    rintro ⟨tip, e⟩ hclimb
    refine any.bind fun bindings _ => .inr (.behind hclimb rfl rfl fun _ hmem => ?_)
    obtain ⟨b, hb, hbkey⟩ := List.mem_map.mp hmem
    have hsums := Action.key_eq_statistics.mp hbkey
    simp [List.findIdx?_eq_none_iff.mp hnone b hb] at hsums

theorem createOutput_serves {region : String} {writer : Nat} {spec : OutputSpec}
    {weight : Option String} :
    Meets (p.createOutput d region place s writer spec weight)
      (fun r => d.Serves (.output region writer s) r.2) fun _ => True := by
  refine any.bind fun base _ => extend_climbs.bind ?_
  rintro ⟨tip, e⟩ hclimb
  refine any.bind fun bindings _ => ?_
  exact .behind hclimb rfl rfl fun hcached => by cases hcached

def ServesSums (p : Planner) (regions : List AcceptedRegion) (d d' : Draft) : Prop :=
  ∃ ks, Draft.History d ks d' ∧ ∀ k ∈ ks, p.Sums regions k

theorem ServesSums.refl : p.ServesSums regions d d := ⟨[], .start, by simp⟩

theorem ServesSums.trans {d' d'' : Draft} (h : p.ServesSums regions d d')
    (h' : p.ServesSums regions d' d'') : p.ServesSums regions d d'' := by
  obtain ⟨ks, hks, hsums⟩ := h
  obtain ⟨ks', hks', hsums'⟩ := h'
  exact ⟨ks ++ ks', hks.trans hks', List.forall_mem_append.mpr ⟨hsums, hsums'⟩⟩

def SameSystematics (r : AcceptedRegion) (plan : RegionPlan) : Prop :=
  plan.systematics.map Prod.fst = r.systematics

section Plans

variable {t : SelectionTree} (hlaw : ScopeIndex.Lawful t p.index) {r : AcceptedRegion}
include hlaw

theorem planNode_sums (hr : r ∈ regions) (hs : s ∈ r.systematics) {node : Nat}
    (hnode : node ∈ p.index.tree.path r.place.node) (plan : SystematicPlan) :
    Meets (p.planNode s (plan, d) node) (fun result => p.ServesSums regions d result.2)
      fun _ => True := by
  simp only [planNode]
  cases hplace : p.index.place? node with
  | none => trivial
  | some place =>
      refine any.bind fun filter _ => ?_
      have hself := (hlaw.place_lt hplace).1
      subst hself
      cases hw : p.index.tree.weight place.node with
      | none => exact .refl
      | some weight =>
          obtain ⟨c, hc⟩ := hlaw.exists_weight hplace (hlaw.tree_eq ▸ hw)
          refine (createStatistics_history hc).bind ?_
          rintro ⟨id, e⟩ hserved
          rcases hserved with rfl | hserve
          · exact .refl
          · refine ⟨_, hserve.history, fun k hk => ?_⟩
            rw [List.mem_singleton.mp hk]
            exact .sums hr hs hnode hplace hw hc

theorem planSystematic_sums (hr : r ∈ regions) (hs : s ∈ r.systematics)
    (plans : List (Systematic × SystematicPlan)) :
    Meets (p.planSystematic r.place.node plans d s) (fun result =>
      p.ServesSums regions d result.2 ∧ result.1.map Prod.fst = plans.map Prod.fst ++ [s])
      fun _ => True := by
  refine Meets.bind (P := fun result => p.ServesSums regions d result.2) ?_ ?_
  · refine Meets.foldlM (I := fun _ (result : SystematicPlan × Draft) =>
      p.ServesSums regions d result.2) .refl fun done node state hpre h => ?_
    have hnode : node ∈ p.index.tree.path r.place.node := hpre.subset (by simp)
    exact (planNode_sums hlaw hr hs hnode state.1).mono fun _ h' => h.trans h'
  · rintro ⟨plan, e⟩ h
    exact ⟨h, by simp⟩

theorem planRegion_sums (hr : r ∈ regions) (plans : List RegionPlan) :
    Meets (p.planRegion (plans, d) r) (fun result => p.ServesSums regions d result.2 ∧
      ∃ plan, result.1 = plans ++ [plan] ∧ SameSystematics r plan) fun _ => True := by
  refine Meets.bind (P := fun result => p.ServesSums regions d result.2 ∧
    result.1.map Prod.fst = r.systematics) ?_ ?_
  · refine Meets.foldlM (I := fun done (result : List (Systematic × SystematicPlan) × Draft) =>
      p.ServesSums regions d result.2 ∧ result.1.map Prod.fst = done) ⟨.refl, rfl⟩ ?_
    rintro done s ⟨plans, e⟩ hpre ⟨h, hkeys⟩
    have hs : s ∈ r.systematics := hpre.subset (by simp)
    refine (planSystematic_sums hlaw hr hs plans).mono fun result h' => ?_
    exact ⟨h.trans h'.1, h'.2.trans (by rw [hkeys])⟩
  · rintro ⟨systematics, e⟩ ⟨h, hkeys⟩
    exact ⟨h, _, rfl, hkeys⟩

end Plans

theorem addOutputs_history {r : AcceptedRegion} (plan : SystematicPlan) :
    Meets (p.addOutputs r d s plan)
      (fun result => Draft.History d (outputsUnder r s) result.2) fun _ => True := by
  refine Meets.foldlM (I := fun done (result : SystematicPlan × Draft) =>
    Draft.History d (done.map fun (entry : OutputSpec × Nat) => .output r.name entry.2 s) result.2)
    .start ?_
  rintro done ⟨spec, writer⟩ ⟨plan, e⟩ - h
  refine createOutput_serves.bind ?_
  rintro ⟨id, e'⟩ hserve
  rw [List.map_append]
  exact .serve h hserve

theorem outputRegion_history {r : AcceptedRegion} {plan : RegionPlan}
    (hkeys : SameSystematics r plan) (plans : List RegionPlan) :
    Meets (p.outputRegion (plans, d) (r, plan))
      (fun result => Draft.History d (r.systematics.flatMap (outputsUnder r)) result.2)
      fun _ => True := by
  refine Meets.bind (P := fun result =>
    Draft.History d (r.systematics.flatMap (outputsUnder r)) result.2) ?_ ?_
  · rw [← show _ = r.systematics from hkeys]
    refine Meets.foldlM (I := fun done (result : List (Systematic × SystematicPlan) × Draft) =>
      Draft.History d ((done.map Prod.fst).flatMap (outputsUnder r)) result.2) .start ?_
    rintro done ⟨s, entry⟩ ⟨finished, e⟩ - h
    refine (addOutputs_history entry).bind ?_
    rintro ⟨entry', e'⟩ h'
    rw [List.map_append, List.flatMap_append]
    exact h.trans (by simpa using h')
  · rintro ⟨systematics, e⟩ h
    exact h

/-- All that planning creates: the selections in preorder, then sums that the regions ask for, then
the outputs of the regions. -/
theorem planAll_history {t : SelectionTree} (hlaw : ScopeIndex.Lawful t p.index) :
    Meets (p.planAll regions) (fun result => ∃ sums, (∀ k ∈ sums, p.Sums regions k) ∧
      Draft.History { registry := p.datasetColumns }
        (p.index.places.flatMap (p.selectionsAt regions) ++ sums ++ outputs regions) result.2)
      fun _ => True := by
  refine Meets.bind (P := Draft.History { registry := p.datasetColumns }
    (p.index.places.flatMap (p.selectionsAt regions))) ?_ fun d hselections => ?_
  · refine Meets.foldlM (I := fun done => Draft.History { registry := p.datasetColumns }
      (done.flatMap (p.selectionsAt regions))) .start fun done place e _ h => ?_
    refine createSelections_history.mono fun e' h' => ?_
    rw [List.flatMap_append]
    exact h.trans (by simpa using h')
  refine Meets.bind (P := fun result => p.ServesSums regions d result.2 ∧
    List.Forall₂ SameSystematics regions result.1) ?_ ?_
  · refine Meets.foldlM (I := fun done (result : List RegionPlan × Draft) =>
      p.ServesSums regions d result.2 ∧ List.Forall₂ SameSystematics done result.1) ⟨.refl, .nil⟩ ?_
    rintro done r ⟨plans, e⟩ hpre ⟨h, hkeys⟩
    refine (planRegion_sums hlaw (hpre.subset (by simp)) plans).mono ?_
    rintro ⟨plans', e'⟩ ⟨h', plan, rfl, hplan⟩
    exact ⟨h.trans h', List.rel_append hkeys (.cons hplan .nil)⟩
  · rintro ⟨plans, e⟩ ⟨⟨sums, hsums, hasked⟩, hkeys⟩
    have hzip : (regions.zip plans).map Prod.fst = regions :=
      List.map_fst_zip (Nat.le_of_eq hkeys.length_eq)
    have houtputs : Meets ((regions.zip plans).foldlM p.outputRegion ([], e))
        (fun result => Draft.History e (outputs ((regions.zip plans).map Prod.fst)) result.2)
        fun _ => True := by
      refine Meets.foldlM (I := fun done (result : List RegionPlan × Draft) =>
        Draft.History e (outputs (done.map Prod.fst)) result.2) .start ?_
      rintro done ⟨r, plan⟩ ⟨finished, e'⟩ hpre h
      have hmem : (r, plan) ∈ regions.zip plans := hpre.subset (by simp)
      have hsame := (List.forall₂_iff_zip.mp hkeys).2 hmem
      refine (outputRegion_history hsame finished).mono fun result h' => ?_
      rw [List.map_append, outputs, List.flatMap_append]
      exact h.trans (by simpa using h')
    rw [hzip] at houtputs
    exact houtputs.mono fun result h => ⟨sums, hasked, (hselections.trans hsums).trans h⟩

end Planner
end SelectionPlan
