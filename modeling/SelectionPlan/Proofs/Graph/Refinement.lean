import SelectionPlan.Proofs.Graph.Tables

/-!
# Tables against searches

Every step of planning from tables ends as the step of planning by search does that starts from the
same draft, and leaves the tables consistent.
-/

namespace SelectionPlan
namespace Builder

variable {index : ScopeIndex} {p : Planner} {b : Builder}

/-- A frame of planning from tables and one of planning by search, both behind the same selections
and sums as in the builder `b`. -/
structure SameFrame (index : ScopeIndex) (b : Builder) (x : Lineage × Builder)
    (y : ActionId × Draft) : Prop where
  tip_eq : x.1.tip = y.1
  draft_eq : x.2.toDraft = y.2
  tells : x.1.Tells x.2.toDraft
  consistent : x.2.Consistent index
  filters_eq : x.2.filters = b.filters
  statistics_eq : x.2.statistics = b.statistics

/-- Results of planning from tables and by search that are equal up to the tables. -/
structure SameResult {α : Type} (index : ScopeIndex) (x : α × Builder) (y : α × Draft) : Prop where
  result_eq : x.1 = y.1
  draft_eq : x.2.toDraft = y.2
  consistent : x.2.Consistent index

def HasFrame (b : Builder) (id : ActionId) : Prop :=
  (b.frameOf id).tip = id ∧ (b.frameOf id).Tells b.toDraft

/-! ### Columns -/

theorem withColumn_alike {s : Systematic} {x : Lineage × Builder} {y : ActionId × Draft}
    (h : SameFrame index b x y) (need : Column × Scope) :
    Alike (· = ·) (SameFrame index b) (withColumn p s x need) (p.withColumn s y need) := by
  obtain ⟨line, b'⟩ := x
  obtain ⟨tip, d⟩ := y
  obtain ⟨c, older⟩ := need
  obtain ⟨rfl, rfl, htells, hb, hfilters, hstatistics⟩ := h
  simp only at htells hb hfilters hstatistics
  simp only [withColumn, Planner.withColumn, htells.producer_eq, hb.extension_eq]
  cases hproducer : b'.toDraft.producer? line.tip c.ref (c.effective s) with
  | some _ => exact .ok ⟨rfl, rfl, htells, hb, hfilters, hstatistics⟩
  | none =>
      cases hextension : b'.toDraft.extension? line.tip c.ref (c.effective s) with
      | some id =>
          obtain ⟨hlt, hadds, -⟩ := List.findIdx?_eq_some_iff_getElem.mp hextension
          have hkey : Action.adds (line.tip, c.ref, c.effective s) b'.actions[id] = true := hadds
          obtain ⟨hinput, htask⟩ := adds_iff.mp hkey
          exact .ok ⟨rfl, rfl, htells.extend hb.linked (List.getElem?_eq_getElem hlt) hinput htask,
            hb, hfilters, hstatistics⟩
      | none =>
          have hnew : lookupKey (line.tip, c.ref, c.effective s) b'.defines = none :=
            hb.extension_eq.trans hextension
          cases hmade : p.createDefine (b'.toDraft.producer? line.tip) b'.toDraft line.tip c older
              (c.effective s) with
          | error e => exact .error rfl
          | ok r =>
              obtain ⟨a, hpush, htask, hsum⟩ := Planner.createDefine_pushed hmade
              have hl := hpush.linked hb.linked htells.input_lt
              exact .ok ⟨rfl, rfl, (htells.keep hl hpush).extend hl hpush.get hpush.input_eq htask,
                hb.push_define hpush htells.input_lt rfl htask hsum hnew, hfilters, hstatistics⟩

theorem withColumns_alike (hb : b.Consistent index) {base : ActionId} (hbase : b.HasFrame base)
    {s : Systematic} (needs : List (Column × Scope)) :
    Alike (· = ·) (SameFrame index b) (needs.foldlM (withColumn p s) (b.frameOf base, b))
      (needs.foldlM (p.withColumn s) (base, b.toDraft)) := by
  refine Alike.foldlM (I := fun _ => SameFrame index b) ⟨hbase.1, rfl, hbase.2, hb, rfl, rfl⟩ ?_
  exact fun _ need x y _ h => withColumn_alike h need

theorem extend_alike (hb : b.Consistent index) {base : ActionId} (hbase : b.HasFrame base)
    (scope : Scope) (inputs : List String) (s : Systematic) :
    Alike (· = ·) (SameFrame index b) (b.extend p base scope inputs s)
      (p.extend b.toDraft base scope inputs s) :=
  withColumns_alike hb hbase (scope.needs s inputs)

/-! ### Selections -/

theorem selection_eq (hb : b.Consistent p.index) {node : Nat} {place : Place}
    (hplace : p.index.place? node = some place) (path : String) (chain : Systematic) :
    b.selection p node path chain = Planner.selection b.toDraft node path chain := by
  obtain ⟨position, hposition⟩ := ScopeIndex.exists_position hplace
  have hkey : (Action.hasKey p.index ⟨position, chain⟩) = fun a => a.selects node chain := by
    funext a
    rw [Bool.eq_iff_iff, hasKey_iff, Action.selects_iff]
    constructor
    · rintro ⟨i, htask, hi⟩
      rw [htask, ScopeIndex.eq_of_position hi hposition]
    · exact fun htask => ⟨node, htask, hposition⟩
  have hfound : lookupKey ⟨position, chain⟩ b.filters = b.toDraft.selection? node chain := by
    rw [hb.filters, hkey]
    rfl
  cases hlook : lookupKey (⟨position, chain⟩ : SelectionKey) b.filters with
  | none => simp [selection, Planner.selection, hposition, ← hfound, hlook]
  | some id => simp [selection, Planner.selection, hposition, ← hfound, hlook]

theorem hasFrame_of_selection (hb : b.Consistent p.index) {node : Nat} {path : String}
    {chain : Systematic} {id : ActionId} (h : b.selection p node path chain = .ok id) :
    b.HasFrame id := by
  simp only [selection] at h
  split at h
  · cases h
  · split at h
    · cases h
      exact hb.frames _ _ ‹_›
    · cases h

theorem createFilter_alike (hb : b.Consistent p.index) {position : Nat} {place parent : Place}
    (hposition : p.index.position? place.node = some position)
    (hparent : p.index.place? parent.node = some parent) (v : Variable) {chain : Systematic}
    (hnew : lookupKey ⟨position, chain⟩ b.filters = none) :
    Alike (· = ·) (fun b' d => b'.toDraft = d ∧ b'.Consistent p.index ∧
        b'.filters.map Prod.fst = ⟨position, chain⟩ :: b.filters.map Prod.fst)
      (b.createFilter p position place parent v chain)
      (p.createFilter b.toDraft place parent v chain) := by
  rw [createFilter, Planner.createFilter, selection_eq hb hparent]
  cases hbase : Planner.selection b.toDraft parent.node place.path (parent.chainUnder chain) with
  | error e => exact .error rfl
  | ok base =>
      rw [← selection_eq hb hparent] at hbase
      refine (extend_alike hb (hasFrame_of_selection hb hbase) _ _ _).bind ?_
      rintro ⟨line, b'⟩ ⟨tip, d⟩ ⟨rfl, rfl, htells, hb', hfilters, -⟩
      simp only at htells hb' hfilters ⊢
      rw [htells.producer_eq]
      cases hmade : p.pushFilter (b'.toDraft.producer? line.tip) b'.toDraft line.tip place v
          chain with
      | error e => exact .error rfl
      | ok r =>
          obtain ⟨a, hpush, htask, hsum⟩ := Planner.pushFilter_pushed hmade
          have hl := hpush.linked hb'.linked htells.input_lt
          have hline := (htells.keep hl hpush).select hl hpush.get hpush.input_eq htask
          refine .ok ⟨rfl, hb'.push_select hpush htells.input_lt hposition htask hsum
            (hfilters ▸ hnew) rfl hline, ?_⟩
          simp [enter, hfilters]

theorem createSource_consistent (hb : b.Consistent p.index) {position : Nat} {place : Place}
    (hposition : p.index.position? place.node = some position)
    (hnew : lookupKey ⟨position, .nominal⟩ b.filters = none) :
    (b.createSource position place).Consistent p.index := by
  have hpush : b.toDraft.Pushed none
      (b.toDraft.push place.node place.path .nominal none [] 0 .source)
      { id := b.actions.length, node := place.node, path := place.path, systematic := .nominal,
        input := none, dependencies := [], cost := 0, operation := .source } :=
    ⟨rfl, rfl, rfl, rfl⟩
  have hnone : ∀ i ∈ (none : Option ActionId), i < b.actions.length := by simp
  have hline := (hpush.linked hb.linked hnone).lineage_eq hpush.get
  refine hb.push_select hpush hnone hposition rfl rfl hnew rfl
    ⟨(List.getElem?_eq_some_iff.mp hpush.get).1, ?_⟩
  funext column s
  exact (congrArg (fun line => (line.find? fun a => a.computes column s).map Action.id) hline).symm

theorem lookupKey_fresh {position : Nat} {chain : Systematic}
    (h : ⟨position, chain⟩ ∉ b.filters.map Prod.fst) :
    lookupKey ⟨position, chain⟩ b.filters = none := by
  rw [← Option.not_isSome_iff_eq_none, lookupKey_isSome_iff]
  exact h

/-- Selections have been created at earlier positions and, at this one, under the systematics in
`done`. -/
structure SelectedUpTo (index : ScopeIndex) (position : Nat) (done : List Systematic)
    (b : Builder) (d : Draft) : Prop where
  same : b.toDraft = d
  consistent : b.Consistent index
  keys : ∀ key ∈ b.filters.map Prod.fst,
    key.position < position ∨ key.position = position ∧ key.chain ∈ done

theorem createFilters_alike {d : Draft} {position : Nat} {place parent : Place}
    (h : SelectedUpTo p.index position [] b d)
    (hposition : p.index.position? place.node = some position)
    (hparent : p.index.place? parent.node = some parent) (v : Variable) {chains : List Systematic}
    (hnodup : chains.Nodup) :
    Alike (· = ·) (SelectedUpTo p.index position chains)
      (chains.foldlM (fun b chain => b.createFilter p position place parent v chain) b)
      (chains.foldlM (fun d chain => p.createFilter d place parent v chain) d) := by
  refine Alike.foldlM (I := SelectedUpTo p.index position) h ?_
  rintro done chain b' _ hpre ⟨rfl, hb', hkeys⟩
  have hdone := hnodup.sublist hpre.sublist
  rw [List.nodup_append] at hdone
  have hnew : chain ∉ done := fun hmem => hdone.2.2 chain hmem chain (by simp) rfl
  have hfresh : ⟨position, chain⟩ ∉ b'.filters.map Prod.fst := by
    intro hmem
    rcases hkeys _ hmem with hlt | ⟨-, hmem⟩
    · exact Nat.lt_irrefl _ hlt
    · exact hnew hmem
  refine (createFilter_alike hb' hposition hparent v (lookupKey_fresh hfresh)).mono ?_
  rintro b'' d ⟨rfl, hb'', hkeys''⟩
  refine ⟨rfl, hb'', ?_⟩
  rw [hkeys'', List.forall_mem_cons]
  refine ⟨.inr ⟨rfl, by simp⟩, fun key hkey => ?_⟩
  exact (hkeys key hkey).imp_right fun h => ⟨h.1, List.mem_append_left _ h.2⟩

theorem createSelections_alike (hb : b.Consistent p.index) {required : List SelectionKey}
    {chains : List Systematic} {position : Nat} {place : Place}
    (hposition : p.index.position? place.node = some position)
    (hchains : place.parent.isSome → SelectionKey.chainsAt required position = chains)
    (hnodup : chains.Nodup) (hfresh : ∀ key ∈ b.filters.map Prod.fst, key.position < position) :
    Alike (· = ·) (fun b' d => b'.toDraft = d ∧ b'.Consistent p.index ∧
        ∀ key ∈ b'.filters.map Prod.fst, key.position < position + 1)
      (createSelections p required b (place, position))
      (p.createSelections chains b.toDraft place) := by
  have hsource : Alike (· = ·) (fun b' d => b'.toDraft = d ∧ b'.Consistent p.index ∧
        ∀ key ∈ b'.filters.map Prod.fst, key.position < position + 1)
      (.ok (b.createSource position place) : Except BuildError Builder)
      (.ok (b.toDraft.push place.node place.path .nominal none [] 0 .source).2) := by
    have hunknown : (⟨position, .nominal⟩ : SelectionKey) ∉ b.filters.map Prod.fst :=
      fun hmem => Nat.lt_irrefl _ (hfresh _ hmem)
    refine .ok ⟨rfl, createSource_consistent hb hposition (lookupKey_fresh hunknown), ?_⟩
    simp only [createSource, enter, List.map_cons, List.forall_mem_cons]
    exact ⟨Nat.lt_succ_self _, fun key hkey => Nat.lt_succ_of_lt (hfresh key hkey)⟩
  simp only [createSelections, Planner.createSelections]
  cases hparent : place.parent with
  | none => exact hsource
  | some i =>
      cases place.filter with
      | none => exact hsource
      | some v =>
          cases habove : p.index.place? i with
          | none =>
              simp only [habove]
              exact .error rfl
          | some parent =>
              have hnode : parent.node = i := by simpa using List.find?_some habove
              subst hnode
              simp only [habove, hchains (by simp [hparent])]
              have hstart : SelectedUpTo p.index position [] b b.toDraft :=
                ⟨rfl, hb, fun key hkey => .inl (hfresh key hkey)⟩
              refine (createFilters_alike hstart hposition habove v hnodup).mono ?_
              rintro b' d ⟨rfl, hb', hkeys⟩
              refine ⟨rfl, hb', fun key hkey => ?_⟩
              rcases hkeys key hkey with hlt | ⟨heq, -⟩
              · exact Nat.lt_succ_of_lt hlt
              · exact heq ▸ Nat.lt_succ_self _

/-! ### Statistics and outputs -/

theorem createStatistics_alike (hb : b.Consistent index) {filter : ActionId}
    (hfilter : b.HasFrame filter) (place : Place) (s : Systematic) (weight : String) :
    Alike (· = ·) (SameResult index) (b.createStatistics p place filter s weight)
      (p.createStatistics b.toDraft place filter s weight) := by
  rw [createStatistics, Planner.createStatistics]
  cases place.scope.require weight (Planner.weightReader place) place.path with
  | error e => exact .error rfl
  | ok c =>
      simp only [ok_bind, hb.statistics_eq]
      cases hfound : b.toDraft.statistics? filter c.ref (c.effective s) with
      | some id => exact .ok ⟨rfl, rfl, hb⟩
      | none =>
          have hnew : lookupKey (filter, c.ref, c.effective s) b.statistics = none :=
            hb.statistics_eq.trans hfound
          refine (extend_alike hb hfilter _ _ _).bind ?_
          rintro ⟨line, b'⟩ ⟨tip, d⟩ ⟨rfl, rfl, htells, hb', -, hstatistics⟩
          simp only at htells hb' hstatistics ⊢
          rw [htells.producer_eq]
          cases hmade : p.pushStatistics (b'.toDraft.producer? line.tip) b'.toDraft line.tip place
              filter s weight c with
          | error e => exact .error rfl
          | ok r =>
              obtain ⟨a, hpush, htask, hsum⟩ := Planner.pushStatistics_pushed hmade
              exact .ok ⟨rfl, rfl,
                hb'.push_statistics hpush htells.input_lt htask hsum (hstatistics ▸ hnew)⟩

theorem createOutput_alike (hb : b.Consistent p.index) {place : Place}
    (hplace : p.index.place? place.node = some place) (region : String) (s : Systematic)
    (writer : Nat) (spec : OutputSpec) (weight : Option String) :
    Alike (· = ·) (SameResult p.index) (b.createOutput p region place s writer spec weight)
      (p.createOutput b.toDraft region place s writer spec weight) := by
  rw [createOutput, Planner.createOutput, selection_eq hb hplace]
  cases hbase : Planner.selection b.toDraft place.node place.path (place.chainUnder s) with
  | error e => exact .error rfl
  | ok base =>
      rw [← selection_eq hb hplace] at hbase
      refine (extend_alike hb (hasFrame_of_selection hb hbase) _ _ _).bind ?_
      rintro ⟨line, b'⟩ ⟨tip, d⟩ ⟨rfl, rfl, htells, hb', -, -⟩
      simp only at htells hb' ⊢
      rw [htells.producer_eq]
      cases hmade : p.pushOutput (b'.toDraft.producer? line.tip) b'.toDraft line.tip base region
          place s writer spec weight with
      | error e => exact .error rfl
      | ok r =>
          obtain ⟨a, hpush, htask, hsum⟩ := Planner.pushOutput_pushed hmade
          exact .ok ⟨rfl, rfl, hb'.push_output hpush htells.input_lt htask hsum⟩

/-! ### Regions -/

theorem planNode_alike {s : Systematic} {x : SystematicPlan × Builder} {y : SystematicPlan × Draft}
    (h : SameResult p.index x y) (node : Nat) :
    Alike (· = ·) (SameResult p.index) (planNode p s x node) (p.planNode s y node) := by
  obtain ⟨plan, b⟩ := x
  obtain ⟨plan', d⟩ := y
  obtain ⟨rfl, rfl, hb⟩ := h
  simp only at hb
  simp only [planNode, Planner.planNode]
  cases hplace : p.index.place? node with
  | none => exact .error rfl
  | some place =>
      simp only [selection_eq hb hplace]
      cases hfilter : Planner.selection b.toDraft node place.path (place.chainUnder s) with
      | error e => exact .error rfl
      | ok filter =>
          rw [← selection_eq hb hplace] at hfilter
          cases p.index.tree.weight node with
          | none => exact .ok ⟨rfl, rfl, hb⟩
          | some weight =>
              refine (createStatistics_alike hb (hasFrame_of_selection hb hfilter) place s
                weight).bind ?_
              rintro ⟨id, b'⟩ ⟨id', d⟩ ⟨rfl, rfl, hb'⟩
              exact .ok ⟨rfl, rfl, hb'⟩

theorem planRegion_alike {x : List RegionPlan × Builder} {y : List RegionPlan × Draft}
    (h : SameResult p.index x y) (r : AcceptedRegion) :
    Alike (· = ·) (SameResult p.index) (planRegion p x r) (p.planRegion y r) := by
  obtain ⟨plans, b⟩ := x
  obtain ⟨plans', d⟩ := y
  obtain ⟨rfl, rfl, hb⟩ := h
  simp only [planRegion, Planner.planRegion]
  have hstart : SameResult p.index (([] : List (Systematic × SystematicPlan)), b) ([], b.toDraft) :=
    ⟨rfl, rfl, hb⟩
  refine (Alike.foldlM (I := fun _ => SameResult p.index) hstart ?_).bind ?_
  · rintro done s ⟨plans, b⟩ ⟨plans', d⟩ - ⟨rfl, rfl, hb⟩
    have hstart : SameResult p.index (({} : SystematicPlan), b) ({}, b.toDraft) := ⟨rfl, rfl, hb⟩
    refine (Alike.foldlM (I := fun _ => SameResult p.index) hstart ?_).bind ?_
    · exact fun _ node x y _ h => planNode_alike h node
    · rintro ⟨plan, b⟩ ⟨plan', d⟩ ⟨rfl, rfl, hb⟩
      exact .ok ⟨rfl, rfl, hb⟩
  · rintro ⟨systematics, b⟩ ⟨systematics', d⟩ ⟨rfl, rfl, hb⟩
    exact .ok ⟨rfl, rfl, hb⟩

theorem addOutputs_alike (hb : b.Consistent p.index) {r : AcceptedRegion}
    (hplace : p.index.place? r.place.node = some r.place) (s : Systematic) (plan : SystematicPlan) :
    Alike (· = ·) (SameResult p.index) (addOutputs p r b s plan)
      (p.addOutputs r b.toDraft s plan) := by
  refine Alike.foldlM (I := fun _ => SameResult p.index) ⟨rfl, rfl, hb⟩ ?_
  rintro done ⟨spec, writer⟩ ⟨plan, b⟩ ⟨plan', d⟩ - ⟨rfl, rfl, hb⟩
  refine (createOutput_alike hb hplace r.name s writer spec (r.weightOf spec)).bind ?_
  rintro ⟨id, b⟩ ⟨id', d⟩ ⟨rfl, rfl, hb⟩
  exact .ok ⟨rfl, rfl, hb⟩

theorem outputRegion_alike {x : List RegionPlan × Builder} {y : List RegionPlan × Draft}
    (h : SameResult p.index x y) {r : AcceptedRegion}
    (hplace : p.index.place? r.place.node = some r.place) (plan : RegionPlan) :
    Alike (· = ·) (SameResult p.index) (outputRegion p x (r, plan))
      (p.outputRegion y (r, plan)) := by
  obtain ⟨plans, b⟩ := x
  obtain ⟨plans', d⟩ := y
  obtain ⟨rfl, rfl, hb⟩ := h
  simp only [outputRegion, Planner.outputRegion]
  have hstart : SameResult p.index (([] : List (Systematic × SystematicPlan)), b) ([], b.toDraft) :=
    ⟨rfl, rfl, hb⟩
  refine (Alike.foldlM (I := fun _ => SameResult p.index) hstart ?_).bind ?_
  · rintro done ⟨s, plan⟩ ⟨plans, b⟩ ⟨plans', d⟩ - ⟨rfl, rfl, hb⟩
    refine (addOutputs_alike hb hplace s plan).bind ?_
    rintro ⟨plan, b⟩ ⟨plan', d⟩ ⟨rfl, rfl, hb⟩
    exact .ok ⟨rfl, rfl, hb⟩
  · rintro ⟨systematics, b⟩ ⟨systematics', d⟩ ⟨rfl, rfl, hb⟩
    exact .ok ⟨rfl, rfl, hb⟩

theorem consistent_empty {registry : NameRegistry} :
    Builder.Consistent { registry } index where
  linked := ⟨by simp, by simp⟩
  filters := fun _ => rfl
  defines := fun _ => rfl
  statistics := fun _ => rfl
  frames := fun _ _ hid => by cases hid

/-- Planning from tables ends as planning by search does, with tables that find what a search
finds. -/
theorem planAll_alike {t : SelectionTree} (hlaw : ScopeIndex.Lawful t p.index)
    {regions : List AcceptedRegion}
    (hplaced : ∀ r ∈ regions, p.index.place? r.place.node = some r.place) :
    Alike (· = ·) (SameResult p.index) (planAll p regions) (p.planAll regions) := by
  obtain ⟨required, hrequired, hr⟩ :=
    (hlaw.requirements_meets hplaced).exists_ok fun _ => id
  have hsame : Alike (· = ·) (fun b d => b.toDraft = d ∧ b.Consistent p.index)
      (p.index.places.zipIdx.foldlM (createSelections p required) { registry := p.datasetColumns })
      ((p.index.places.zipIdx.map Prod.fst).foldlM (fun d place =>
        p.createSelections (p.chainsAt regions place) d place)
          { registry := p.datasetColumns }) := by
    rw [List.foldlM_map]
    refine (Alike.foldlM (I := fun done (b : Builder) d => b.toDraft = d ∧ b.Consistent p.index ∧
      ∀ key ∈ b.filters.map Prod.fst, key.position < done.length)
      ⟨rfl, consistent_empty, by simp⟩ ?_).mono fun b d h => ⟨h.1, h.2.1⟩
    rintro done ⟨place, k⟩ b _ hpre ⟨rfl, hb, hkeys⟩
    obtain ⟨hplace, rfl⟩ := getElem?_of_zipIdx hpre
    have hposition := hlaw.position_of_getElem? hplace
    rw [List.length_append, List.length_singleton]
    refine createSelections_alike hb hposition (fun hparent => ?_)
      (nodup_of_ascending (pairwise_unionDistinct .nil)) hkeys
    exact Planner.chainsAt_eq hlaw hr (hlaw.place_of_mem place (List.mem_of_getElem? hplace))
      hposition hparent
  rw [List.zipIdx_map_fst] at hsame
  rw [planAll, Planner.planAll, hrequired]
  refine hsame.bind ?_
  rintro b _ ⟨rfl, hb⟩
  have hstart (b : Builder) (hb : b.Consistent p.index) :
      SameResult p.index (([] : List RegionPlan), b) ([], b.toDraft) := ⟨rfl, rfl, hb⟩
  refine (Alike.foldlM (I := fun _ => SameResult p.index) (hstart b hb) ?_).bind ?_
  · exact fun _ r x y _ h => planRegion_alike h r
  · rintro ⟨plans, b⟩ ⟨_, _⟩ ⟨rfl, rfl, hb⟩
    refine Alike.foldlM (I := fun _ => SameResult p.index) (hstart b hb) ?_
    rintro done ⟨r, plan⟩ x y hpre h
    have hr : r ∈ regions := (List.of_mem_zip (hpre.subset (by simp) : (r, plan) ∈ _)).1
    exact outputRegion_alike h (hplaced r hr) plan

section Runs

variable {t : SelectionTree} (hlaw : ScopeIndex.Lawful t p.index) {regions : List AcceptedRegion}
  (hplaced : ∀ r ∈ regions, p.index.place? r.place.node = some r.place)
include hlaw hplaced

theorem planAll_eq_ok {plans : List RegionPlan} (h : planAll p regions = .ok (plans, b)) :
    p.planAll regions = .ok (plans, b.toDraft) ∧ b.Consistent p.index := by
  have halike := planAll_alike hlaw hplaced
  rw [h] at halike
  generalize p.planAll regions = searched at halike ⊢
  cases halike with
  | @ok _ y h =>
      obtain ⟨plans', d⟩ := y
      obtain ⟨rfl, rfl, hb⟩ := h
      exact ⟨rfl, hb⟩

/-- What planning by search guarantees, planning from tables does. -/
theorem planAll_meets {P : List RegionPlan × Draft → Prop} {excuse : BuildError → Prop}
    (h : Meets (p.planAll regions) P excuse) :
    Meets (planAll p regions) (fun r => P (r.1, r.2.toDraft) ∧ r.2.Consistent p.index) excuse := by
  refine ((planAll_alike hlaw hplaced).meets h).mono ?_
  rintro ⟨plans, b⟩ ⟨⟨_, _⟩, ⟨rfl, rfl, hb⟩, hP⟩
  exact ⟨hP, hb⟩

end Runs

end Builder
end SelectionPlan
