import SelectionPlan.Proofs.Schedule.Built

/-!
# Regions that request nominal results only

Planning asks the namer for the physical columns of the systematics that are in effect.  For regions
that request the nominal systematic only, nothing else is ever in effect, however many variations
the tree has.  What is planned for them is the same under all namers that agree on nominal columns.
-/

namespace SelectionPlan

variable {ω : Type}

@[simp] theorem Column.effective_nominal (c : Column) : c.effective .nominal = .nominal := rfl

@[simp] theorem Place.chainUnder_nominal (place : Place) : place.chainUnder .nominal = .nominal :=
  rfl

def Namer.AgreesNominally (namer namer' : Namer) : Prop :=
  ∀ logical, namer.physical logical .nominal = namer'.physical logical .nominal

theorem Namer.plain_agreesNominally (tag : NameTag) : plain.AgreesNominally (tagged tag) :=
  fun _ => rfl

def Region.IsNominal (r : Region ω) : Prop := ∀ s ∈ r.systematics, s = .nominal

def AcceptedRegion.IsNominal (r : AcceptedRegion) : Prop := ∀ s ∈ r.systematics, s = .nominal

def RegionPlan.IsNominal (plan : RegionPlan) : Prop :=
  ∀ s ∈ plan.systematics.map Prod.fst, s = .nominal

namespace Planner

def renamed (p : Planner) (namer : Namer) : Planner := { p with namer }

section Renamed

variable {p : Planner} {namer : Namer} (h : namer.AgreesNominally p.namer)
  (producer? : ColumnRef → Systematic → Option ActionId) (d : Draft) (tip : ActionId)
include h

theorem renamed_bind (scope : Scope) (inputs : List String) (reader path : String) :
    (p.renamed namer).bind producer? scope inputs .nominal reader path =
      p.bind producer? scope inputs .nominal reader path := by
  have hphysical (c : Column) : c.physical namer .nominal = c.physical p.namer .nominal := by
    simp only [Column.physical, h c.name]
  simp only [bind, renamed, Column.effective_nominal, hphysical]

theorem renamed_createDefine (c : Column) (older : Scope) :
    (p.renamed namer).createDefine producer? d tip c older .nominal =
      p.createDefine producer? d tip c older .nominal := by
  have hphysical : (p.renamed namer).namer.physical c.name .nominal =
      p.namer.physical c.name .nominal := h c.name
  simp only [createDefine, renamed_bind h, hphysical]
  rfl

theorem renamed_pushFilter (place : Place) (filter : Variable) :
    (p.renamed namer).pushFilter producer? d tip place filter .nominal =
      p.pushFilter producer? d tip place filter .nominal := by
  simp only [pushFilter, renamed_bind h]
  rfl

theorem renamed_pushStatistics (place : Place) (filter : ActionId) (weight : String) (c : Column) :
    (p.renamed namer).pushStatistics producer? d tip place filter .nominal weight c =
      p.pushStatistics producer? d tip place filter .nominal weight c := by
  simp only [pushStatistics, renamed_bind h]

theorem renamed_pushOutput (base : ActionId) (region : String) (place : Place) (writer : Nat)
    (spec : OutputSpec) (weight : Option String) :
    (p.renamed namer).pushOutput producer? d tip base region place .nominal writer spec weight =
      p.pushOutput producer? d tip base region place .nominal writer spec weight := by
  simp only [pushOutput, renamed_bind h]

end Renamed
end Planner

namespace Builder

theorem planRegion_requested (p : Planner) (plans : List RegionPlan) (b : Builder)
    (r : AcceptedRegion) : Meets (planRegion p (plans, b) r) (fun state => ∃ plan,
      state.1 = plans ++ [plan] ∧ plan.systematics.map Prod.fst = r.systematics) fun _ => True := by
  have hsystematics : Meets (r.systematics.foldlM
      (fun state s => planSystematic p r.place.node state.1 state.2 s) ([], b))
      (fun state => state.1.map Prod.fst = r.systematics) fun _ => True := by
    refine Meets.foldlM (I := fun done (state : List (Systematic × SystematicPlan) × Builder) =>
      state.1.map Prod.fst = done) rfl ?_
    rintro done s ⟨plans, b⟩ - hdone
    refine (Meets.result fun _ _ => trivial).bind fun state _ => ?_
    change (plans ++ [(s, state.1)]).map Prod.fst = done ++ [s]
    rw [List.map_append, hdone]
    rfl
  exact hsystematics.bind fun state hstate => ⟨_, rfl, hstate⟩

theorem planRegions_nominal (p : Planner) {regions : List AcceptedRegion}
    (hregions : ∀ r ∈ regions, r.IsNominal) (b : Builder) :
    Meets (regions.foldlM (planRegion p) ([], b))
      (fun state => ∀ plan ∈ state.1, plan.IsNominal) fun _ => True := by
  refine Meets.foldlM (I := fun _ (state : List RegionPlan × Builder) =>
    ∀ plan ∈ state.1, plan.IsNominal) (by simp) ?_
  rintro done r ⟨plans, b⟩ hpre hdone
  refine (planRegion_requested p plans b r).mono ?_
  rintro ⟨_, _⟩ ⟨plan, rfl, hplan⟩
  have hr : r ∈ regions := hpre.subset (by simp)
  simp only [List.mem_append, List.mem_singleton]
  rintro q (hq | rfl)
  · exact hdone q hq
  · rw [RegionPlan.IsNominal, hplan]
    exact hregions r hr

/-! ### Required selections -/

def AllNominal (required : List SelectionKey) : Prop := ∀ key ∈ required, key.chain = .nominal

theorem allNominal_insert {position : Nat} {required : List SelectionKey}
    (h : AllNominal required) : AllNominal (insertDistinct ⟨position, .nominal⟩ required) := by
  intro key hkey
  rcases mem_insertDistinct.mp hkey with rfl | hkey
  · rfl
  · exact h key hkey

theorem requireWithin_nominal {index : ScopeIndex} {bound node : Nat}
    {required : List SelectionKey} (h : AllNominal required) :
    Meets (index.requireWithin bound node .nominal required) AllNominal fun _ => True := by
  have hunless {position : Nat} {required : List SelectionKey} (h : AllNominal required)
      {next : Except BuildError (List SelectionKey)} (hnext : Meets next AllNominal fun _ => True) :
      Meets (if ⟨position, .nominal⟩ ∈ required then .ok required else next) AllNominal
        fun _ => True := by
    by_cases hmem : ⟨position, .nominal⟩ ∈ required
    · rwa [if_pos hmem]
    · rwa [if_neg hmem]
  induction bound generalizing node required with
  | zero =>
      rw [ScopeIndex.requireWithin]
      split
      · trivial
      · split
        · split
          · trivial
          · exact hunless h (allNominal_insert h)
        · exact h
  | succ bound ih =>
      rw [ScopeIndex.requireWithin]
      split
      · trivial
      · split
        · split
          · trivial
          · exact hunless h (ih (allNominal_insert h))
        · exact h

theorem requirements_nominal {index : ScopeIndex} {regions : List AcceptedRegion}
    (hregions : ∀ r ∈ regions, r.IsNominal) :
    Meets (index.requirements regions) AllNominal fun _ => True := by
  refine Meets.foldlM (I := fun _ => AllNominal) (by simp [AllNominal])
    fun done r required hpre h => ?_
  refine Meets.foldlM (I := fun _ => AllNominal) h fun done' s required hpre' h => ?_
  rw [hregions r (hpre.subset (by simp)) s (hpre'.subset (by simp))]
  exact requireWithin_nominal h

theorem chainsAt_nominal {required : List SelectionKey} (h : AllNominal required)
    (position : Nat) : ∀ s ∈ SelectionKey.chainsAt required position, s = .nominal := by
  intro s hs
  obtain ⟨key, hkey, rfl⟩ := List.mem_map.mp hs
  exact h key ((List.dropWhile_suffix _).subset ((List.takeWhile_prefix _).subset hkey))

variable {p : Planner} {namer : Namer} (h : namer.AgreesNominally p.namer)
include h

/-! ### Steps -/

theorem renamed_extend (b : Builder) (base : ActionId) (scope : Scope) (inputs : List String) :
    b.extend (p.renamed namer) base scope inputs .nominal =
      b.extend p base scope inputs .nominal := by
  refine foldlM_congr (fun need _ state => ?_) _
  simp only [withColumn, Column.effective_nominal, Planner.renamed_createDefine h]

theorem renamed_createFilter (b : Builder) (position : Nat) (place parent : Place)
    (filter : Variable) :
    b.createFilter (p.renamed namer) position place parent filter .nominal =
      b.createFilter p position place parent filter .nominal := by
  simp only [createFilter, renamed_extend h, Planner.renamed_pushFilter h]
  rfl

theorem renamed_createSelections {required : List SelectionKey}
    (hrequired : AllNominal required) (b : Builder) (entry : Place × Nat) :
    createSelections (p.renamed namer) required b entry = createSelections p required b entry := by
  obtain ⟨place, position⟩ := entry
  have hindex : (p.renamed namer).index = p.index := rfl
  have hfilters (parent : Place) (filter : Variable) :
      (SelectionKey.chainsAt required position).foldlM (fun b s =>
          b.createFilter (p.renamed namer) position place parent filter s) b =
        (SelectionKey.chainsAt required position).foldlM (fun b s =>
          b.createFilter p position place parent filter s) b := by
    refine foldlM_congr (fun s hs b => ?_) b
    rw [chainsAt_nominal hrequired position s hs, renamed_createFilter h]
  simp only [createSelections, hindex, hfilters]

theorem renamed_createStatistics (b : Builder) (place : Place) (filter : ActionId)
    (weight : String) : b.createStatistics (p.renamed namer) place filter .nominal weight =
      b.createStatistics p place filter .nominal weight := by
  simp only [createStatistics, Column.effective_nominal, renamed_extend h,
    Planner.renamed_pushStatistics h]

theorem renamed_createOutput (b : Builder) (region : String) (place : Place) (writer : Nat)
    (spec : OutputSpec) (weight : Option String) :
    b.createOutput (p.renamed namer) region place .nominal writer spec weight =
      b.createOutput p region place .nominal writer spec weight := by
  simp only [createOutput, renamed_extend h, Planner.renamed_pushOutput h]
  rfl

/-! ### Regions -/

theorem renamed_planNode (state : SystematicPlan × Builder) (node : Nat) :
    planNode (p.renamed namer) .nominal state node = planNode p .nominal state node := by
  have hindex : (p.renamed namer).index = p.index := rfl
  have hselection (b : Builder) (path : String) (chain : Systematic) :
      b.selection (p.renamed namer) node path chain = b.selection p node path chain := rfl
  simp only [planNode, hindex, hselection, renamed_createStatistics h]

theorem renamed_planRegion {r : AcceptedRegion} (hr : r.IsNominal)
    (state : List RegionPlan × Builder) :
    planRegion (p.renamed namer) state r = planRegion p state r := by
  have hindex : (p.renamed namer).index = p.index := rfl
  have hplan (plans : List (Systematic × SystematicPlan)) (b : Builder) :
      planSystematic (p.renamed namer) r.place.node plans b .nominal =
        planSystematic p r.place.node plans b .nominal := by
    have hnode : planNode (p.renamed namer) .nominal = planNode p .nominal :=
      funext fun state => funext fun node => renamed_planNode h state node
    rw [planSystematic, planSystematic, hindex, hnode]
  rw [planRegion, planRegion]
  refine congrArg (· >>= _) (foldlM_congr (fun s hs state => ?_) _)
  rw [hr s hs]
  exact hplan state.1 state.2

theorem renamed_outputRegion (r : AcceptedRegion) {plan : RegionPlan} (hplan : plan.IsNominal)
    (state : List RegionPlan × Builder) :
    outputRegion (p.renamed namer) state (r, plan) = outputRegion p state (r, plan) := by
  have houtputs (b : Builder) (plan : SystematicPlan) :
      addOutputs (p.renamed namer) r b .nominal plan = addOutputs p r b .nominal plan := by
    refine foldlM_congr (fun entry _ state => ?_) _
    simp only [renamed_createOutput h]
  rw [outputRegion, outputRegion]
  refine congrArg (· >>= _) (foldlM_congr (fun entry hentry state => ?_) _)
  have hnominal : entry.1 = .nominal := hplan entry.1 (List.mem_map_of_mem hentry)
  simp only [hnominal, houtputs]

theorem renamed_planAll {regions : List AcceptedRegion} (hregions : ∀ r ∈ regions, r.IsNominal) :
    planAll (p.renamed namer) regions = planAll p regions := by
  have hindex : (p.renamed namer).index = p.index := rfl
  have hdataset : (p.renamed namer).datasetColumns = p.datasetColumns := rfl
  have hplans (b : Builder) : regions.foldlM (planRegion (p.renamed namer)) ([], b) =
      regions.foldlM (planRegion p) ([], b) :=
    foldlM_congr (fun r hr state => renamed_planRegion h (hregions r hr) state) _
  rw [planAll, planAll, hindex]
  refine (requirements_nominal hregions).bind_congr fun required hrequired => ?_
  have hselections (b : Builder) :
      p.index.places.zipIdx.foldlM (createSelections (p.renamed namer) required) b =
        p.index.places.zipIdx.foldlM (createSelections p required) b :=
    foldlM_congr (fun entry _ b => renamed_createSelections h hrequired b entry) b
  simp only [hdataset, hselections, hplans]
  refine congrArg _ (funext fun b => (planRegions_nominal p hregions b).bind_congr ?_)
  rintro ⟨plans, b⟩ hplans
  refine foldlM_congr (fun entry hentry state => ?_) _
  exact renamed_outputRegion h entry.1 (hplans entry.2 (List.of_mem_zip hentry).2) state

end Builder

/-! ### Graphs and schedules -/

variable {t : SelectionTree} {options : BuildOptions} {regions : List (Region ω)}
  {namer namer' : Namer}

/-- Another namer plans the same for nominal regions, if it has nothing to say against the names of
the tree. -/
theorem ActionGraph.build_renamed {g : ActionGraph} (hagree : namer'.AgreesNominally namer)
    (haccepts : ∀ index, ScopeIndex.build t = .ok index → checkNames index namer' = .ok ())
    (hregions : ∀ r ∈ regions, r.IsNominal) (h : build t namer options regions = .ok g) :
    build t namer' options regions = .ok g := by
  obtain ⟨hcost, hchecked, index, accepted, skipped, plans, b, hindex, -, haccept, hcolumns, hplans,
    rfl⟩ := build_eq_ok.mp h
  have hnominal : ∀ a ∈ accepted, a.IsNominal := by
    intro a ha
    rw [(acceptRegions_eq_ok haccept).1, List.mem_filterMap] at ha
    obtain ⟨r, hr, ha⟩ := ha
    rw [AcceptedRegion.IsNominal, (Region.accept?_eq_some ha).2.2.1]
    exact hregions r (mem_sortStable.mp hr)
  have hsame := Builder.renamed_planAll (p := ⟨index, namer, options.defaultCost⟩) hagree hnominal
  exact build_eq_ok.mpr ⟨hcost, hchecked, index, accepted, skipped, plans, b, hindex,
    haccepts index hindex, haccept, hcolumns, hsame.trans hplans, rfl⟩

theorem checkNames_plain (index : ScopeIndex) : checkNames index .plain = .ok () := by
  refine bind_eq_ok.mpr ⟨(), forM_eq_ok.mpr fun _ _ => rfl, forM_eq_ok.mpr fun _ _ => ?_⟩
  exact forM_eq_ok.mpr fun _ _ => rfl

namespace Schedule

/-- Nominal regions have one schedule, with tagged names or without. -/
theorem build_plain_of_nominal (tag : NameTag) {s : Schedule ω}
    (hregions : ∀ r ∈ regions, r.IsNominal) (h : build t (.tagged tag) options regions = .ok s) :
    build t .plain options regions = .ok s := by
  obtain ⟨graph, order, hgraph, horder, rfl⟩ := build_eq_ok.mp h
  refine build_eq_ok.mpr ⟨graph, order, ?_, horder, rfl⟩
  exact ActionGraph.build_renamed (Namer.plain_agreesNominally tag) (fun index _ =>
    checkNames_plain index) hregions hgraph

/-- The sample has a variation, and a region that does not ask for it. -/
theorem build_plain_of_nominal_sample : ∃ s : Schedule Nat,
    build Sample.tree Sample.namer {} [Sample.control] = .ok s ∧
      build Sample.tree .plain {} [Sample.control] = .ok s := by
  have hok : (ActionGraph.build Sample.tree Sample.namer {} [Sample.control]).isOk = true := by
    decide
  have hregions : ∀ r ∈ [Sample.control], r.IsNominal := by
    simp [Region.IsNominal, Sample.control, Region.new, Region.addWriter]
  obtain ⟨g, hgraph⟩ := exists_ok_of_isOk hok
  obtain ⟨s, hs, -⟩ := exists_build Sample.tree_reachable hgraph
  exact ⟨s, hs, build_plain_of_nominal _ hregions hs⟩

end Schedule
end SelectionPlan
