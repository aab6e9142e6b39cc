import SelectionPlan.Backend.Table
import SelectionPlan.Proofs.Graph.Plans
import SelectionPlan.Proofs.Graph.Refinement

/-!
# Graphs that planning builds

A build checks its regions, resolves the names of the tree, and plans the regions that ask for known
variations.  What it builds is sound, has a plan for each of these regions, and nothing else.
-/

namespace SelectionPlan

variable {ω : Type}

theorem checkRegions_eq_ok {t : SelectionTree} {seen : List String} {regions : List (Region ω)} :
    checkRegions t seen regions = .ok () ↔
      (∀ r ∈ regions, isRegionName r.name = true ∧ t.contains r.target = true ∧ r.name ∉ seen) ∧
        (regions.map Region.name).Nodup := by
  induction regions generalizing seen with
  | nil => simp [checkRegions]
  | cons r rest ih =>
      simp only [checkRegions, List.forall_mem_cons, List.map_cons, List.nodup_cons]
      by_cases hname : isRegionName r.name = true
      · by_cases hseen : r.name ∈ seen
        · simp [hname, hseen]
        · by_cases htarget : t.contains r.target = true
          · simp only [hname, hseen, htarget, Bool.not_true, Bool.false_eq_true, if_false, ih,
              List.mem_cons, not_or, List.mem_map, not_exists, not_and, true_and, not_false_iff]
            constructor
            · rintro ⟨hrest, hnodup⟩
              exact ⟨fun q hq => ⟨(hrest q hq).1, (hrest q hq).2.1, (hrest q hq).2.2.2⟩,
                fun q hq => (hrest q hq).2.2.1, hnodup⟩
            · rintro ⟨hrest, hfirst, hnodup⟩
              exact ⟨fun q hq => ⟨(hrest q hq).1, (hrest q hq).2.1, hfirst q hq,
                (hrest q hq).2.2⟩, hnodup⟩
          · simp [hname, hseen, htarget]
      · simp [hname]

/-- The region as planning sees it, if it asks for known variations only. -/
def Region.accept? (index : ScopeIndex) (r : Region ω) : Option AcceptedRegion :=
  match index.place? r.target.index with
  | none => none
  | some place =>
    match unknownSystematic? index r place with
    | some _ => none
    | none => some ⟨r.name, place, r.systematics, r.writers.map Writer.toOutputSpec,
        index.tree.weight place.node⟩

section Accept

variable {index : ScopeIndex} {policy : UnknownSystematicPolicy} {regions : List (Region ω)}
  {accepted : List AcceptedRegion} {skipped : List SkippedRegion}

theorem acceptRegions_eq_ok (h : acceptRegions index policy regions = .ok (accepted, skipped)) :
    accepted = regions.filterMap (Region.accept? index) ∧
      skipped.map SkippedRegion.name =
        (regions.filter fun r => (r.accept? index).isNone).map Region.name := by
  induction regions generalizing accepted skipped with
  | nil =>
      cases h
      exact ⟨rfl, rfl⟩
  | cons r rest ih =>
      simp only [acceptRegions] at h
      cases hplace : index.place? r.target.index with
      | none => simp [hplace] at h
      | some place =>
          simp only [hplace] at h
          cases hknown : unknownSystematic? index r place with
          | none =>
              have haccept : r.accept? index = some ⟨r.name, place, r.systematics,
                  r.writers.map Writer.toOutputSpec, index.tree.weight place.node⟩ := by
                simp only [Region.accept?, hplace, hknown]
              simp only [hknown, bind_eq_ok] at h
              obtain ⟨⟨accepted', skipped'⟩, hrest, h⟩ := h
              cases h
              obtain ⟨rfl, hlen⟩ := ih hrest
              simp [haccept, hlen]
          | some e =>
              have haccept : r.accept? index = none := by
                simp only [Region.accept?, hplace, hknown]
              cases policy with
              | fail => simp [hknown] at h
              | skipRegion =>
                  simp only [hknown, bind_eq_ok] at h
                  obtain ⟨⟨accepted', skipped'⟩, hrest, h⟩ := h
                  cases h
                  obtain ⟨rfl, hlen⟩ := ih hrest
                  simp [haccept, hlen]

theorem acceptRegions_all (policy : UnknownSystematicPolicy)
    (h : ∀ r ∈ regions, (r.accept? index).isSome) :
    acceptRegions index policy regions = .ok (regions.filterMap (Region.accept? index), []) := by
  induction regions with
  | nil => rfl
  | cons r rest ih =>
      obtain ⟨a, ha⟩ := Option.isSome_iff_exists.mp (h r (by simp))
      have hrest := ih fun q hq => h q (List.mem_cons_of_mem _ hq)
      simp only [acceptRegions, List.filterMap_cons, ha]
      simp only [Region.accept?] at ha
      cases hplace : index.place? r.target.index with
      | none => simp [hplace] at ha
      | some place =>
          cases hknown : unknownSystematic? index r place with
          | some e => simp [hplace, hknown] at ha
          | none =>
              simp only [hplace, hknown] at ha
              cases ha
              simp only [hknown, hrest, ok_bind]
              rfl

theorem accepted_subset (index : ScopeIndex) {more : List (Region ω)} (h : regions ⊆ more)
    (before : Region ω → Region ω → Bool) :
    (sortStable before regions).filterMap (Region.accept? index) ⊆
      (sortStable before more).filterMap (Region.accept? index) := by
  intro a ha
  simp only [List.mem_filterMap, mem_sortStable] at ha ⊢
  obtain ⟨r, hr, hra⟩ := ha
  exact ⟨r, h hr, hra⟩

theorem Region.accept?_eq_some {r : Region ω} {a : AcceptedRegion}
    (h : r.accept? index = some a) : index.place? r.target.index = some a.place ∧
      a.name = r.name ∧ a.systematics = r.systematics ∧
      a.outputs = r.writers.map Writer.toOutputSpec ∧
      a.nodeWeight = index.tree.weight a.place.node := by
  simp only [accept?] at h
  split at h
  · cases h
  · rename_i place hplace
    split at h
    · cases h
    · cases h
      exact ⟨hplace, rfl, rfl, rfl, rfl⟩

end Accept

theorem checkColumns_eq_ok {r : AcceptedRegion} : r.checkColumns = .ok () ↔
    ∀ s ∈ r.systematics, ∀ spec ∈ r.outputs, ∀ w ∈ spec.columns ++ (r.weightOf spec).toList,
      ∃ c, r.place.scope.lookup w = some c := by
  simp only [AcceptedRegion.checkColumns, forM_eq_ok]
  refine forall₂_congr fun s _ => forall₂_congr fun spec _ => forall₂_congr fun w _ => ?_
  rw [← Option.isSome_iff_exists]
  split <;> simp_all

namespace ActionGraph

variable {t : SelectionTree} {namer : Namer} {options : BuildOptions} {regions : List (Region ω)}
  {g : ActionGraph}

theorem build_eq_ok : build t namer options regions = .ok g ↔
    Variable.isCost options.defaultCost = true ∧
    checkRegions t [] (sortStable (fun a b => decide (a.name < b.name)) regions) = .ok () ∧
    ∃ index accepted skipped plans b, ScopeIndex.build t = .ok index ∧
      checkNames index namer = .ok () ∧
      acceptRegions index options.onUnknownSystematic
        (sortStable (fun a b => decide (a.name < b.name)) regions) = .ok (accepted, skipped) ∧
      accepted.forM AcceptedRegion.checkColumns = .ok () ∧
      Builder.planAll ⟨index, namer, options.defaultCost⟩ accepted = .ok (plans, b) ∧
      g = ⟨assignConsumers plans b.actions, plans, skipped⟩ := by
  simp only [build]
  by_cases hcost : Variable.isCost options.defaultCost = true
  · simp only [hcost, Bool.not_true, Bool.false_eq_true, if_false, bind_eq_ok, true_and]
    constructor
    · rintro ⟨⟨⟩, hregions, index, hindex, h⟩
      split at h
      · simp only [bind_eq_ok] at h
        obtain ⟨_, h, -⟩ := h
        cases h
      · rename_i hnames
        simp only [bind_eq_ok] at h
        obtain ⟨⟨accepted, skipped⟩, haccept, ⟨⟩, hcolumns, ⟨plans, b⟩, hplans, h⟩ := h
        cases h
        exact ⟨hregions, index, accepted, skipped, plans, b, hindex, hnames, haccept, hcolumns,
          hplans, rfl⟩
    · rintro ⟨hregions, index, accepted, skipped, plans, b, hindex, hnames, haccept, hcolumns,
        hplans, rfl⟩
      refine ⟨(), hregions, index, hindex, ?_⟩
      simp only [hnames, bind_eq_ok]
      exact ⟨(accepted, skipped), haccept, (), hcolumns, (plans, b), hplans, rfl⟩
  · simp only [hcost, Bool.not_false, if_true, Bool.false_eq_true, false_and, iff_false]
    intro h
    cases h

end ActionGraph

def noteConsumers (plans : List RegionPlan) (actions : List Action) (a : Action) : Action :=
  { a with consumers :=
      (plans.filter fun plan => decide (a.id ∈ plan.needed actions)).map RegionPlan.name }

theorem assignConsumers_eq (plans : List RegionPlan) (actions : List Action) :
    assignConsumers plans actions = actions.map (noteConsumers plans actions) := by
  simp only [assignConsumers, List.filter_map, List.map_map]
  rfl

theorem definedColumns_noteConsumers (plans : List RegionPlan) (actions all : List Action) :
    definedColumns (actions.map (noteConsumers plans all)) = definedColumns actions := by
  rw [definedColumns, List.filterMap_map]
  rfl

section Consumers

variable {actions : List Action} {f : Action → Action}

private theorem lineageWithin_map (hf : ∀ a, (f a).input = a.input) (bound id : Nat) :
    lineageWithin (actions.map f) bound id = (lineageWithin actions bound id).map f := by
  induction bound generalizing id with
  | zero =>
      rw [lineageWithin, lineageWithin, List.getElem?_map]
      cases actions[id]? <;> rfl
  | succ bound ih =>
      rw [lineageWithin, lineageWithin, List.getElem?_map]
      cases ha : actions[id]? with
      | none => rfl
      | some a =>
          simp only [Option.map_some, hf]
          cases a.input with
          | none => rfl
          | some input => simp only [ih, List.map_cons]

theorem lineage_map (hf : ∀ a, (f a).input = a.input) (id : Nat) :
    lineage (actions.map f) id = (lineage actions id).map f :=
  lineageWithin_map hf id id

theorem tasks_map (hf : ∀ a, (f a).input = a.input) (htask : ∀ a, (f a).task = a.task) (id : Nat) :
    tasks (actions.map f) id = tasks actions id := by
  simp only [tasks, lineage_map hf, List.filterMap_map, Function.comp_def, htask]

theorem lineageIds_map (hf : ∀ a, (f a).input = a.input) (hid : ∀ a, (f a).id = a.id) (id : Nat) :
    lineageIds (actions.map f) id = lineageIds actions id := by
  simp only [lineageIds, lineage_map hf, List.map_map, Function.comp_def, hid]

theorem Chained.map (h : Chained actions) (hinput : ∀ a, (f a).input = a.input)
    (hid : ∀ a, (f a).id = a.id) (hdep : ∀ a, (f a).dependencies = a.dependencies) :
    Chained (actions.map f) := by
  have hget {i : Nat} {a : Action} (ha : (actions.map f)[i]? = some a) :
      ∃ b, actions[i]? = some b ∧ f b = a := by
    rw [List.getElem?_map] at ha
    exact Option.map_eq_some_iff.mp ha
  refine ⟨⟨?_, ?_⟩, ?_, ?_⟩
  · intro i a ha
    obtain ⟨b, hb, rfl⟩ := hget ha
    exact (hid b).trans (h.id_eq i b hb)
  · intro i a j ha hj
    obtain ⟨b, hb, rfl⟩ := hget ha
    exact h.input_lt i b j hb (hinput b ▸ hj)
  · intro i a j ha hj
    obtain ⟨b, hb, rfl⟩ := hget ha
    obtain ⟨hlt, hmem⟩ := h.input_mem i b j hb (hinput b ▸ hj)
    exact ⟨by simpa using hlt, hdep b ▸ hmem⟩
  · intro i a j ha hj
    obtain ⟨b, hb, rfl⟩ := hget ha
    obtain ⟨input, hinput', hmem⟩ := h.dependency i b j hb (hdep b ▸ hj)
    exact ⟨input, (hinput b).trans hinput', (lineageIds_map hinput hid input).symm ▸ hmem⟩

end Consumers

/-- What is known of a graph that was built: what planning made of the accepted regions, with the
consumers noted. -/
structure ActionGraph.Built (t : SelectionTree) (p : Planner) (accepted : List AcceptedRegion)
    (d : Draft) (g : ActionGraph) : Prop where
  lawful : ScopeIndex.Lawful t p.index
  valid : ∀ r ∈ accepted, r.Valid p.index
  names : (accepted.map AcceptedRegion.name).Nodup
  sound : d.Sound p accepted fun _ _ => True
  plans : List.Forall₂ (fun r plan => RegionFor p d.actions r.outputs.zipIdx r plan) accepted
    g.regions
  actions_eq : g.actions = assignConsumers g.regions d.actions

namespace ActionGraph

variable {t : SelectionTree} {namer : Namer} {options : BuildOptions} {regions : List (Region ω)}
  {g : ActionGraph}

theorem accepted_valid {index : ScopeIndex} {accepted : List AcceptedRegion}
    (hlaw : ScopeIndex.Lawful t index)
    (haccepted : accepted = regions.filterMap (Region.accept? index))
    (hcolumns : accepted.forM AcceptedRegion.checkColumns = .ok ()) :
    ∀ r ∈ accepted, r.Valid index := by
  intro a ha
  refine ⟨?_, checkColumns_eq_ok.mp (forM_eq_ok.mp hcolumns a ha)⟩
  rw [haccepted, List.mem_filterMap] at ha
  obtain ⟨r, -, ha⟩ := ha
  obtain ⟨hplace, -⟩ := Region.accept?_eq_some ha
  rw [(hlaw.place_lt hplace).1]
  exact hplace

theorem accepted_names {index : ScopeIndex} (h : (regions.map Region.name).Nodup) :
    ((regions.filterMap (Region.accept? index)).map AcceptedRegion.name).Nodup := by
  have hsub : ((regions.filterMap (Region.accept? index)).map AcceptedRegion.name).Sublist
      (regions.map Region.name) := by
    induction regions with
    | nil => exact List.Sublist.refl _
    | cons r rest ih =>
        have hrest := ih (List.nodup_cons.mp h).2
        rw [List.filterMap_cons, List.map_cons]
        cases ha : r.accept? index with
        | none => exact hrest.cons _
        | some a =>
            obtain ⟨-, hname, -⟩ := Region.accept?_eq_some ha
            rw [List.map_cons, hname]
            exact hrest.cons_cons _
  exact h.sublist hsub

theorem names_of_build (h : build t namer options regions = .ok g) :
    (regions.map Region.name).Nodup := by
  obtain ⟨-, hregions, -⟩ := build_eq_ok.mp h
  exact ((perm_sortStable regions).map _).nodup_iff.mp (checkRegions_eq_ok.mp hregions).2

theorem skipped_of_build {index : ScopeIndex} (hindex : ScopeIndex.build t = .ok index)
    (h : build t namer options regions = .ok g) : g.skipped.map SkippedRegion.name =
      ((sortStable (fun a b => decide (a.name < b.name)) regions).filter
        fun r => (r.accept? index).isNone).map Region.name := by
  obtain ⟨-, -, index', accepted, skipped, plans, d, hindex', -, haccept, -, -, rfl⟩ :=
    build_eq_ok.mp h
  rw [hindex, Except.ok.injEq] at hindex'
  subst hindex'
  exact (acceptRegions_eq_ok haccept).2

/-- The regions that planning did not skip, by ascending name. -/
def kept (g : ActionGraph) (regions : List (Region ω)) : List (Region ω) :=
  (sortStable (fun a b => decide (a.name < b.name)) regions).filter
    fun r => r.name ∉ g.skipped.map SkippedRegion.name

theorem mem_of_mem_kept {r : Region ω} (h : r ∈ g.kept regions) : r ∈ regions :=
  mem_sortStable.mp (List.mem_of_mem_filter h)

theorem kept_of_build {index : ScopeIndex} (hindex : ScopeIndex.build t = .ok index)
    (h : build t namer options regions = .ok g) : g.kept regions =
      (sortStable (fun a b => decide (a.name < b.name)) regions).filter
        fun r => (r.accept? index).isSome := by
  rw [kept, skipped_of_build hindex h]
  refine List.filter_congr fun r hr => ?_
  rw [Bool.eq_iff_iff, decide_eq_true_iff, ← Option.not_isNone, Bool.not_eq_true',
    ← Bool.not_eq_true]
  refine not_congr ⟨fun hmem => ?_, fun hnone =>
    List.mem_map_of_mem (List.mem_filter.mpr ⟨hr, hnone⟩)⟩
  obtain ⟨q, hq, hname⟩ := List.mem_map.mp hmem
  obtain ⟨hq, hnone⟩ := List.mem_filter.mp hq
  rw [mem_sortStable] at hr hq
  rw [← List.inj_on_of_nodup_map (names_of_build h) hq hr hname]
  exact hnone

/-- Everything that a successful build establishes. -/
theorem built_of_build (ht : t.Reachable) (h : build t namer options regions = .ok g) :
    ∃ p accepted d, ScopeIndex.build t = .ok p.index ∧ p.namer = namer ∧
      p.defaultCost = options.defaultCost ∧
      accepted = (sortStable (fun a b => decide (a.name < b.name)) regions).filterMap
        (Region.accept? p.index) ∧ p.planAll accepted = .ok (g.regions, d) ∧
      Built t p accepted d g := by
  obtain ⟨-, hregions, index, accepted, skipped, plans, b, hindex, -, haccept, hcolumns, htables,
    rfl⟩ := build_eq_ok.mp h
  have hlaw := ScopeIndex.lawful_of_build ht.wellFormed hindex
  obtain ⟨haccepted, -⟩ := acceptRegions_eq_ok haccept
  have hvalid := accepted_valid hlaw haccepted hcolumns
  obtain ⟨hplans, -⟩ := Builder.planAll_eq_ok (p := ⟨index, namer, options.defaultCost⟩) hlaw
    (fun r hr => (hvalid r hr).place_eq) htables
  obtain ⟨hsound, hfor⟩ := (Planner.planAll_meets (p := ⟨index, namer, options.defaultCost⟩)
    (G := fun _ _ => True) hlaw (fun _ _ _ => trivial) hvalid).of_eq_ok hplans
  refine ⟨⟨index, namer, options.defaultCost⟩, accepted, b.toDraft, hindex, rfl, rfl, haccepted,
    hplans,
    hlaw, hvalid, ?_, hsound, hfor, rfl⟩
  rw [haccepted]
  exact accepted_names (checkRegions_eq_ok.mp hregions).2

theorem kept_accepted {index : ScopeIndex} (hindex : ScopeIndex.build t = .ok index)
    (h : build t namer options regions = .ok g) :
    List.Forall₂ (fun a r => r.accept? index = some a)
      ((sortStable (fun a b => decide (a.name < b.name)) regions).filterMap (Region.accept? index))
      (g.kept regions) := by
  rw [kept_of_build hindex h]
  exact (aligned_filterMap _).flip

/-- The plans of a built graph are those of the regions that were not skipped. -/
theorem kept_planned (ht : t.Reachable) (h : build t namer options regions = .ok g) :
    ∃ p accepted d, Built t p accepted d g ∧
      List.Forall₂ (fun r plan => ∃ a ∈ accepted, r.accept? p.index = some a ∧
        RegionFor p d.actions a.outputs.zipIdx a plan) (g.kept regions) g.regions := by
  obtain ⟨p, accepted, d, hindex, -, -, haccepted, -, hbuilt⟩ := built_of_build ht h
  have hkept : List.Forall₂ (fun a r => a ∈ accepted ∧ r.accept? p.index = some a) accepted
      (g.kept regions) := by
    rw [List.forall₂_and_left, haccepted]
    exact ⟨fun a ha => ha, kept_accepted hindex h⟩
  exact ⟨p, accepted, d, hbuilt, aligned_both hkept hbuilt.plans
    fun a r plan hr hplan => ⟨a, hr.1, hr.2, hplan⟩⟩

theorem names_planned (ht : t.Reachable) (h : build t namer options regions = .ok g) :
    g.regions.map RegionPlan.name = (g.kept regions).map Region.name := by
  obtain ⟨p, accepted, d, -, hplans⟩ := kept_planned ht h
  refine aligned_map hplans ?_
  rintro r - plan ⟨a, -, haccept, hfor⟩
  exact hfor.name_eq.trans (Region.accept?_eq_some haccept).2.1

theorem nodup_planned (ht : t.Reachable) (h : build t namer options regions = .ok g) :
    (g.regions.map RegionPlan.name).Nodup := by
  rw [names_planned ht h]
  refine List.Nodup.sublist (List.filter_sublist.map _) ?_
  exact ((perm_sortStable regions).map Region.name).nodup_iff.mpr (names_of_build h)

namespace Built

variable {p : Planner} {accepted : List AcceptedRegion} {d : Draft} (h : Built t p accepted d g)
include h

theorem getElem?_actions (i : Nat) :
    g.actions[i]? = (d.actions[i]?).map (noteConsumers g.regions d.actions) := by
  rw [h.actions_eq, assignConsumers_eq, List.getElem?_map]

theorem of_mem {a : Action} (ha : a ∈ g.actions) : g.actions[a.id]? = some a ∧
    ∃ b, d.actions[a.id]? = some b ∧ a = noteConsumers g.regions d.actions b := by
  obtain ⟨i, ha⟩ := List.getElem?_of_mem ha
  have hnoted := h.getElem?_actions i
  rw [ha] at hnoted
  obtain ⟨b, hb, rfl⟩ := Option.map_eq_some_iff.mp hnoted.symm
  have hid : (noteConsumers g.regions d.actions b).id = i := h.sound.id_eq i b hb
  rw [hid]
  exact ⟨ha, b, hb, rfl⟩

theorem chained : Chained g.actions := by
  rw [h.actions_eq, assignConsumers_eq]
  exact h.sound.chained.map (fun _ => rfl) (fun _ => rfl) fun _ => rfl

theorem lineage_eq (id : Nat) :
    lineage g.actions id = (lineage d.actions id).map (noteConsumers g.regions d.actions) := by
  rw [h.actions_eq, assignConsumers_eq]
  exact lineage_map (f := noteConsumers g.regions d.actions) (fun _ => rfl) id

theorem definedColumns_eq : definedColumns g.actions = definedColumns d.actions := by
  rw [h.actions_eq, assignConsumers_eq, definedColumns_noteConsumers]

theorem tasks_eq (id : Nat) : tasks g.actions id = tasks d.actions id := by
  rw [h.actions_eq, assignConsumers_eq]
  exact tasks_map (f := noteConsumers g.regions d.actions) (fun _ => rfl) (fun _ => rfl) id

theorem lineageIds_eq (id : Nat) : lineageIds g.actions id = lineageIds d.actions id := by
  rw [h.actions_eq, assignConsumers_eq]
  exact lineageIds_map (f := noteConsumers g.regions d.actions) (fun _ => rfl) (fun _ => rfl) id

end Built

end ActionGraph

/-! ## A small analysis

The root reads `pt`, which `up` reads from another branch, and weighs events by a `score` computed
from it.  A child selects hard events. -/

namespace Sample

def pt : Variable := (Variable.ofBranch "pt" "pt").vary "up" (.branch "ptUp")

def score : Variable := .computed "score" ["pt"] fun values => values.headD 0

def hard : Variable := .computed "hard" ["score"] fun values => values.headD 0

def root : Node := { name := rootName, attachment := none, label := none, ownVariables := [pt] }

def tree : SelectionTree :=
  { id := 0
    nodes :=
      [{ root with ownVariables := [pt, score], weight := some "score" },
        { name := "hard", attachment := some ⟨0, hard⟩, label := none }] }

theorem tree_reachable : tree.Reachable := by
  have hpt : (SelectionTree.new 0 none).define ⟨0, 0⟩ pt = .ok ⟨0, [root], []⟩ := rfl
  have hscore := SelectionTree.Reachable.setWeight ⟨0, 0⟩ score .replace (.define (.new 0 none) hpt)
  exact @SelectionTree.Reachable.addChild _ tree ⟨0, 0⟩ ⟨0, 1⟩ "hard" hard none hscore rfl

def namer : Namer := .tagged (.make "__" false)

/-- Two events, of which the second is hard under `up` only. -/
def table : EventTable := ⟨some 2, [("pt", [1, -1]), ("ptUp", [1, 1])]⟩

def keep : Writer Nat where
  name := "keep"
  columns := ["pt"]
  write := fun _ result stored => (.ok (), stored + result.entries)

def signal : Region Nat :=
  ((Region.new "signal" ⟨0, 1⟩).request (.variation "up")).addWriter keep

def control : Region Nat := (Region.new "control" ⟨0, 0⟩).addWriter keep

def regions : List (Region Nat) := [signal, control]

theorem exists_build : ∃ g, ActionGraph.build tree namer {} regions = .ok g :=
  exists_ok_of_isOk (by decide)

end Sample
end SelectionPlan
