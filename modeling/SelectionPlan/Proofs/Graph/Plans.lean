import SelectionPlan.Proofs.Graph.Planning
import SelectionPlan.Proofs.Graph.Required

/-!
# Plans of regions

A plan has an entry for every node on the way to its region and for every writer, and the actions of
its entries do what the tree and the region ask for.
-/

namespace SelectionPlan

section Aligned

variable {α β γ : Type} {R : α → β → Prop} {S : α → γ → Prop} {xs : List α} {ys : List β}
  {zs : List γ}

theorem aligned_mem (h : List.Forall₂ R xs ys) :
    List.Forall₂ (fun x y => x ∈ xs ∧ y ∈ ys ∧ R x y) xs ys := by
  refine (List.forall₂_and_left _ _).mpr ⟨fun _ hx => hx, ?_⟩
  exact ((List.forall₂_and_left _ _).mpr ⟨fun _ hy => hy, h.flip⟩).flip

theorem aligned_both {T : β → γ → Prop} (h : List.Forall₂ R xs ys) (h' : List.Forall₂ S xs zs)
    (hT : ∀ x y z, R x y → S x z → T y z) : List.Forall₂ T ys zs := by
  induction h generalizing zs with
  | nil =>
      cases h'
      exact .nil
  | cons hxy _ ih =>
      cases h' with
      | cons hxz hrest => exact .cons (hT _ _ _ hxy hxz) (ih hrest)

theorem aligned_map {f : α → γ} {g : β → γ} (h : List.Forall₂ R xs ys)
    (hR : ∀ x ∈ xs, ∀ y, R x y → g y = f x) : ys.map g = xs.map f := by
  induction h with
  | nil => rfl
  | cons hxy _ ih =>
      rw [List.forall_mem_cons] at hR
      rw [List.map_cons, List.map_cons, hR.1 _ hxy, ih hR.2]

theorem aligned_flatMap {f : α → List γ} {g : β → List γ} (h : List.Forall₂ R xs ys)
    (hR : ∀ x ∈ xs, ∀ y, y ∈ ys → R x y → g y = f x) : ys.flatMap g = xs.flatMap f := by
  induction h with
  | nil => rfl
  | cons hxy _ ih =>
      rw [List.flatMap_cons, List.flatMap_cons, hR _ (by simp) _ (by simp) hxy,
        ih fun x hx y hy => hR x (List.mem_cons_of_mem _ hx) y (List.mem_cons_of_mem _ hy)]

theorem aligned_flatMap_sublist {f : α → List γ} {g : β → List γ} (h : List.Forall₂ R xs ys)
    (hR : ∀ x ∈ xs, ∀ y, R x y → (g y).Sublist (f x)) :
    (ys.flatMap g).Sublist (xs.flatMap f) := by
  induction h with
  | nil => exact List.Sublist.refl _
  | cons hxy _ ih =>
      rw [List.forall_mem_cons] at hR
      rw [List.flatMap_cons, List.flatMap_cons]
      exact (hR.1 _ hxy).append (ih hR.2)

theorem aligned_filterMap {f : α → Option β} (xs : List α) :
    List.Forall₂ (fun x y => f x = some y) (xs.filter fun x => (f x).isSome) (xs.filterMap f) := by
  induction xs with
  | nil => exact .nil
  | cons x xs ih =>
      cases hx : f x with
      | none => simpa [hx] using ih
      | some y =>
          rw [List.filter_cons_of_pos (by simp [hx]), List.filterMap_cons_some hx]
          exact .cons hx ih

end Aligned

section Entries

variable (p : Planner) (actions : List Action) (region : String) (s : Systematic)

def SelectionEntry (node : Nat) (entry : Nat × ActionId) : Prop :=
  entry.1 = node ∧ ∃ place a, p.index.place? node = some place ∧ actions[entry.2]? = some a ∧
    a.task = some (.select node (place.chainUnder s))

def StatisticsEntry (node : Nat) (entry : Nat × ActionId) : Prop :=
  entry.1 = node ∧ ∃ place weight c base b a, p.index.place? node = some place ∧
    p.index.tree.weight node = some weight ∧ place.scope.lookup weight = some c ∧
    actions[base]? = some b ∧ b.task = some (.select node (place.chainUnder s)) ∧
    actions[entry.2]? = some a ∧ a.sums base c.ref (c.effective s) = true

def OutputEntry (spec : OutputSpec × Nat) (entry : Nat × ActionId) : Prop :=
  entry.1 = spec.2 ∧ ∃ a request, actions[entry.2]? = some a ∧ a.systematic = s ∧
    a.operation = .output region spec.2 spec.1.name request

structure PlanFor (nodes : List Nat) (specs : List (OutputSpec × Nat)) (plan : SystematicPlan) :
    Prop where
  filters : List.Forall₂ (SelectionEntry p actions s) nodes plan.filters
  statistics : List.Forall₂ (StatisticsEntry p actions s)
    (nodes.filter fun node => (p.index.tree.weight node).isSome) plan.statistics
  outputs : List.Forall₂ (OutputEntry actions region s) specs plan.outputs

end Entries

def PlansFor (p : Planner) (actions : List Action) (r : AcceptedRegion)
    (specs : List (OutputSpec × Nat)) : List Systematic → List (Systematic × SystematicPlan) →
    Prop :=
  List.Forall₂ fun s entry => entry.1 = s ∧
    PlanFor p actions r.name s (p.index.tree.path r.place.node) specs entry.2

structure RegionFor (p : Planner) (actions : List Action) (specs : List (OutputSpec × Nat))
    (r : AcceptedRegion) (plan : RegionPlan) : Prop where
  name_eq : plan.name = r.name
  target_eq : plan.target = r.place.node
  systematics : PlansFor p actions r specs r.systematics plan.systematics

section Mono

variable {p : Planner} {actions actions' : List Action} (h : actions <+: actions')
include h

theorem PlanFor.mono {region : String} {s : Systematic} {nodes : List Nat}
    {specs : List (OutputSpec × Nat)} {plan : SystematicPlan}
    (hp : PlanFor p actions region s nodes specs plan) :
    PlanFor p actions' region s nodes specs plan := by
  refine ⟨hp.filters.imp ?_, hp.statistics.imp ?_, hp.outputs.imp ?_⟩
  · rintro node entry ⟨hnode, place, a, hplace, ha, htask⟩
    exact ⟨hnode, place, a, hplace, getElem?_of_prefix h ha, htask⟩
  · rintro node entry ⟨hnode, place, weight, c, base, b, a, hplace, hw, hc, hb, htask, ha, hsums⟩
    exact ⟨hnode, place, weight, c, base, b, a, hplace, hw, hc, getElem?_of_prefix h hb, htask,
      getElem?_of_prefix h ha, hsums⟩
  · rintro spec entry ⟨hwriter, a, request, ha, hsys, hop⟩
    exact ⟨hwriter, a, request, getElem?_of_prefix h ha, hsys, hop⟩

theorem PlansFor.mono {r : AcceptedRegion} {specs : List (OutputSpec × Nat)}
    {systematics : List Systematic} {plans : List (Systematic × SystematicPlan)}
    (hp : PlansFor p actions r specs systematics plans) :
    PlansFor p actions' r specs systematics plans :=
  List.Forall₂.imp (fun _ _ he => ⟨he.1, he.2.mono h⟩) hp

theorem RegionFor.mono {r : AcceptedRegion} {specs : List (OutputSpec × Nat)} {plan : RegionPlan}
    (hp : RegionFor p actions specs r plan) : RegionFor p actions' specs r plan :=
  ⟨hp.name_eq, hp.target_eq, hp.systematics.mono h⟩

end Mono

structure AcceptedRegion.Valid (index : ScopeIndex) (r : AcceptedRegion) : Prop where
  place_eq : index.place? r.place.node = some r.place
  visible : ∀ s ∈ r.systematics, ∀ spec ∈ r.outputs,
    ∀ w ∈ spec.columns ++ (r.weightOf spec).toList, ∃ c, r.place.scope.lookup w = some c

/-- The columns that some regions need: for the selections on the way to a region, for the weights
there, and for its outputs. -/
inductive Planner.Demands (p : Planner) (regions : List AcceptedRegion) :
    ColumnRef → Systematic → Prop
  | selection {r : AcceptedRegion} {s : Systematic} {place : Place} {need : Column × Scope} :
      r ∈ regions → s ∈ r.systematics → place ∈ p.index.trail r.place.node →
      need ∈ place.filterNeeds s →
      Demands p regions need.1.ref (need.1.effective (place.chainUnder s))
  | weight {r : AcceptedRegion} {s : Systematic} {place : Place} {weight : String}
      {need : Column × Scope} :
      r ∈ regions → s ∈ r.systematics → place ∈ p.index.trail r.place.node →
      p.index.tree.weight place.node = some weight → need ∈ place.scope.needs s [weight] →
      Demands p regions need.1.ref (need.1.effective s)
  | output {r : AcceptedRegion} {s : Systematic} {spec : OutputSpec} {need : Column × Scope} :
      r ∈ regions → s ∈ r.systematics → spec ∈ r.outputs →
      need ∈ r.place.scope.needs s (spec.columns ++ (r.weightOf spec).toList) →
      Demands p regions need.1.ref (need.1.effective s)

theorem Planner.Demands.mono {p : Planner} {regions regions' : List AcceptedRegion}
    (hsub : regions ⊆ regions') {c : ColumnRef} {s : Systematic} (h : p.Demands regions c s) :
    p.Demands regions' c s := by
  cases h with
  | selection hr hs hplace hneed => exact .selection (hsub hr) hs hplace hneed
  | weight hr hs hplace hw hneed => exact .weight (hsub hr) hs hplace hw hneed
  | output hr hs hspec hneed => exact .output (hsub hr) hs hspec hneed

namespace Planner

variable {p : Planner} {t : SelectionTree} {regions : List AcceptedRegion}
  {G : ColumnRef → Systematic → Prop} {d : Draft}

theorem planNode_meets (hlaw : ScopeIndex.Lawful t p.index) (h : d.Sound p regions G)
    {region : String} {s : Systematic} {nodes : List Nat} {plan : SystematicPlan} {place : Place}
    (hplan : PlanFor p d.actions region s nodes [] plan)
    (hplace : p.index.place? place.node = some place)
    (hsel : d.Selects place.node (place.chainUnder s))
    (hG : ∀ weight, p.index.tree.weight place.node = some weight →
      ∀ need ∈ place.scope.needs s [weight], G need.1.ref (need.1.effective s)) :
    Meets (p.planNode s (plan, d) place.node)
      (fun r => d.Grows p regions G r.2 ∧
        PlanFor p r.2.actions region s (nodes ++ [place.node]) [] r.1) (p.Clash G) := by
  obtain ⟨filter, b, hfilter, hb, htask⟩ := exists_selection hsel place.path
  have hentry : SelectionEntry p d.actions s place.node (place.node, filter) :=
    ⟨rfl, place, b, hplace, hb, htask⟩
  simp only [planNode, hplace, hfilter, ok_bind]
  cases hw : p.index.tree.weight place.node with
  | none =>
      refine ⟨.refl h, ⟨List.rel_append hplan.filters (.cons hentry .nil), ?_, hplan.outputs⟩⟩
      simpa [hw] using hplan.statistics
  | some weight =>
      rw [hlaw.tree_eq] at hw
      obtain ⟨c, hc⟩ := hlaw.exists_weight hplace hw
      rw [← hlaw.tree_eq] at hw
      refine (createStatistics_meets hlaw h hplace hw hc hb htask (hG weight hw)).bind ?_
      rintro ⟨id, e⟩ ⟨hgrows, a, ha, hsums⟩
      have hgrown := hplan.mono hgrows.isPrefix
      refine ⟨hgrows, ⟨List.rel_append hgrown.filters (.cons ?_ .nil), ?_, hgrown.outputs⟩⟩
      · exact ⟨rfl, place, b, hplace, getElem?_of_prefix hgrows.isPrefix hb, htask⟩
      · rw [List.filter_append, List.filter_cons_of_pos (by simp [hw]), List.filter_nil]
        refine List.rel_append hgrown.statistics (.cons ⟨rfl, place, weight, c, filter, b, a,
          hplace, hw, hc, getElem?_of_prefix hgrows.isPrefix hb, htask, ha, hsums⟩ .nil)

def Selected (p : Planner) (d : Draft) (r : AcceptedRegion) : Prop :=
  ∀ s ∈ r.systematics, ∀ place ∈ p.index.trail r.place.node,
    d.Selects place.node (place.chainUnder s)

theorem Selected.mono {d' : Draft} {r : AcceptedRegion} (h : d.actions <+: d'.actions)
    (hs : p.Selected d r) : p.Selected d' r :=
  fun s hsys place hplace => (hs s hsys place hplace).mono h

variable (hlaw : ScopeIndex.Lawful t p.index) (hG : ∀ c s, p.Demands regions c s → G c s)
include hlaw hG

theorem planSystematic_meets (h : d.Sound p regions G) {r : AcceptedRegion} (hr : r ∈ regions)
    (hvalid : r.Valid p.index) {s : Systematic} (hs : s ∈ r.systematics)
    (hsel : p.Selected d r) (plans : List (Systematic × SystematicPlan)) :
    Meets (p.planSystematic r.place.node plans d s)
      (fun result => d.Grows p regions G result.2 ∧ ∃ plan, result.1 = plans ++ [(s, plan)] ∧
        PlanFor p result.2.actions r.name s (p.index.tree.path r.place.node) [] plan)
      (p.Clash G) := by
  have hloop : Meets ((p.index.tree.path r.place.node).foldlM (p.planNode s) ({}, d))
      (fun result => d.Grows p regions G result.2 ∧
        PlanFor p result.2.actions r.name s (p.index.tree.path r.place.node) [] result.1)
      (p.Clash G) := by
    refine Meets.foldlM (I := fun done (result : SystematicPlan × Draft) =>
      d.Grows p regions G result.2 ∧ PlanFor p result.2.actions r.name s done [] result.1)
      ⟨.refl h, .nil, .nil, .nil⟩ ?_
    rintro done node ⟨plan, d'⟩ hpre ⟨hgrows, hplan⟩
    have hmem : node ∈ t.path r.place.node := hlaw.tree_eq ▸ hpre.subset (by simp)
    have hsize := (hlaw.place_lt hvalid.place_eq).2
    have hle := hlaw.wellFormed.le_of_mem_path hsize hmem
    obtain ⟨place, hplace⟩ := hlaw.exists_place (Nat.lt_of_le_of_lt hle hsize)
    have htrail : place ∈ p.index.trail r.place.node := hlaw.mem_trail.mpr ⟨node, hmem, hplace⟩
    have hnode := (hlaw.place_lt hplace).1
    subst hnode
    refine (planNode_meets hlaw hgrows.sound hplan hplace
      ((hsel s hs place htrail).mono hgrows.isPrefix) fun weight hw need hneed =>
        hG _ _ (.weight hr hs htrail hw hneed)).mono ?_
    rintro result ⟨hgrows', hplan'⟩
    exact ⟨hgrows.trans hgrows', hplan'⟩
  refine hloop.bind ?_
  rintro ⟨plan, d'⟩ ⟨hgrows, hplan⟩
  exact ⟨hgrows, plan, rfl, hplan⟩

theorem planRegion_meets (h : d.Sound p regions G) {r : AcceptedRegion} (hr : r ∈ regions)
    (hvalid : r.Valid p.index) (hsel : p.Selected d r) (plans : List RegionPlan) :
    Meets (p.planRegion (plans, d) r)
      (fun result => d.Grows p regions G result.2 ∧ ∃ plan, result.1 = plans ++ [plan] ∧
        RegionFor p result.2.actions [] r plan) (p.Clash G) := by
  rw [planRegion]
  refine Meets.bind (P := fun result => d.Grows p regions G result.2 ∧
    PlansFor p result.2.actions r [] r.systematics result.1) ?_ ?_
  · refine Meets.foldlM (I := fun done (result : List (Systematic × SystematicPlan) × Draft) =>
      d.Grows p regions G result.2 ∧ PlansFor p result.2.actions r [] done result.1)
      ⟨.refl h, .nil⟩ ?_
    rintro done s ⟨plans, d'⟩ hpre ⟨hgrows, hplans⟩
    have hs : s ∈ r.systematics := hpre.subset (by simp)
    refine (planSystematic_meets hlaw hG hgrows.sound hr hvalid hs (hsel.mono hgrows.isPrefix)
      plans).mono ?_
    rintro ⟨plans', d''⟩ ⟨hgrows', plan, rfl, hplan⟩
    exact ⟨hgrows.trans hgrows',
      List.rel_append (hplans.mono hgrows'.isPrefix) (.cons ⟨rfl, hplan⟩ .nil)⟩
  · rintro ⟨systematics, d'⟩ ⟨hgrows, hplans⟩
    exact ⟨hgrows, _, rfl, rfl, rfl, hplans⟩

theorem addOutputs_meets (h : d.Sound p regions G) {r : AcceptedRegion} (hr : r ∈ regions)
    (hvalid : r.Valid p.index) {s : Systematic} (hs : s ∈ r.systematics)
    (hsel : p.Selected d r) {nodes : List Nat} {plan : SystematicPlan}
    (hplan : PlanFor p d.actions r.name s nodes [] plan) :
    Meets (p.addOutputs r d s plan)
      (fun result => d.Grows p regions G result.2 ∧
        PlanFor p result.2.actions r.name s nodes r.outputs.zipIdx result.1) (p.Clash G) := by
  refine Meets.foldlM (I := fun done (result : SystematicPlan × Draft) =>
    d.Grows p regions G result.2 ∧ PlanFor p result.2.actions r.name s nodes done result.1)
    ⟨.refl h, hplan⟩ ?_
  rintro done ⟨spec, writer⟩ ⟨plan, d'⟩ hpre ⟨hgrows, hplan⟩
  have hmem : (spec, writer) ∈ r.outputs.zipIdx := hpre.subset (by simp)
  have hspec : r.outputs[writer]? = some spec := List.mk_mem_zipIdx_iff_getElem?.mp hmem
  have hspec' : spec ∈ r.outputs := List.mem_of_getElem? hspec
  have hself : r.place ∈ p.index.trail r.place.node := by
    rw [hlaw.trail_eq hvalid.place_eq]
    exact List.mem_cons_self
  refine (createOutput_meets hlaw hgrows.sound hr hvalid.place_eq hs hspec
    (hvalid.visible s hs spec hspec') ((hsel s hs _ hself).mono hgrows.isPrefix)
    fun need hneed => hG _ _ (.output hr hs hspec' hneed)).bind ?_
  rintro ⟨id, d''⟩ ⟨hgrows', a, ha, hsys, request, hop⟩
  have hgrown := hplan.mono hgrows'.isPrefix
  exact ⟨hgrows.trans hgrows', hgrown.filters, hgrown.statistics,
    List.rel_append hgrown.outputs (.cons ⟨rfl, a, request, ha, hsys, hop⟩ .nil)⟩

omit hlaw hG in
theorem plansFor_entries {r : AcceptedRegion} {actions : List Action}
    {specs : List (OutputSpec × Nat)} {systematics : List Systematic}
    {plans : List (Systematic × SystematicPlan)}
    (h : PlansFor p actions r specs systematics plans) :
    plans.map Prod.fst = systematics ∧ ∀ entry ∈ plans,
      PlanFor p actions r.name entry.1 (p.index.tree.path r.place.node) specs entry.2 := by
  induction h with
  | nil => simp
  | @cons s entry _ _ hentry _ ih =>
      obtain ⟨rfl, hplan⟩ := hentry
      exact ⟨by rw [List.map_cons, ih.1], List.forall_mem_cons.mpr ⟨hplan, ih.2⟩⟩

theorem outputRegion_meets (h : d.Sound p regions G) {r : AcceptedRegion} (hr : r ∈ regions)
    (hvalid : r.Valid p.index) (hsel : p.Selected d r) {plan : RegionPlan}
    (hplan : RegionFor p d.actions [] r plan) (plans : List RegionPlan) :
    Meets (p.outputRegion (plans, d) (r, plan))
      (fun result => d.Grows p regions G result.2 ∧ ∃ plan', result.1 = plans ++ [plan'] ∧
        RegionFor p result.2.actions r.outputs.zipIdx r plan') (p.Clash G) := by
  obtain ⟨hkeys, hentries⟩ := plansFor_entries hplan.systematics
  rw [outputRegion]
  refine Meets.bind (P := fun result => d.Grows p regions G result.2 ∧
    PlansFor p result.2.actions r r.outputs.zipIdx r.systematics result.1) ?_ ?_
  · rw [← hkeys]
    refine Meets.foldlM (I := fun done (result : List (Systematic × SystematicPlan) × Draft) =>
      d.Grows p regions G result.2 ∧
        PlansFor p result.2.actions r r.outputs.zipIdx (done.map Prod.fst) result.1)
      ⟨.refl h, .nil⟩ ?_
    rintro done ⟨s, entry⟩ ⟨plans, d'⟩ hpre ⟨hgrows, hplans⟩
    have hmem : (s, entry) ∈ plan.systematics := hpre.subset (by simp)
    have hs : s ∈ r.systematics := hkeys ▸ List.mem_map_of_mem (f := Prod.fst) hmem
    refine (addOutputs_meets hlaw hG hgrows.sound hr hvalid hs (hsel.mono hgrows.isPrefix)
      ((hentries _ hmem).mono hgrows.isPrefix)).bind ?_
    rintro ⟨entry', d''⟩ ⟨hgrows', hentry⟩
    refine ⟨hgrows.trans hgrows', ?_⟩
    rw [List.map_append]
    exact List.rel_append (hplans.mono hgrows'.isPrefix) (.cons ⟨rfl, hentry⟩ .nil)
  · rintro ⟨systematics, d'⟩ ⟨hgrows, hplans⟩
    exact ⟨hgrows, _, rfl, hplan.name_eq, hplan.target_eq, hplans⟩

omit hG in
private theorem parent_mem {done rest : List Place} {place parent : Place}
    (hsplit : p.index.places = done ++ place :: rest) {i : Nat}
    (hedge : t.parent? place.node = some i) (hpp : p.index.place? i = some parent) :
    parent ∈ done := by
  have hnodes : t.preorder = done.map Place.node ++ place.node :: rest.map Place.node := by
    rw [← hlaw.places_node, hsplit, List.map_append, List.map_cons]
  obtain ⟨q, hq, hnode⟩ := List.mem_map.mp (hlaw.wellFormed.parent_mem_preorder hnodes hedge)
  have hplace := hlaw.place_of_mem q (by simp [hsplit, hq])
  rw [hnode, hpp, Option.some.injEq] at hplace
  exact hplace ▸ hq

private theorem createSelections_all (hvalid : ∀ r ∈ regions, r.Valid p.index) :
    Meets (p.index.places.foldlM (fun d place =>
      p.createSelections (p.chainsAt regions place) d place) { registry := p.datasetColumns })
      (fun d => d.Sound p regions G ∧ ∀ place ∈ p.index.places,
        ∀ chain ∈ p.chainsAt regions place, d.Selects place.node chain) (p.Clash G) := by
  refine Meets.foldlM (I := fun done (d : Draft) => d.Sound p regions G ∧ ∀ place ∈ done,
    ∀ chain ∈ p.chainsAt regions place, d.Selects place.node chain) ⟨.empty, by simp⟩ ?_
  rintro done place d hpre ⟨hsound, hdone⟩
  have hmem : place ∈ p.index.places := hpre.subset (by simp)
  have hplace := hlaw.place_of_mem place hmem
  refine (createSelections_meets hlaw hsound hplace ?_ ?_ ?_).mono ?_
  · intro chain hchain
    obtain ⟨r, -, -, s, -, rfl⟩ := mem_chainsAt.mp hchain
    exact Place.chainUnder_chainUnder (List.Subset.refl _) s
  · intro chain hchain i parent hparent hpp
    obtain ⟨r, hr, hbelow, s, hs, rfl⟩ := mem_chainsAt.mp hchain
    have hedge : t.parent? place.node = some i := hlaw.parent_eq hplace ▸ hparent
    obtain ⟨rest, hsplit⟩ := hpre
    have hplaces : p.index.places = done ++ place :: rest := by simp [← hsplit]
    have hfirst := parent_mem hlaw hplaces hedge hpp
    have habove : parent ∈ p.index.trail place.node := by
      rw [hlaw.trail_child hedge hplace, hlaw.trail_eq hpp]
      simp
    have hi : parent.node ∈ p.index.tree.path r.place.node := by
      rw [hlaw.tree_eq] at hbelow ⊢
      rw [(hlaw.place_lt hpp).1]
      have hsize := (hlaw.place_lt (hvalid r hr).place_eq).2
      refine hlaw.wellFormed.path_subset hsize hbelow ?_
      rw [hlaw.wellFormed.path_child hedge]
      exact List.mem_append_left _ (hlaw.wellFormed.mem_path_self (hlaw.place_lt hpp).2)
    rw [Place.chainUnder_chainUnder (hlaw.above hplace habove).2, ← (hlaw.place_lt hpp).1]
    exact hdone parent hfirst _ (mem_chainsAt.mpr ⟨r, hr, hi, s, hs, rfl⟩)
  · intro chain hchain need hneed
    obtain ⟨r, hr, hbelow, s, hs, rfl⟩ := mem_chainsAt.mp hchain
    rw [Place.filterNeeds_congr (Place.chainUnder_chainUnder (List.Subset.refl _) s)] at hneed
    refine hG _ _ (.selection hr hs ?_ hneed)
    exact hlaw.mem_trail.mpr ⟨place.node, hlaw.tree_eq ▸ hbelow, hplace⟩
  · rintro d' ⟨hgrows, hselects⟩
    refine ⟨hgrows.sound, fun q hq chain hchain => ?_⟩
    rcases List.mem_append.mp hq with hq | hq
    · exact (hdone q hq chain hchain).mono hgrows.isPrefix
    · rw [List.mem_singleton.mp hq] at hchain ⊢
      exact hselects chain hchain

theorem planAll_meets (hvalid : ∀ r ∈ regions, r.Valid p.index) :
    Meets (p.planAll regions)
      (fun result => result.2.Sound p regions G ∧
        List.Forall₂ (fun r plan => RegionFor p result.2.actions r.outputs.zipIdx r plan) regions
          result.1) (p.Clash G) := by
  refine (createSelections_all hlaw hG hvalid).bind ?_
  rintro d ⟨hsound, hselects⟩
  have hselected : ∀ r ∈ regions, p.Selected d r := by
    intro r hr s hs place hplace
    obtain ⟨i, hi, hpi⟩ := hlaw.mem_trail.mp hplace
    have hnode := (hlaw.place_lt hpi).1
    subst hnode
    exact hselects place (List.mem_of_find?_eq_some hpi) _
      (mem_chainsAt.mpr ⟨r, hr, hlaw.tree_eq ▸ hi, s, hs, rfl⟩)
  have hplans : Meets (regions.foldlM p.planRegion ([], d))
      (fun result => d.Grows p regions G result.2 ∧
        List.Forall₂ (RegionFor p result.2.actions []) regions result.1) (p.Clash G) := by
    refine Meets.foldlM (I := fun done (result : List RegionPlan × Draft) =>
      d.Grows p regions G result.2 ∧ List.Forall₂ (RegionFor p result.2.actions []) done result.1)
      ⟨.refl hsound, .nil⟩ ?_
    rintro done r ⟨plans, d'⟩ hpre ⟨hgrows, hplans⟩
    have hr : r ∈ regions := hpre.subset (by simp)
    refine (planRegion_meets hlaw hG hgrows.sound hr (hvalid r hr)
      ((hselected r hr).mono hgrows.isPrefix) plans).mono ?_
    rintro ⟨plans', d''⟩ ⟨hgrows', plan, rfl, hplan⟩
    exact ⟨hgrows.trans hgrows', List.rel_append
      (hplans.imp fun _ _ he => he.mono hgrows'.isPrefix) (.cons hplan .nil)⟩
  refine hplans.bind ?_
  rintro ⟨plans, d'⟩ ⟨hgrows, hplans⟩
  have hzip : (regions.zip plans).map Prod.fst = regions :=
    List.map_fst_zip (Nat.le_of_eq hplans.length_eq)
  have hentries : ∀ entry ∈ regions.zip plans, RegionFor p d'.actions [] entry.1 entry.2 :=
    fun _ hentry => (List.forall₂_iff_zip.mp hplans).2 hentry
  have hloop : Meets ((regions.zip plans).foldlM p.outputRegion ([], d'))
      (fun result => d'.Grows p regions G result.2 ∧
        List.Forall₂ (fun r plan => RegionFor p result.2.actions r.outputs.zipIdx r plan)
          ((regions.zip plans).map Prod.fst) result.1) (p.Clash G) := by
    refine Meets.foldlM (I := fun done (result : List RegionPlan × Draft) =>
      d'.Grows p regions G result.2 ∧
        List.Forall₂ (fun r plan => RegionFor p result.2.actions r.outputs.zipIdx r plan)
          (done.map Prod.fst) result.1) ?_ ?_
    · exact ⟨.refl hgrows.sound, .nil⟩
    rintro done ⟨r, plan⟩ ⟨plans', d''⟩ hpre ⟨hgrows', hplans'⟩
    have hmem : (r, plan) ∈ regions.zip plans := hpre.subset (by simp)
    have hr : r ∈ regions := hzip ▸ List.mem_map_of_mem (f := Prod.fst) hmem
    refine (outputRegion_meets hlaw hG hgrows'.sound hr (hvalid r hr)
      ((hselected r hr).mono (hgrows.trans hgrows').isPrefix)
      ((hentries _ hmem).mono hgrows'.isPrefix) plans').mono ?_
    rintro ⟨plans'', d'''⟩ ⟨hgrows'', plan', rfl, hplan'⟩
    refine ⟨hgrows'.trans hgrows'', ?_⟩
    rw [List.map_append]
    exact List.rel_append (hplans'.imp fun _ _ he => he.mono hgrows''.isPrefix)
      (.cons hplan' .nil)
  rw [hzip] at hloop
  exact hloop.mono (fun _ hresult => ⟨hresult.1.sound, hresult.2⟩)

end Planner
end SelectionPlan
