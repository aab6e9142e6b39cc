import SelectionPlan.Proofs.Graph.Dependencies
import SelectionPlan.Proofs.Scope.Affects
import SelectionPlan.Proofs.Scope.Readable

/-!
# What regions ask of a tree

Whether a region is planned, which computed columns it reads and which columns come from the dataset
is a matter of the tree.  Planning demands the columns that planned regions read and no others.
-/

namespace SelectionPlan

variable {ω : Type}

/-- A variation means something at a node: it is declared, it changes a filter on the way there, or
it changes a variable that is visible there. -/
def SelectionTree.Knows (t : SelectionTree) (node : Nat) (variation : String) : Prop :=
  variation ∈ t.systematics ∨ (∃ m ∈ t.path node, t.FilterAffected variation m) ∨
    ∃ v ∈ t.visible node, Affects variation (t.visible node) v.name

def Region.Known (t : SelectionTree) (r : Region ω) : Prop :=
  ∀ variation, .variation variation ∈ r.systematics → t.Knows r.target.index variation

/-- A variable named `reader` reads a column of the dataset as it is. -/
def SelectionTree.ReadsDataset (t : SelectionTree) (reader column : String) : Prop :=
  ∃ node, ∃ v ∈ t.own node, v.name = reader ∧ .branch column ∈ v.specs

/-- A region reads the column `c`, computed for `e`: for a filter on the way to its target, for a
weight in effect there, or for a writer. -/
inductive Region.Reads (index : ScopeIndex) (r : Region ω) (c : ColumnRef) (e : Systematic) : Prop
  | filter {s : Systematic} : s ∈ r.systematics → index.FiltersRead r.target.index s c e →
      Reads index r c e
  | weight {s : Systematic} {node : Nat} {place : Place} {weight : String} : s ∈ r.systematics →
      node ∈ index.tree.path r.target.index → index.place? node = some place →
      index.tree.weight node = some weight → place.ReadsComputed s [weight] c e →
      Reads index r c e
  | writer {s : Systematic} {w : Writer ω} {place : Place} : s ∈ r.systematics → w ∈ r.writers →
      index.place? r.target.index = some place →
      place.ReadsComputed s
        (w.columns ++ (w.weight.or (index.tree.weight r.target.index)).toList) c e →
      Reads index r c e

/-- Some region that is not skipped reads a computed variable named `name` for `e`. -/
def Requested (t : SelectionTree) (index : ScopeIndex) (regions : List (Region ω)) (name : String)
    (e : Systematic) : Prop :=
  ∃ r ∈ regions, r.Known t ∧ ∃ c v, r.Reads index c e ∧ (t.own c.node)[c.slot]? = some v ∧
    v.name = name

/-! ### Columns of the dataset -/

private structure Claiming (f : NameRegistry → NameRegistry) (S : String → String → Prop) :
    Prop where
  sound : ∀ r column reader, lookupKey column (f r).dataset = some reader →
    lookupKey column r.dataset = some reader ∨ S reader column
  keeps : ∀ r column, (lookupKey column r.dataset).isSome → (lookupKey column (f r).dataset).isSome
  complete : ∀ r column reader, S reader column → (lookupKey column (f r).dataset).isSome

private theorem Claiming.foldl {α : Type} {f : NameRegistry → α → NameRegistry}
    {S : α → String → String → Prop} (h : ∀ x, Claiming (fun r => f r x) (S x)) (xs : List α) :
    Claiming (fun r => xs.foldl f r) fun reader column => ∃ x ∈ xs, S x reader column := by
  induction xs with
  | nil =>
      constructor
      · exact fun _ _ _ hlookup => .inl hlookup
      · exact fun _ _ hsome => hsome
      · rintro r column reader ⟨x, hx, -⟩
        cases hx
  | cons x xs ih =>
      constructor
      · intro r column reader hlookup
        rcases ih.sound (f r x) column reader hlookup with hlookup | ⟨y, hy, hS⟩
        · rcases (h x).sound r column reader hlookup with hlookup | hS
          · exact .inl hlookup
          · exact .inr ⟨x, List.mem_cons_self, hS⟩
        · exact .inr ⟨y, List.mem_cons_of_mem x hy, hS⟩
      · intro r column hsome
        exact ih.keeps (f r x) column ((h x).keeps r column hsome)
      · rintro r column reader ⟨y, hy, hS⟩
        rcases List.mem_cons.mp hy with rfl | hy
        · exact ih.keeps (f r y) column ((h y).complete r column reader hS)
        · exact ih.complete (f r x) column reader ⟨y, hy, hS⟩

private theorem claiming_addDataset (reader column : String) :
    Claiming (fun r => r.addDataset column reader) fun reader' column' =>
      reader' = reader ∧ column' = column := by
  have hlookup (r : NameRegistry) (column' : String) :
      lookupKey column' (r.addDataset column reader).dataset =
        if column' = column then (lookupKey column r.dataset).or (some reader)
        else lookupKey column' r.dataset := by
    rw [NameRegistry.addDataset]
    split
    · rename_i hsome
      obtain ⟨owner, howner⟩ := Option.isSome_iff_exists.mp hsome
      split
      · simp_all
      · rfl
    · rename_i hnone
      rw [Option.not_isSome_iff_eq_none] at hnone
      simp only [lookupKey, hnone, Option.none_or, eq_comm]
  constructor
  · intro r column' reader' h
    rw [hlookup] at h
    split at h
    · rename_i heq
      subst heq
      rcases Option.or_eq_some_iff.mp h with h | ⟨-, h⟩
      · exact .inl h
      · cases h
        exact .inr ⟨rfl, rfl⟩
    · exact .inl h
  · intro r column' hsome
    rw [hlookup]
    split
    · simp
    · exact hsome
  · rintro r column' reader' ⟨-, rfl⟩
    simp [hlookup]

private theorem Planner.claiming (p : Planner) : ∃ f, p.datasetColumns = f {} ∧
    Claiming f fun reader column => ∃ place ∈ p.index.places,
      ∃ v ∈ p.index.tree.own place.node, ∃ spec ∈ v.specs, spec = .branch column ∧
        v.name = reader := by
  refine ⟨_, rfl, Claiming.foldl (fun place => Claiming.foldl (fun v => Claiming.foldl ?_ _) _) _⟩
  intro spec
  cases spec with
  | branch column =>
      have hclaim := claiming_addDataset v.name column
      constructor
      · intro r column' reader h
        rcases hclaim.sound r column' reader h with h | ⟨rfl, rfl⟩
        · exact .inl h
        · exact .inr ⟨rfl, rfl⟩
      · exact hclaim.keeps
      · rintro r column' reader ⟨heq, rfl⟩
        cases heq
        exact hclaim.complete r column _ ⟨rfl, rfl⟩
  | _ =>
      constructor
      · exact fun _ _ _ h => .inl h
      · exact fun _ _ h => h
      · rintro r column reader ⟨heq, -⟩
        cases heq

section Dataset

variable {p : Planner} {t : SelectionTree} (h : ScopeIndex.Lawful t p.index) {column : String}
include h

theorem ScopeIndex.Lawful.reads_of_claimed {reader : String}
    (hclaimed : lookupKey column p.datasetColumns.dataset = some reader) :
    t.ReadsDataset reader column := by
  obtain ⟨f, hf, hclaiming⟩ := p.claiming
  rw [hf] at hclaimed
  rcases hclaiming.sound {} column reader hclaimed with hempty | hreads
  · cases hempty
  · obtain ⟨place, -, v, hv, _, hspec, rfl, hname⟩ := hreads
    rw [h.tree_eq] at hv
    exact ⟨place.node, v, hv, hname, hspec⟩

theorem ScopeIndex.Lawful.unclaimed_iff :
    lookupKey column p.datasetColumns.dataset = none ↔
      ∀ reader, ¬ t.ReadsDataset reader column := by
  constructor
  · rintro hnone reader ⟨node, v, hv, hname, hspec⟩
    obtain ⟨slot, hslot⟩ := List.getElem?_of_mem hv
    obtain ⟨place, hplace⟩ := h.exists_place (SelectionTree.lt_size_of_own hslot)
    obtain ⟨f, hf, hclaiming⟩ := p.claiming
    have hown : v ∈ p.index.tree.own place.node := by
      rw [h.tree_eq, (h.place_lt hplace).1]
      exact hv
    have hsome := hclaiming.complete {} column reader
      ⟨place, List.mem_of_find?_eq_some hplace, v, hown, _, hspec, rfl, hname⟩
    rw [← hf, hnone] at hsome
    cases hsome
  · intro hfree
    refine Option.eq_none_iff_forall_ne_some.mpr fun reader hclaimed => ?_
    exact hfree reader (h.reads_of_claimed hclaimed)

end Dataset

/-! ### Regions that are planned -/

section Accepted

variable {index : ScopeIndex} {t : SelectionTree} {r : Region ω} {place : Place}

theorem unknownSystematic?_eq_none : unknownSystematic? index r place = none ↔
    ∀ variation, .variation variation ∈ r.systematics → variation ∈ index.known place := by
  simp only [unknownSystematic?, List.findSome?_eq_none_iff]
  constructor
  · intro h variation hmem
    simpa using h _ hmem
  · intro h s hs
    cases s with
    | nominal => rfl
    | variation name => simp [h name hs]

theorem unknownSystematic?_eq_some {e : BuildError}
    (h : unknownSystematic? index r place = some e) :
    ∃ variation, .variation variation ∈ r.systematics ∧ variation ∉ index.known place ∧
      e = .unknownSystematic r.name variation place.path := by
  obtain ⟨s, hs, he⟩ := List.exists_of_findSome?_eq_some h
  cases s with
  | nominal => cases he
  | variation name =>
      simp only at he
      split at he
      · cases he
      · cases he
        exact ⟨name, hs, ‹_›, rfl⟩

theorem ScopeIndex.mem_known_iff {variation : String} : variation ∈ index.known place ↔
    variation ∈ index.tree.systematics ∨ variation ∈ place.chain ∨
      ∃ c ∈ place.scope, variation ∈ c.affects := by
  have hfold (scope : Scope) (known : List String) :
      variation ∈ scope.foldr (fun c => unionDistinct c.affects) known ↔
        variation ∈ known ∨ ∃ c ∈ scope, variation ∈ c.affects := by
    induction scope with
    | nil => simp
    | cons c scope ih =>
        rw [List.foldr_cons, mem_unionDistinct, ih, List.exists_mem_cons_iff, or_left_comm]
  rw [known, hfold, mem_unionDistinct, or_assoc, or_left_comm]

variable (h : ScopeIndex.Lawful t index)
include h

theorem ScopeIndex.Lawful.mem_known {node : Nat} (hplace : index.place? node = some place)
    {variation : String} : variation ∈ index.known place ↔ t.Knows node variation := by
  have hcolumn : (∃ c ∈ place.scope, variation ∈ c.affects) ↔
      ∃ v ∈ t.visible node, Affects variation (t.visible node) v.name := by
    have hresolved := h.resolved hplace
    rw [← h.scope_declared hplace]
    simp only [List.mem_map, exists_exists_and_eq_and]
    refine exists_congr fun c => and_congr_right fun hc => ?_
    have hlookup : place.scope.lookup c.name = some c := hresolved.lookup_eq_some.mpr ⟨hc, rfl⟩
    rw [hresolved.affects_iff]
    constructor
    · exact fun haffects => ⟨c, hlookup, haffects⟩
    · rintro ⟨d, hd, haffects⟩
      rw [← Column.name, hlookup, Option.some.injEq] at hd
      exact hd ▸ haffects
  rw [ScopeIndex.mem_known_iff, hcolumn, h.mem_chain hplace, h.tree_eq, SelectionTree.Knows]

theorem ScopeIndex.Lawful.accept?_isSome (hplace : index.place? r.target.index = some place) :
    (r.accept? index).isSome ↔ r.Known t := by
  have hknown : unknownSystematic? index r place = none ↔ r.Known t := by
    rw [unknownSystematic?_eq_none]
    exact forall₂_congr fun variation _ => h.mem_known hplace
  rw [← hknown]
  simp only [Region.accept?, hplace]
  cases unknownSystematic? index r place <;> simp

end Accepted

/-! ### Columns that planning demands -/

section Demands

variable {p : Planner} {t : SelectionTree} {regions : List (Region ω)} {c : ColumnRef}
  {e : Systematic}

theorem Region.Reads.declares {index : ScopeIndex} {r : Region ω} (h : r.Reads index c e) :
    ∃ column older, index.Declares column older ∧ c = column.ref ∧
      ∃ s, e = column.effective s := by
  have hread {i : Nat} {place : Place} {s : Systematic} {wanted : List String}
      (hplace : index.place? i = some place) (hreads : place.ReadsComputed s wanted c e) :
      ∃ column older, index.Declares column older ∧ c = column.ref ∧
        ∃ s, e = column.effective s := by
    obtain ⟨column, older, hread, -, hc, he⟩ := hreads
    exact ⟨column, older, ⟨i, place, hplace, hread.suffix⟩, hc, s, he⟩
  cases h with
  | filter _ hreads =>
      obtain ⟨m, -, place, v, hplace, -, hreads⟩ := hreads
      exact hread hplace hreads
  | weight _ _ hplace _ hreads => exact hread hplace hreads
  | writer _ _ hplace hreads => exact hread hplace hreads

section Single

variable (h : ScopeIndex.Lawful t p.index) {r : Region ω} {a : AcceptedRegion}
include h

theorem ScopeIndex.Lawful.reads_of_demands
    (hdemand : p.Demands (regions.filterMap (Region.accept? p.index)) c e) :
    ∃ r ∈ regions, (r.accept? p.index).isSome ∧ r.Reads p.index c e := by
  have hregion {a : AcceptedRegion} (ha : a ∈ regions.filterMap (Region.accept? p.index)) :
      ∃ r ∈ regions, r.accept? p.index = some a ∧ a.place.node = r.target.index := by
    obtain ⟨r, hr, haccept⟩ := List.mem_filterMap.mp ha
    exact ⟨r, hr, haccept, (h.place_lt (Region.accept?_eq_some haccept).1).1⟩
  cases hdemand with
  | @selection a s place need ha hs hplace hneed =>
      obtain ⟨r, hr, haccept, hnode⟩ := hregion ha
      obtain ⟨-, -, hsys, -, -⟩ := Region.accept?_eq_some haccept
      have hreads : p.index.FiltersRead r.target.index s need.1.ref
          (need.1.effective (place.chainUnder s)) := by
        rw [filtersRead_iff h, mem_selectionTasks_define, ← hnode]
        exact ⟨place, hplace, need, hneed, rfl, rfl⟩
      exact ⟨r, hr, by simp [haccept], .filter (hsys ▸ hs) hreads⟩
  | @weight a s place weight need ha hs hplace hweight hneed =>
      obtain ⟨r, hr, haccept, hnode⟩ := hregion ha
      obtain ⟨-, -, hsys, -, -⟩ := Region.accept?_eq_some haccept
      obtain ⟨m, hm, hpm⟩ := h.mem_trail.mp hplace
      rw [← h.tree_eq, hnode] at hm
      have hw : p.index.tree.weight m = some weight := (h.place_lt hpm).1 ▸ hweight
      have hreads : place.ReadsComputed s [weight] need.1.ref (need.1.effective s) :=
        Place.readsComputed_iff.mpr ⟨need, hneed, rfl, rfl⟩
      exact ⟨r, hr, by simp [haccept], .weight (hsys ▸ hs) hm hpm hw hreads⟩
  | @output a s spec need ha hs hspec hneed =>
      obtain ⟨r, hr, haccept, hnode⟩ := hregion ha
      obtain ⟨hplace, -, hsys, houtputs, hweight⟩ := Region.accept?_eq_some haccept
      rw [houtputs] at hspec
      obtain ⟨w, hw, rfl⟩ := List.mem_map.mp hspec
      rw [AcceptedRegion.weightOf, hweight, hnode] at hneed
      have hreads := Place.readsComputed_iff.mpr ⟨need, hneed, rfl, rfl⟩
      exact ⟨r, hr, by simp [haccept], .writer (hsys ▸ hs) hw hplace hreads⟩

theorem ScopeIndex.Lawful.demands_of_reads (hr : r ∈ regions)
    (haccept : r.accept? p.index = some a) (hreads : r.Reads p.index c e) :
    p.Demands (regions.filterMap (Region.accept? p.index)) c e := by
  obtain ⟨hplace, -, hsys, houtputs, hweight⟩ := Region.accept?_eq_some haccept
  have ha : a ∈ regions.filterMap (Region.accept? p.index) :=
    List.mem_filterMap.mpr ⟨r, hr, haccept⟩
  have hnode := (h.place_lt hplace).1
  cases hreads with
  | filter hs hreads =>
      rw [filtersRead_iff h, mem_selectionTasks_define, ← hnode] at hreads
      obtain ⟨place, hmem, need, hneed, rfl, rfl⟩ := hreads
      exact .selection ha (hsys ▸ hs) hmem hneed
  | @weight s node place weight hs hm hpm hw hreads =>
      obtain ⟨need, hneed, rfl, rfl⟩ := Place.readsComputed_iff.mp hreads
      rw [← hnode, h.tree_eq] at hm
      have hw' : p.index.tree.weight place.node = some weight := (h.place_lt hpm).1.symm ▸ hw
      exact .weight ha (hsys ▸ hs) (h.mem_trail.mpr ⟨node, hm, hpm⟩) hw' hneed
  | @writer s w place hs hw hplace' hreads =>
      rw [hplace, Option.some.injEq] at hplace'
      subst hplace'
      obtain ⟨need, hneed, rfl, rfl⟩ := Place.readsComputed_iff.mp hreads
      rw [← hnode, ← hweight] at hneed
      exact .output ha (hsys ▸ hs) (houtputs ▸ List.mem_map_of_mem hw) hneed

end Single

/-- What is requested is what planning demands, by name. -/
theorem ScopeIndex.Lawful.requested_iff (h : ScopeIndex.Lawful t p.index)
    (htargets : ∀ r ∈ regions, r.target.index < t.size) {name : String} :
    Requested t p.index regions name e ↔ ∃ c older, p.index.Declares c older ∧
      p.Demands (regions.filterMap (Region.accept? p.index)) c.ref e ∧ c.name = name := by
  have haccept {r : Region ω} (hr : r ∈ regions) : (r.accept? p.index).isSome ↔ r.Known t := by
    obtain ⟨place, hplace⟩ := h.exists_place (htargets r hr)
    exact h.accept?_isSome hplace
  constructor
  · rintro ⟨r, hr, hknown, c, v, hreads, hv, rfl⟩
    obtain ⟨column, older, hdecl, rfl, -⟩ := hreads.declares
    rw [h.own_of_declares hdecl, Option.some.injEq] at hv
    subst hv
    obtain ⟨a, ha⟩ := Option.isSome_iff_exists.mp ((haccept hr).mpr hknown)
    exact ⟨column, older, hdecl, h.demands_of_reads hr ha hreads, rfl⟩
  · rintro ⟨column, older, hdecl, hdemand, rfl⟩
    obtain ⟨r, hr, hsome, hreads⟩ := h.reads_of_demands hdemand
    exact ⟨r, hr, (haccept hr).mp hsome, column.ref, column.declared, hreads,
      h.own_of_declares hdecl, rfl⟩

end Demands
end SelectionPlan
