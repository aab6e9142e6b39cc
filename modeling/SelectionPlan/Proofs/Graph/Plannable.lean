import SelectionPlan.Proofs.Graph.Requests
import SelectionPlan.Proofs.Graph.Sharing
import SelectionPlan.Proofs.Graph.Subset

/-!
# When planning succeeds

Planning succeeds exactly if its request is well formed, and otherwise the error says what is wrong
with it.  No step of planning is ever left without what the steps before it should have made.
-/

namespace SelectionPlan

variable {ω : Type}

/-- A variation is declared by a tree or overridden by one of its variables or filters. -/
def SelectionTree.Varies (t : SelectionTree) (variation : String) : Prop :=
  variation ∈ t.systematics ∨
    ∃ node ∈ t.nodes, ∃ v ∈ node.filter.toList ++ node.ownVariables, variation ∈ v.overridden

theorem SelectionTree.varies_of_visible {t : SelectionTree} {node : Nat} {v : Variable}
    {variation : String} (hv : v ∈ t.visible node) (hover : variation ∈ v.overridden) :
    t.Varies variation := by
  rw [SelectionTree.visible, List.mem_reverse, List.mem_flatMap] at hv
  obtain ⟨m, -, hv⟩ := hv
  cases hnode : t.nodes[m]? with
  | none => simp [hnode] at hv
  | some n =>
      rw [hnode, Option.map_some, Option.getD_some] at hv
      exact .inr ⟨n, List.mem_of_getElem? hnode, v, List.mem_append_right _ hv, hover⟩

theorem SelectionTree.Knows.varies {t : SelectionTree} {node : Nat} {variation : String}
    (h : t.Knows node variation) : t.Varies variation := by
  rcases h with hdeclared | ⟨m, -, v, hfilter, hover | ⟨i, -, haffects⟩⟩ | ⟨v, -, haffects⟩
  · exact .inl hdeclared
  · obtain ⟨n, hn, hv⟩ := Option.bind_eq_some_iff.mp hfilter
    refine .inr ⟨n, List.mem_of_getElem? hn, v, List.mem_append_left _ ?_, hover⟩
    rw [hv, Option.toList_some, List.mem_singleton]
  · obtain ⟨w, hw, hover⟩ := haffects.exists_override
    exact varies_of_visible hw hover
  · obtain ⟨w, hw, hover⟩ := haffects.exists_override
    exact varies_of_visible hw hover

structure Namer.AcceptsNames (namer : Namer) (t : SelectionTree) : Prop where
  variations : ∀ variation, t.Varies variation → namer.checkSystematic variation = .ok ()
  logical : ∀ node, ∀ v ∈ t.own node, namer.checkLogical v.name = .ok ()

structure Plannable (t : SelectionTree) (namer : Namer) (options : BuildOptions)
    (regions : List (Region ω)) : Prop where
  cost : options.defaultCost.isFinite = true ∧ ¬ options.defaultCost < 0
  regionName : ∀ r ∈ regions, r.name ≠ "" ∧ '/' ∉ r.name.toList ∧ r.name ≠ rootName
  regionNames : (regions.map Region.name).Nodup
  target : ∀ r ∈ regions, t.contains r.target = true
  readable : t.Readable
  names : namer.AcceptsNames t
  /-- Regions that request unknown variations are planned without if they may be skipped. -/
  known : options.onUnknownSystematic = .fail → ∀ r ∈ regions, r.Known t
  /-- Writers find their columns and weights at the target. -/
  visible : ∀ r ∈ regions, r.Known t → ∀ w ∈ r.writers,
    ∀ column ∈ w.columns ++ (w.weight.or (t.weight r.target.index)).toList,
      column ∈ (t.visible r.target.index).map Variable.name
  /-- The computed columns that are requested can be computed side by side and beside the columns of
  the dataset. -/
  apart : ∀ index, ScopeIndex.build t = .ok index → ∀ name e, Requested t index regions name e →
    (∀ reader, ¬ t.ReadsDataset reader (namer.physical name e)) ∧
    ∀ name' e', Requested t index regions name' e' →
      namer.physical name' e' = namer.physical name e → name' = name ∧ e' = e

/-- The complaints about a request, each with its reason. -/
inductive Refusal (t : SelectionTree) (namer : Namer) (options : BuildOptions)
    (regions : List (Region ω)) : BuildError → Prop
  | cost : ¬ Variable.isCost options.defaultCost = true →
      Refusal t namer options regions (.invalidCost "default cost" options.defaultCost)
  | regionName {r : Region ω} : r ∈ regions → ¬ isRegionName r.name = true →
      Refusal t namer options regions (.invalidRegion r.name)
  | duplicate {name : String} : 1 < (regions.map Region.name).count name →
      Refusal t namer options regions (.duplicateRegion name)
  | target {r : Region ω} : r ∈ regions → ¬ t.contains r.target = true →
      Refusal t namer options regions (.foreignTarget r.name)
  | misread {e : BuildError} : t.Misread e → Refusal t namer options regions e
  | variation {variation : String} {e : NamingError} : t.Varies variation →
      namer.checkSystematic variation = .error e → Refusal t namer options regions (.naming e)
  | logical {node : Nat} {v : Variable} {e : NamingError} : v ∈ t.own node →
      namer.checkLogical v.name = .error e → Refusal t namer options regions (.naming e)
  | unknown {r : Region ω} {variation : String} : options.onUnknownSystematic = .fail →
      r ∈ regions → .variation variation ∈ r.systematics → ¬ t.Knows r.target.index variation →
      Refusal t namer options regions
        (.unknownSystematic r.name variation (t.pathText r.target.index))
  | invisible {r : Region ω} {s : Systematic} {w : Writer ω} {column : String} : r ∈ regions →
      r.Known t → s ∈ r.systematics → w ∈ r.writers →
      column ∈ w.columns ++ (w.weight.or (t.weight r.target.index)).toList →
      column ∉ (t.visible r.target.index).map Variable.name →
      Refusal t namer options regions
        (.unresolved column (r.name ++ "/" ++ w.name) s (t.pathText r.target.index))
  | dataset {index : ScopeIndex} {name reader : String} {e : Systematic} : namer.AcceptsNames t →
      ScopeIndex.build t = .ok index → Requested t index regions name e →
      t.ReadsDataset reader (namer.physical name e) →
      Refusal t namer options regions
        (.naming (.collision (namer.physical name e) (.dataset reader) (.assigned name e)))
  | computed {index : ScopeIndex} {name name' : String} {e e' : Systematic} :
      namer.AcceptsNames t → ScopeIndex.build t = .ok index → Requested t index regions name e →
      Requested t index regions name' e' → namer.physical name' e' = namer.physical name e →
      ¬ (name' = name ∧ e' = e) →
      Refusal t namer options regions
        (.naming (.collision (namer.physical name e) (.assigned name' e') (.assigned name e)))

/-- Errors that would tell of a step that is left without what the steps before it make. -/
def BuildError.IsDefensive : BuildError → Prop
  | .foreignNode | .notProduced .. | .invalidNode .. | .expression _ => True
  | _ => False

theorem isRegionName_iff {name : String} :
    isRegionName name = true ↔ name ≠ "" ∧ '/' ∉ name.toList ∧ name ≠ rootName := by
  simp [isRegionName, and_assoc]

theorem Variable.isCost_iff {cost : Float} :
    isCost cost = true ↔ cost.isFinite = true ∧ ¬ cost < 0 := by
  simp [isCost]

section Refusal

variable {t : SelectionTree} {namer : Namer} {options : BuildOptions} {regions : List (Region ω)}
  {e : BuildError}

theorem SelectionTree.Misread.not_isDefensive (h : t.Misread e) : ¬ e.IsDefensive := by
  cases h <;> exact not_false

theorem Refusal.not_isDefensive (h : Refusal t namer options regions e) : ¬ e.IsDefensive := by
  cases h with
  | misread h => exact h.not_isDefensive
  | _ => exact not_false

theorem Plannable.not_refusal (h : Plannable t namer options regions) (e : BuildError) :
    ¬ Refusal t namer options regions e := by
  intro hrefusal
  cases hrefusal with
  | cost hcost => exact hcost (Variable.isCost_iff.mpr h.cost)
  | regionName hr hname => exact hname (isRegionName_iff.mpr (h.regionName _ hr))
  | duplicate hcount =>
      exact absurd (List.nodup_iff_count_le_one.mp h.regionNames _) (Nat.not_le.mpr hcount)
  | target hr htarget => exact htarget (h.target _ hr)
  | misread hmisread => exact h.readable.not_misread _ hmisread
  | variation hvaries herror => simp [h.names.variations _ hvaries] at herror
  | logical hv herror => simp [h.names.logical _ _ hv] at herror
  | unknown hpolicy hr hs hunknown => exact hunknown (h.known hpolicy _ hr _ hs)
  | invisible hr hknown _ hw hcolumn hunseen =>
      exact hunseen (h.visible _ hr hknown _ hw _ hcolumn)
  | dataset _ hindex hrequested hreads => exact (h.apart _ hindex _ _ hrequested).1 _ hreads
  | computed _ hindex hrequested hrequested' hname hdiffer =>
      exact hdiffer ((h.apart _ hindex _ _ hrequested).2 _ _ hrequested' hname)

end Refusal

/-! ### The checks -/

def Region.Puzzles (t : SelectionTree) (r : Region ω) (e : BuildError) : Prop :=
  ∃ variation, .variation variation ∈ r.systematics ∧ ¬ t.Knows r.target.index variation ∧
    e = .unknownSystematic r.name variation (t.pathText r.target.index)

section Checks

variable {t : SelectionTree} {index : ScopeIndex} {namer : Namer} {regions : List (Region ω)}

theorem checkRegions_meets {seen : List String} :
    Meets (checkRegions t seen regions) (fun _ => True) fun e =>
      (∃ r ∈ regions, ¬ isRegionName r.name = true ∧ e = .invalidRegion r.name) ∨
      (∃ name, 1 < (seen ++ regions.map Region.name).count name ∧ e = .duplicateRegion name) ∨
      ∃ r ∈ regions, ¬ t.contains r.target = true ∧ e = .foreignTarget r.name := by
  induction regions generalizing seen with
  | nil => trivial
  | cons r rest ih =>
      rw [checkRegions]
      split
      · exact .inl ⟨r, List.mem_cons_self, by simp_all, rfl⟩
      · split
        · rename_i hseen
          refine .inr (.inl ⟨r.name, ?_, rfl⟩)
          have hpos := List.count_pos_iff.mpr hseen
          rw [List.count_append, List.map_cons, List.count_cons_self]
          omega
        · split
          · exact .inr (.inr ⟨r, List.mem_cons_self, by simp_all, rfl⟩)
          · refine ih.excused ?_
            rintro e (⟨q, hq, hname⟩ | ⟨name, hcount, he⟩ | ⟨q, hq, he⟩)
            · exact .inl ⟨q, List.mem_cons_of_mem r hq, hname⟩
            · refine .inr (.inl ⟨name, ?_, he⟩)
              rwa [List.map_cons, List.perm_middle.count_eq]
            · exact .inr (.inr ⟨q, List.mem_cons_of_mem r hq, he⟩)

variable (h : ScopeIndex.Lawful t index)
include h

theorem ScopeIndex.Lawful.mem_allSystematics {variation : String} :
    variation ∈ index.allSystematics ↔ t.Varies variation := by
  simp only [ScopeIndex.allSystematics, mem_unionDistinct, h.tree_eq, List.mem_flatMap,
    SelectionTree.Varies]
  exact or_comm

theorem ScopeIndex.Lawful.checkNames_eq_ok :
    checkNames index namer = .ok () ↔ namer.AcceptsNames t := by
  have hvariables : (∀ place ∈ index.places, ∀ v ∈ t.own place.node,
      namer.checkLogical v.name = .ok ()) ↔
        ∀ node, ∀ v ∈ t.own node, namer.checkLogical v.name = .ok () := by
    constructor
    · intro hall node v hv
      obtain ⟨slot, hslot⟩ := List.getElem?_of_mem hv
      obtain ⟨place, hplace⟩ := h.exists_place (SelectionTree.lt_size_of_own hslot)
      refine hall place (List.mem_of_find?_eq_some hplace) v ?_
      rwa [(h.place_lt hplace).1]
    · exact fun hall place _ => hall place.node
  have hcheck : checkNames index namer = .ok () ↔
      (∀ s ∈ index.allSystematics, namer.checkSystematic s = .ok ()) ∧
        ∀ place ∈ index.places, ∀ v ∈ t.own place.node, namer.checkLogical v.name = .ok () := by
    have hown : (index.places.forM fun place => (t.own place.node).forM fun v =>
        namer.checkLogical v.name) = .ok () ↔
          ∀ place ∈ index.places, ∀ v ∈ t.own place.node, namer.checkLogical v.name = .ok () := by
      simp only [forM_eq_ok]
    rw [checkNames, bind_eq_ok, h.tree_eq, ← forM_eq_ok, ← hown]
    constructor
    · rintro ⟨⟨⟩, hvariations, hvariables⟩
      exact ⟨hvariations, hvariables⟩
    · rintro ⟨hvariations, hvariables⟩
      exact ⟨(), hvariations, hvariables⟩
  rw [hcheck, hvariables]
  constructor
  · rintro ⟨hvariations, hvariables⟩
    exact ⟨fun s hs => hvariations s (h.mem_allSystematics.mpr hs), hvariables⟩
  · intro hnames
    exact ⟨fun s hs => hnames.variations s (h.mem_allSystematics.mp hs), hnames.logical⟩

theorem ScopeIndex.Lawful.checkNames_meets : Meets (checkNames index namer) (fun _ => True) fun e =>
    (∃ variation, t.Varies variation ∧ namer.checkSystematic variation = .error e) ∨
      ∃ node, ∃ v ∈ t.own node, namer.checkLogical v.name = .error e := by
  rw [checkNames, h.tree_eq]
  refine Meets.bind (P := fun _ => True) (Meets.forM fun s hs => ?_) fun _ _ =>
    Meets.forM fun place _ => Meets.forM fun v hv => ?_
  · cases hcheck : namer.checkSystematic s with
    | ok _ => trivial
    | error e => exact .inl ⟨s, h.mem_allSystematics.mp hs, hcheck⟩
  · cases hcheck : namer.checkLogical v.name with
    | ok _ => trivial
    | error e => exact .inr ⟨place.node, v, hv, hcheck⟩

variable (htargets : ∀ r ∈ regions, r.target.index < t.size)
include htargets

theorem ScopeIndex.Lawful.acceptRegions_meets (policy : UnknownSystematicPolicy) :
    Meets (acceptRegions index policy regions)
      (fun result => result.1 = regions.filterMap (Region.accept? index) ∧
        (policy = .fail → ∀ r ∈ regions, r.Known t))
      fun e => policy = .fail ∧ ∃ r ∈ regions, r.Puzzles t e := by
  induction regions with
  | nil => exact ⟨rfl, by simp⟩
  | cons r rest ih =>
      rw [List.forall_mem_cons] at htargets
      obtain ⟨place, hplace⟩ := h.exists_place htargets.1
      have hpath : place.path = t.pathText r.target.index := by
        obtain ⟨_, _, hext⟩ := h.extends_of_place hplace
        exact hext.path_eq
      have hrest : Meets (acceptRegions index policy rest)
          (fun result => result.1 = rest.filterMap (Region.accept? index) ∧
            (policy = .fail → ∀ q ∈ rest, q.Known t))
          fun e => policy = .fail ∧ ∃ q ∈ r :: rest, q.Puzzles t e := by
        refine (ih htargets.2).excused ?_
        rintro e ⟨hpolicy, q, hq, hpuzzles⟩
        exact ⟨hpolicy, q, List.mem_cons_of_mem r hq, hpuzzles⟩
      simp only [acceptRegions, hplace]
      cases hunknown : unknownSystematic? index r place with
      | none =>
          have haccept : r.accept? index = some ⟨r.name, place, r.systematics,
              r.writers.map Writer.toOutputSpec, index.tree.weight place.node⟩ := by
            simp only [Region.accept?, hplace, hunknown]
          have hknown : r.Known t := (h.accept?_isSome hplace).mp (by simp [haccept])
          refine hrest.bind ?_
          rintro ⟨accepted, skipped⟩ ⟨rfl, hall⟩
          refine ⟨by simp [haccept], fun hpolicy => ?_⟩
          exact List.forall_mem_cons.mpr ⟨hknown, hall hpolicy⟩
      | some e =>
          have haccept : r.accept? index = none := by
            simp only [Region.accept?, hplace, hunknown]
          obtain ⟨variation, hs, hmem, rfl⟩ := unknownSystematic?_eq_some hunknown
          rw [h.mem_known hplace] at hmem
          cases policy with
          | fail => exact ⟨rfl, r, List.mem_cons_self, variation, hs, hmem, by rw [hpath]⟩
          | skipRegion =>
              refine hrest.bind ?_
              rintro ⟨accepted, skipped⟩ ⟨rfl, -⟩
              exact ⟨by simp [haccept], fun hpolicy => by cases hpolicy⟩

end Checks

theorem AcceptedRegion.checkColumns_meets (a : AcceptedRegion) :
    Meets a.checkColumns (fun _ => True) fun e =>
      ∃ s ∈ a.systematics, ∃ spec ∈ a.outputs, ∃ column ∈ spec.columns ++ (a.weightOf spec).toList,
        a.place.scope.lookup column = none ∧
          e = .unresolved column (a.name ++ "/" ++ spec.name) s a.place.path := by
  refine Meets.forM fun s hs => Meets.forM fun spec hspec => Meets.forM fun column hcolumn => ?_
  split
  · trivial
  · rename_i hnone
    rw [Option.not_isSome_iff_eq_none] at hnone
    exact ⟨s, hs, spec, hspec, column, hcolumn, hnone, rfl⟩

/-! ### The build -/

section Phases

variable {t : SelectionTree} {namer : Namer} {options : BuildOptions} {regions : List (Region ω)}
  {e : BuildError}

theorem Requested.mono {index : ScopeIndex} {more : List (Region ω)} (h : regions ⊆ more)
    {name : String} {s : Systematic} (hrequested : Requested t index regions name s) :
    Requested t index more name s := by
  obtain ⟨r, hr, hknown, hreads⟩ := hrequested
  exact ⟨r, h hr, hknown, hreads⟩

theorem Refusal.of_perm {more : List (Region ω)} (h : Refusal t namer options regions e)
    (hperm : regions.Perm more) : Refusal t namer options more e := by
  cases h with
  | cost hcost => exact .cost hcost
  | regionName hr hname => exact .regionName (hperm.subset hr) hname
  | duplicate hcount => exact .duplicate ((hperm.map Region.name).count_eq _ ▸ hcount)
  | target hr htarget => exact .target (hperm.subset hr) htarget
  | misread hmisread => exact .misread hmisread
  | variation hvaries herror => exact .variation hvaries herror
  | logical hv herror => exact .logical hv herror
  | unknown hpolicy hr hs hunknown => exact .unknown hpolicy (hperm.subset hr) hs hunknown
  | invisible hr hknown hs hw hcolumn hunseen =>
      exact .invisible (hperm.subset hr) hknown hs hw hcolumn hunseen
  | dataset hnames hindex hrequested hreads =>
      exact .dataset hnames hindex (hrequested.mono hperm.subset) hreads
  | computed hnames hindex hrequested hrequested' hname hdiffer =>
      exact .computed hnames hindex (hrequested.mono hperm.subset) (hrequested'.mono hperm.subset)
        hname hdiffer

theorem checkRegions_refusal :
    Meets (checkRegions t [] regions) (fun _ => True) (Refusal t namer options regions) := by
  refine checkRegions_meets.excused ?_
  rintro e (⟨r, hr, hname, rfl⟩ | ⟨name, hcount, rfl⟩ | ⟨r, hr, htarget, rfl⟩)
  · exact .regionName hr hname
  · exact .duplicate hcount
  · exact .target hr htarget

theorem lt_size_of_checkRegions (h : checkRegions t [] regions = .ok ()) :
    ∀ r ∈ regions, r.target.index < t.size := by
  intro r hr
  have htarget := ((checkRegions_eq_ok.mp h).1 r hr).2.1
  simp only [SelectionTree.contains, Bool.and_eq_true, decide_eq_true_eq] at htarget
  exact htarget.2

variable {index : ScopeIndex} (hindex : ScopeIndex.build t = .ok index)
  (hlaw : ScopeIndex.Lawful t index) (htargets : ∀ r ∈ regions, r.target.index < t.size)
include hlaw htargets

theorem accepted_known {a : AcceptedRegion}
    (ha : a ∈ regions.filterMap (Region.accept? index)) :
    ∃ r ∈ regions, r.accept? index = some a ∧ r.Known t := by
  obtain ⟨r, hr, haccept⟩ := List.mem_filterMap.mp ha
  obtain ⟨place, hplace⟩ := hlaw.exists_place (htargets r hr)
  exact ⟨r, hr, haccept, (hlaw.accept?_isSome hplace).mp (by simp [haccept])⟩

theorem checkColumns_refusal :
    Meets ((regions.filterMap (Region.accept? index)).forM AcceptedRegion.checkColumns)
      (fun _ => True) (Refusal t namer options regions) := by
  refine Meets.forM fun a ha => a.checkColumns_meets.excused ?_
  rintro e ⟨s, hs, spec, hspec, column, hcolumn, hnone, rfl⟩
  obtain ⟨r, hr, haccept, hknown⟩ := accepted_known hlaw htargets ha
  obtain ⟨hplace, hname, hsys, houtputs, hweight⟩ := Region.accept?_eq_some haccept
  obtain ⟨_, _, hext⟩ := hlaw.extends_of_place hplace
  rw [houtputs] at hspec
  obtain ⟨w, hw, rfl⟩ := List.mem_map.mp hspec
  rw [AcceptedRegion.weightOf, hweight, hext.node_eq, hlaw.tree_eq] at hcolumn
  rw [Scope.lookup_eq_none, hlaw.scope_declared hplace] at hnone
  rw [hname, hext.path_eq]
  exact .invisible hr hknown (hsys ▸ hs) hw hcolumn hnone

omit htargets in
theorem ScopeIndex.Lawful.visible_of_valid {r : Region ω} {a : AcceptedRegion}
    (haccept : r.accept? index = some a) (hvalid : a.Valid index)
    (hnominal : .nominal ∈ r.systematics) : ∀ w ∈ r.writers,
      ∀ column ∈ w.columns ++ (w.weight.or (t.weight r.target.index)).toList,
        column ∈ (t.visible r.target.index).map Variable.name := by
  intro w hw column hcolumn
  obtain ⟨hplace, -, hsys, houtputs, hweight⟩ := Region.accept?_eq_some haccept
  have hspec : w.toOutputSpec ∈ a.outputs := houtputs ▸ List.mem_map_of_mem hw
  rw [← (hlaw.place_lt hplace).1, ← hlaw.tree_eq, ← hweight] at hcolumn
  obtain ⟨c, hc⟩ := hvalid.visible _ (hsys ▸ hnominal) _ hspec column hcolumn
  rw [← hlaw.scope_declared hplace]
  exact Scope.lookup_isSome.mp (Option.isSome_iff_exists.mpr ⟨c, hc⟩)

include hindex

theorem planAll_refusal (hnames : namer.AcceptsNames t)
    (hvalid : ∀ a ∈ regions.filterMap (Region.accept? index), a.Valid index) :
    Meets (Builder.planAll ⟨index, namer, options.defaultCost⟩
      (regions.filterMap (Region.accept? index))) (fun _ => True)
      (Refusal t namer options regions) := by
  have hrequested (c : Column) (older : Scope) (s : Systematic) (hdecl : index.Declares c older)
      (hdemand : (⟨index, namer, options.defaultCost⟩ : Planner).Demands
        (regions.filterMap (Region.accept? index)) c.ref s) :
      Requested t index regions c.name s :=
    (ScopeIndex.Lawful.requested_iff (p := ⟨index, namer, options.defaultCost⟩) hlaw
      htargets).mpr ⟨c, older, hdecl, hdemand, rfl⟩
  refine ((Builder.planAll_meets hlaw (fun a ha => (hvalid a ha).place_eq)
    (Planner.planAll_meets hlaw (fun _ _ h => h) hvalid)).excused ?_).mono fun _ _ => trivial
  intro e hclash
  cases hclash with
  | dataset hdecl hdemand hclaimed =>
      exact .dataset hnames hindex (hrequested _ _ _ hdecl hdemand) (hlaw.reads_of_claimed hclaimed)
  | computed hdecl hdemand hdecl' hdemand' hname hdiffer =>
      exact .computed hnames hindex (hrequested _ _ _ hdecl hdemand)
        (hrequested _ _ _ hdecl' hdemand') hname hdiffer

end Phases

namespace ActionGraph

variable {t : SelectionTree} {namer : Namer} {options : BuildOptions} {regions : List (Region ω)}
  {g : ActionGraph}

/-- Whatever the error of a build is, it has its reason in the request. -/
theorem build_meets (ht : t.Reachable) :
    Meets (build t namer options regions) (fun _ => True) (Refusal t namer options regions) := by
  let sorted := sortStable (fun a b => decide (a.name < b.name)) regions
  have hperm : sorted.Perm regions := perm_sortStable regions
  refine Meets.excused ?_ fun e he => Refusal.of_perm he hperm
  by_cases hcost : Variable.isCost options.defaultCost = true
  case neg =>
    simp only [build, hcost, Bool.not_false, if_true]
    exact .cost hcost
  simp only [build, hcost, Bool.not_true, Bool.false_eq_true, if_false]
  refine checkRegions_refusal.named.bind ?_
  rintro ⟨⟩ ⟨hregions, -⟩
  have htargets := lt_size_of_checkRegions hregions
  refine ((ScopeIndex.build_meets ht.wellFormed).named.excused fun e he => .misread he).bind ?_
  rintro index ⟨hindex, -⟩
  have hlaw := ScopeIndex.lawful_of_build ht.wellFormed hindex
  split
  · rename_i e hnames
    rcases hlaw.checkNames_meets.of_eq_error hnames with
      ⟨s, hvaries, herror⟩ | ⟨node, v, hv, herror⟩
    · exact .variation hvaries herror
    · exact .logical hv herror
  · rename_i hchecked
    have hnames := hlaw.checkNames_eq_ok.mp hchecked
    refine ((hlaw.acceptRegions_meets htargets _).excused ?_).bind ?_
    · rintro e ⟨hpolicy, r, hr, variation, hs, hunknown, rfl⟩
      exact .unknown hpolicy hr hs hunknown
    · rintro ⟨accepted, skipped⟩ ⟨rfl, -⟩
      refine (checkColumns_refusal hlaw htargets).named.bind ?_
      rintro ⟨⟩ ⟨hcolumns, -⟩
      have hvalid := accepted_valid hlaw rfl hcolumns
      exact (planAll_refusal hindex hlaw htargets hnames hvalid).bind fun _ _ => trivial

theorem Built.apart {p : Planner} {accepted : List AcceptedRegion} {d : Draft}
    (h : Built t p accepted d g) (haccepted : accepted = regions.filterMap (Region.accept? p.index))
    (htargets : ∀ r ∈ regions, r.target.index < t.size) {name : String} {e : Systematic}
    (hrequested : Requested t p.index regions name e) :
    (∀ reader, ¬ t.ReadsDataset reader (p.namer.physical name e)) ∧
      ∀ name' e', Requested t p.index regions name' e' →
        p.namer.physical name' e' = p.namer.physical name e → name' = name ∧ e' = e := by
  have hclean := h.sound.clean h.lawful
  have hcomputes {name : String} {e : Systematic}
      (hrequested : Requested t p.index regions name e) :
      ∃ c older, p.index.Declares c older ∧ d.Computes c.ref e ∧ c.name = name := by
    obtain ⟨c, older, hdecl, hdemand, hname⟩ := (h.lawful.requested_iff htargets).mp hrequested
    exact ⟨c, older, hdecl, h.computes (haccepted ▸ hdemand), hname⟩
  obtain ⟨c, older, hdecl, hc, rfl⟩ := hcomputes hrequested
  obtain ⟨hfree, hunique⟩ := hclean c older e hdecl hc
  refine ⟨h.lawful.unclaimed_iff.mp hfree, fun name' e' hrequested' hname => ?_⟩
  obtain ⟨c', older', hdecl', hc', rfl⟩ := hcomputes hrequested'
  exact hunique c' older' e' hdecl' hc' hname

/-- What is built was requested properly. -/
theorem plannable_of_build (ht : t.Reachable) (hregions : ∀ r ∈ regions, r.Reachable)
    (h : build t namer options regions = .ok g) : Plannable t namer options regions := by
  obtain ⟨p, accepted, d, hindex, rfl, -, haccepted, -, hb⟩ := built_of_build ht h
  obtain ⟨hcost, hcheck, index, accepted', skipped, _, _, hindex', hnames, haccept, -⟩ :=
    build_eq_ok.mp h
  rw [hindex, Except.ok.injEq] at hindex'
  subst hindex'
  have hlaw := hb.lawful
  have hchecked := (checkRegions_eq_ok.mp hcheck).1
  have htargets := lt_size_of_checkRegions hcheck
  have hregion {r : Region ω} (hr : r ∈ regions) :
      r ∈ sortStable (fun a b => decide (a.name < b.name)) regions := mem_sortStable.mpr hr
  constructor
  case cost => exact Variable.isCost_iff.mp hcost
  case regionName => exact fun r hr => isRegionName_iff.mp (hchecked r (hregion hr)).1
  case regionNames => exact names_of_build h
  case target => exact fun r hr => (hchecked r (hregion hr)).2.1
  case readable => exact hlaw.readable
  case names => exact hlaw.checkNames_eq_ok.mp hnames
  case known =>
    intro hpolicy r hr
    have hall := ((hlaw.acceptRegions_meets htargets _).of_eq_ok haccept).2
    exact hall hpolicy r (hregion hr)
  case visible =>
    intro r hr hknown
    obtain ⟨place, hplace⟩ := hlaw.exists_place (htargets r (hregion hr))
    obtain ⟨a, ha⟩ := Option.isSome_iff_exists.mp ((hlaw.accept?_isSome hplace).mpr hknown)
    have hmem : a ∈ accepted := haccepted ▸ List.mem_filterMap.mpr ⟨r, hregion hr, ha⟩
    exact hlaw.visible_of_valid ha (hb.valid a hmem) (hregions r hr).systematics.2
  case apart =>
    intro index hindex' name e hrequested
    rw [hindex, Except.ok.injEq] at hindex'
    subst hindex'
    have hsorted {name : String} {e : Systematic} (h : Requested t p.index regions name e) :=
      h.mono fun r hr => hregion hr
    obtain ⟨hfree, hunique⟩ := hb.apart haccepted htargets (hsorted hrequested)
    exact ⟨hfree, fun name' e' hrequested' => hunique name' e' (hsorted hrequested')⟩

/-- Planning succeeds exactly on well-formed requests.  Otherwise its error gives a reason in the
request, which is never that a step lacks what the steps before it should have made. -/
theorem builds_iff_plannable (ht : t.Reachable) (hregions : ∀ r ∈ regions, r.Reachable) :
    ((∃ g, build t namer options regions = .ok g) ↔ Plannable t namer options regions) ∧
      ∀ e, build t namer options regions = .error e →
        Refusal t namer options regions e ∧ ¬ e.IsDefensive := by
  have hmeets : Meets (build t namer options regions) (fun _ => True)
      (Refusal t namer options regions) := build_meets ht
  refine ⟨⟨?_, ?_⟩, ?_⟩
  · rintro ⟨g, hg⟩
    exact plannable_of_build ht hregions hg
  · intro hplannable
    obtain ⟨g, hg, -⟩ := hmeets.exists_ok hplannable.not_refusal
    exact ⟨g, hg⟩
  · intro e he
    have hrefusal := hmeets.of_eq_error he
    exact ⟨hrefusal, hrefusal.not_isDefensive⟩

/-- The sample is well formed, and with one of its regions doubled it is refused. -/
theorem builds_iff_plannable_sample : Plannable Sample.tree Sample.namer {} Sample.regions ∧
    ∃ e, build Sample.tree Sample.namer {} (Sample.control :: Sample.regions) = .error e ∧
      Refusal Sample.tree Sample.namer {} (Sample.control :: Sample.regions) e := by
  have hmore : ∀ r ∈ Sample.control :: Sample.regions, r.Reachable :=
    List.forall_mem_cons.mpr ⟨Sample.regions_reachable _ (by simp [Sample.regions]),
      Sample.regions_reachable⟩
  have hdoubled : (build Sample.tree Sample.namer {} (Sample.control :: Sample.regions)).isOk =
      false := by decide
  refine ⟨(builds_iff_plannable Sample.tree_reachable Sample.regions_reachable).1.mp
    Sample.exists_build, ?_⟩
  cases hbuild : build Sample.tree Sample.namer {} (Sample.control :: Sample.regions) with
  | ok g =>
      rw [hbuild] at hdoubled
      cases hdoubled
  | error e => exact ⟨e, rfl, ((builds_iff_plannable Sample.tree_reachable hmore).2 e hbuild).1⟩

end ActionGraph
end SelectionPlan
