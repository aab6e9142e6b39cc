import SelectionPlan.Proofs.Graph.Columns
import SelectionPlan.Proofs.Execution.Orderly
import SelectionPlan.Proofs.Meaning.Frames

/-!
# Columns that hide columns of the dataset

A graph defines exactly the physical columns of what is requested.  A frame over a table in memory
has the columns that are defined on its lineage, and these hide columns of the table.  No variable
is misled by that, since the columns that variables read are claimed for the dataset; those that
filters read are not.
-/

namespace SelectionPlan

def SelectionTree.FiltersDataset (t : SelectionTree) (column : String) : Prop :=
  ∃ node ∈ t.nodes, ∃ v, node.filter = some v ∧ .branch column ∈ v.specs

section Defined

variable {ω : Type} {t : SelectionTree} {namer : Namer} {options : BuildOptions}
  {regions : List (Region ω)} {g : ActionGraph} {index : ScopeIndex}

theorem ActionGraph.mem_definedColumns_iff (ht : t.Reachable)
    (h : build t namer options regions = .ok g) (hindex : ScopeIndex.build t = .ok index)
    {column : String} : column ∈ definedColumns g.actions ↔
      ∃ name e, Requested t index regions name e ∧ namer.physical name e = column := by
  obtain ⟨p, accepted, d, hindex', rfl, -, haccepted, hplans, hb⟩ := built_of_build ht h
  rw [hindex, Except.ok.injEq] at hindex'
  subst hindex'
  let sorted := sortStable (fun a b => decide (a.name < b.name)) regions
  have htargets : ∀ r ∈ sorted, r.target.index < t.size := by
    obtain ⟨-, hregions, -⟩ := build_eq_ok.mp h
    exact lt_size_of_checkRegions hregions
  have hrequested {name : String} {e : Systematic} : Requested t p.index regions name e ↔
      ∃ c older, p.index.Declares c older ∧ p.Demands accepted c.ref e ∧ c.name = name := by
    rw [haccepted, ← hb.lawful.requested_iff htargets]
    exact ⟨Requested.mono fun r hr => mem_sortStable.mpr hr,
      Requested.mono fun r hr => mem_sortStable.mp hr⟩
  rw [hb.definedColumns_eq, definedColumns, List.mem_filterMap]
  constructor
  · rintro ⟨a, ha, hdefined⟩
    have hsound := ((Planner.planAll_meets (G := p.Demands accepted) hb.lawful (fun _ _ h => h)
      hb.valid).of_eq_ok hplans).1
    have hmem := ha
    cases hsound.made a ha with
    | @define c older s id tip hdecl =>
        cases hdefined
        have hdemand := hsound.allowed _ hmem c.ref s rfl
        exact ⟨c.name, s, hrequested.mpr ⟨c, older, hdecl, hdemand, rfl⟩, rfl⟩
    | _ => cases hdefined
  · rintro ⟨name, e, hreq, rfl⟩
    obtain ⟨c, older, hdecl, hdemand, rfl⟩ := hrequested.mp hreq
    obtain ⟨a, ha, htask⟩ := hb.computes hdemand
    refine ⟨a, ha, ?_⟩
    cases hb.sound.made a ha with
    | @define c' older' s' id tip hdecl' =>
        simp only [Planner.defineAction_task, Option.some.injEq, Task.define.injEq] at htask
        obtain ⟨href, rfl⟩ := htask
        obtain ⟨rfl, -⟩ := hb.lawful.eq_of_ref hdecl' hdecl href
        rfl
    | _ => simp at htask

end Defined

/-! ### Columns of a frame -/

section Frames

variable {table : EventTable} {a : Action} {made : Built Frame} {data : FrameData}

private theorem defined_of_constructCall {parent : Option Frame}
    (hcall : table.backend.constructCall a parent = .ok made)
    (hdata : made.handle.evaluate table = .ok data) :
    (a.operation = .source ∧ data.defined = []) ∨
      ∃ frame before, parent = some frame ∧ frame.evaluate table = .ok before ∧ ∀ column,
        (lookupKey column data.defined).isSome ↔
          a.operation.defined? = some column ∨ (lookupKey column before.defined).isSome := by
  cases hop : a.operation with
  | source =>
      simp only [Backend.constructCall, hop] at hcall
      cases hcall
      cases hdata
      exact .inl ⟨rfl, rfl⟩
  | filter predicate =>
      cases parent with
      | none => simp [Backend.constructCall, hop] at hcall
      | some frame =>
          simp only [Backend.constructCall, hop] at hcall
          cases hcall
          obtain ⟨before, hbefore, hdata⟩ := bind_eq_ok.mp hdata
          obtain ⟨inputs, -, hdata⟩ := bind_eq_ok.mp hdata
          cases hdata
          exact .inr ⟨frame, before, rfl, hbefore, by simp [Operation.defined?]⟩
  | define slot name logical definition =>
      cases parent with
      | none => simp [Backend.constructCall, hop] at hcall
      | some frame =>
          simp only [Backend.constructCall, hop, EventTable.backend] at hcall
          split at hcall
          · cases hcall
          · cases hcall
            obtain ⟨before, hbefore, hdata⟩ := bind_eq_ok.mp hdata
            obtain ⟨inputs, -, hdata⟩ := bind_eq_ok.mp hdata
            cases hdata
            refine .inr ⟨frame, before, rfl, hbefore, fun column => ?_⟩
            simp only [lookupKey_insertKey, Operation.defined?, Option.some.injEq]
            split <;> simp_all
  | output =>
      cases parent with
      | none => simp [Backend.constructCall, hop] at hcall
      | some frame =>
          simp only [Backend.constructCall, hop] at hcall
          cases hcall
          exact .inr ⟨frame, data, rfl, hdata, by simp [Operation.defined?]⟩
  | statistics =>
      cases parent with
      | none => simp [Backend.constructCall, hop] at hcall
      | some frame =>
          simp only [Backend.constructCall, hop] at hcall
          cases hcall
          exact .inr ⟨frame, data, rfl, hdata, by simp [Operation.defined?]⟩

theorem Linked.lookup_defined_iff {actions : List Action} (h : Linked actions)
    (hsource : ∀ a ∈ actions, a.operation = .source → a.input = none) {id : Nat}
    (ha : actions[id]? = some a)
    (hmade : table.backend.constructAlong (lineage actions id) = .ok (some made))
    (hdata : made.handle.evaluate table = .ok data) (column : String) :
    (lookupKey column data.defined).isSome ↔ column ∈ definedColumns (lineage actions id) := by
  induction id, a, ha using h.induction generalizing made data with
  | start id a ha hinput =>
      rw [h.lineage_eq ha, hinput, Option.elim_none] at hmade ⊢
      obtain ⟨parent, built, hparent, hcall, hbuilt⟩ := Backend.constructAlong_cons_eq_ok.mp hmade
      cases hbuilt
      cases hparent
      rcases defined_of_constructCall hcall hdata with ⟨hop, hempty⟩ | ⟨frame, -, hframe, -⟩
      · simp [hempty, lookupKey, definedColumns, hop, Operation.defined?]
      · cases hframe
  | step id a input c ha hinput hc ih =>
      rw [h.lineage_eq ha, hinput, Option.elim_some] at hmade ⊢
      obtain ⟨parent, built, hparent, hcall, hbuilt⟩ := Backend.constructAlong_cons_eq_ok.mp hmade
      cases hbuilt
      rcases defined_of_constructCall hcall hdata with
        ⟨hop, -⟩ | ⟨frame, before, hframe, hbefore, hadd⟩
      · rw [hsource a (List.mem_of_getElem? ha) hop] at hinput
        cases hinput
      · obtain ⟨below, rfl, rfl⟩ := Option.map_eq_some_iff.mp hframe
        rw [hadd, ih hparent hbefore, definedColumns, definedColumns, List.mem_filterMap,
          List.mem_filterMap, List.exists_mem_cons_iff]

/-- A column of a frame is the one defined on the way, and otherwise that of the table. -/
theorem FrameData.column_of_lookup_none {column : String}
    (h : ¬ (lookupKey column data.defined).isSome) : data.column table column =
      (table.column? column).elim (.error (.missingColumn column)) .ok := by
  rw [Option.not_isSome_iff_eq_none] at h
  rw [FrameData.column, h, Option.none_or]
  cases table.column? column <;> rfl

end Frames

/-! ### What is read as it is -/

section Reads

variable {ω : Type} {t : SelectionTree} {namer : Namer} {options : BuildOptions}
  {regions : List (Region ω)} {s : Schedule ω}

/-- No defined column is one that a variable or a filter reads from the dataset. -/
def ActionGraph.Unshadowed (t : SelectionTree) (g : ActionGraph) : Prop :=
  ∀ column ∈ definedColumns g.actions,
    (∀ reader, ¬ t.ReadsDataset reader column) ∧ ¬ t.FiltersDataset column

/-- What variables read as it is comes from the table in every frame of an execution, since no graph
defines it.  What filters read as it is comes from the table exactly as long as no column of that
name is requested and defined on the way. -/
theorem Schedule.dataset_reads (ht : t.Reachable)
    (hs : Schedule.build t namer options regions = .ok s) :
    ∃ index, ScopeIndex.build t = .ok index ∧
      (∀ reader column, t.ReadsDataset reader column → column ∉ definedColumns s.graph.actions) ∧
      (s.graph.Unshadowed t ↔ ∀ column, t.FiltersDataset column → ∀ name e,
        Requested t index regions name e → namer.physical name e ≠ column) ∧
      ∀ (table : EventTable) (x : Execution Frame ω), Execution.Reached s table.backend x →
        ∀ id < s.graph.size, ∀ made data, x.builtOf id = some (.ok made) →
          made.handle.evaluate table = .ok data → ∀ column,
            ((lookupKey column data.defined).isSome ↔
              column ∈ definedColumns (lineage s.graph.actions id)) ∧
            ((∃ reader, t.ReadsDataset reader column) → data.column table column =
              (table.column? column).elim (.error (.missingColumn column)) .ok) := by
  obtain ⟨hgraph, -⟩ := graph_of_build hs
  obtain ⟨p, accepted, d, hindex, -, hb, hd, -⟩ := ActionGraph.planned_of_build ht hgraph
  have hfresh := (hb.unambiguous hd).fresh
  have hlinear := hb.linear hd
  have hlinked := hb.chained.toLinked
  have hsource : ∀ a ∈ s.graph.actions, a.operation = .source → a.input = none :=
    fun a ha hop => (hlinear.input_none_iff a ha).mpr ((hlinear.source_iff a ha).mp hop)
  refine ⟨p.index, hindex, fun reader column hreads hdefined => ?_, ?_, ?_⟩
  · exact hfresh column hdefined reader hreads
  · constructor
    · rintro hunshadowed column hfilters name e hrequested rfl
      have hdefined := (ActionGraph.mem_definedColumns_iff ht hgraph hindex).mpr
        ⟨name, e, hrequested, rfl⟩
      exact (hunshadowed _ hdefined).2 hfilters
    · intro hapart column hdefined
      obtain ⟨name, e, hrequested, hname⟩ :=
        (ActionGraph.mem_definedColumns_iff ht hgraph hindex).mp hdefined
      exact ⟨hfresh column hdefined, fun hfilters => hapart column hfilters name e hrequested hname⟩
  · intro table x hx id hid made data hmade hdata column
    have ha := List.getElem?_eq_getElem hid
    have hsettled := hx.settled ht hs
    obtain ⟨r, hr, halong⟩ := hsettled.built id _ ha
    rw [hmade, Option.some.injEq] at hr
    subst hr
    rw [hsettled.backend, hsettled.schedule, rooted_ok] at halong
    have hiff := hlinked.lookup_defined_iff hsource ha halong hdata column
    refine ⟨hiff, fun ⟨reader, hreads⟩ => FrameData.column_of_lookup_none fun hsome => ?_⟩
    have hline := hiff.mp hsome
    obtain ⟨a, hmem, hdefined⟩ := List.mem_filterMap.mp hline
    have hget := (hlinked.lineage_suffix ha hmem).1
    exact hfresh column (List.mem_filterMap.mpr ⟨a, List.mem_of_getElem? hget, hdefined⟩) reader
      hreads

end Reads

namespace Sample

/-- The sample with a node below the hard events that selects by a dataset column which is called
like the score. -/
def reread : SelectionTree :=
  { tree with nodes := tree.nodes ++
      [{ name := "again", attachment := some ⟨1, .ofBranch "again" "score"⟩, label := none }] }

theorem reread_reachable : reread.Reachable :=
  @SelectionTree.Reachable.addChild _ reread ⟨0, 1⟩ ⟨0, 2⟩ "again" (.ofBranch "again" "score") none
    tree_reachable rfl

def again : Region Nat := (Region.new "again" ⟨0, 2⟩).addWriter keep

theorem exists_build_reread :
    ∃ s, Schedule.build reread namer {} [again] = .ok s :=
  exists_ok_of_isOk (by decide)

end Sample

/-- A filter that reads `score` from the dataset is planned behind the definition of a column that
is called so, and gets its values from there, though the dataset has no such column. -/
theorem Schedule.filter_shadowed : ∃ s : Schedule Nat,
    Schedule.build Sample.reread Sample.namer {} [Sample.again] = .ok s ∧
      ¬ s.graph.Unshadowed Sample.reread ∧ Sample.table.column? "score" = none ∧
      ((Execution.construct s Sample.table.backend 0).realize 3).1.isOk = true := by
  obtain ⟨s, hs⟩ := Sample.exists_build_reread
  have hrun : ∀ s ∈ (Schedule.build Sample.reread Sample.namer {} [Sample.again]).toOption,
      "score" ∈ definedColumns s.graph.actions ∧
        ((Execution.construct s Sample.table.backend 0).realize 3).1.isOk = true := by decide
  obtain ⟨hdefined, hrealized⟩ := hrun s (by rw [hs]; rfl)
  refine ⟨s, hs, fun hunshadowed => (hunshadowed _ hdefined).2 ?_, rfl, hrealized⟩
  exact ⟨_, List.mem_append_right _ (List.mem_singleton.mpr rfl), _, rfl, List.mem_cons_self⟩

/-- The variable `pt` is not misled where the filter is. -/
theorem Schedule.dataset_reads_sample : ∃ s : Schedule Nat,
    Schedule.build Sample.reread Sample.namer {} [Sample.again] = .ok s ∧
      Sample.reread.ReadsDataset "pt" "pt" ∧ "pt" ∉ definedColumns s.graph.actions := by
  obtain ⟨s, hs⟩ := Sample.exists_build_reread
  obtain ⟨index, -, hfresh, -⟩ := Schedule.dataset_reads Sample.reread_reachable hs
  have hreads : Sample.reread.ReadsDataset "pt" "pt" :=
    ⟨0, Sample.pt, List.mem_cons_self, rfl, List.mem_cons_self⟩
  exact ⟨s, hs, hreads, hfresh "pt" "pt" hreads⟩

end SelectionPlan
