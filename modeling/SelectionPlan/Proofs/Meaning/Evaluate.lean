import SelectionPlan.Proofs.Meaning.Frames

/-!
# Evaluating the frames of a graph

Over a table that suits a graph every frame can be evaluated, and shows what its lineage means.
-/

namespace SelectionPlan

variable {p : Planner} {t : SelectionTree} {table : EventTable} {scope : Scope}
  {accepted : List AcceptedRegion} {G : ColumnRef → Systematic → Prop} {d : Draft}
  {line : List Action} {data : FrameData} {s : Systematic} {i : Nat} {q : Place}

theorem Shows.source {actions : List Action} (hlaw : ScopeIndex.Lawful t p.index) {place : Place}
    (hplace : p.index.place? 0 = some place) (id : Nat) :
    Shows p t table actions scope ([Planner.sourceAction id place].filterMap Action.task)
      ⟨List.range table.rows, []⟩ where
  rows := by
    obtain ⟨node, hnode, hroot⟩ := hlaw.wellFormed.root
    have hkeeps (row : Nat) : t.passes table .nominal row 0 = true := by
      simp [SelectionTree.passes, hnode, Node.filter, hroot]
    simp [Task.keeps, (hlaw.place_lt hplace).1, hkeeps]
  columns := by simp
  defined := by simp [lookupKey]

section Push

variable (hlaw : ScopeIndex.Lawful t p.index) (htable : table.Suits t d.actions)
  (h : Shows p t table d.actions scope (line.filterMap Action.task) data)
  (hq : p.index.place? i = some q) (hscope : scope <:+ q.scope)
include hlaw htable h hq hscope

theorem Shows.filter {place : Place} {v : Variable} (id tip : Nat)
    (hplace : p.index.place? place.node = some place) (hfilter : place.filter = some v)
    (hreader : place.scope <:+ scope) (hcovered : Covered line place.scope s (v.spec s).inputs) :
    ∃ data', data.filter table ((v.spec s).define (place.scope.carrier p.namer s)) = .ok data' ∧
      Shows p t table d.actions scope
        ((p.filterAction id tip line place v s :: line).filterMap Action.task) data' := by
  obtain ⟨_, _, hext⟩ := hlaw.extends_of_place hplace
  obtain ⟨node, hnode, -, -, hnodefilter, -⟩ := hext.declaration
  have hv : node.filter = some v := hnodefilter ▸ hfilter
  have hdataset : ∀ column, v.spec s = .branch column → column ∈ t.datasetColumns := by
    intro column hspec
    exact SelectionTree.mem_datasetColumns (List.mem_of_getElem? hnode) (by simp [hv])
      (hspec ▸ v.spec_mem s)
  obtain ⟨inputs, hinputs, hvalue⟩ :=
    h.define_value hlaw htable hq hscope hreader hcovered hdataset
  refine ⟨_, bind_eq_ok.mpr ⟨inputs, hinputs, rfl⟩, ?_, ?_, ?_⟩
  · have hpasses (row : Nat) (hrow : row ∈ data.rows) :
        truthy (FrameData.valueAt ((v.spec s).define (place.scope.carrier p.namer s)) inputs row) =
          t.passes table s row place.node := by
      simp only [SelectionTree.passes, hnode, Option.bind_some, hv, hvalue row hrow,
        hlaw.scope_declared hplace]
    simp only [List.filterMap_cons, Planner.filterAction_task, List.all_cons, Task.keeps]
    rw [List.filter_congr hpasses, h.rows, List.filter_filter]
  · intro c older e hc hmem
    have hmem : .define c.ref e ∈ line.filterMap Action.task := by simpa using hmem
    obtain ⟨values, hvalues, hrows⟩ := h.columns c older e hc hmem
    exact ⟨values, hvalues, fun row hrow => hrows row (List.mem_of_mem_filter hrow)⟩
  · exact h.defined

theorem Shows.define {c : Column} {older : Scope} {id tip : Nat} (hc : c :: older <:+ scope)
    (heffective : c.effective s = s) (hcomputed : c.isComputed s = true)
    (hmem : p.defineAction id tip line c older s ∈ d.actions)
    (hcovered : Covered line older s (c.declared.spec s).inputs)
    (hfresh : ∀ c' older' e, c' :: older' <:+ scope →
      .define c'.ref e ∈ line.filterMap Action.task →
      p.namer.physical c'.name e ≠ p.namer.physical c.name s) :
    ∃ data', data.define table (p.namer.physical c.name s)
        ((c.declared.spec s).define (older.carrier p.namer s)) = .ok data' ∧
      Shows p t table d.actions scope
        ((p.defineAction id tip line c older s :: line).filterMap Action.task) data' := by
  have hdataset : ∀ column, c.declared.spec s = .branch column → column ∈ t.datasetColumns := by
    intro column hspec
    rw [Column.isComputed, Column.specUnder, heffective, hspec] at hcomputed
    cases hcomputed
  obtain ⟨inputs, hinputs, hvalue⟩ :=
    h.define_value hlaw htable hq hscope ((List.suffix_cons c older).trans hc) hcovered hdataset
  refine ⟨_, bind_eq_ok.mpr ⟨inputs, hinputs, rfl⟩, ?_, ?_, ?_⟩
  · simp only [List.filterMap_cons, Planner.defineAction_task, List.all_cons, Task.keeps,
      Bool.true_and, h.rows]
  · intro c' older' e hc' hmem'
    simp only [List.filterMap_cons, Planner.defineAction_task, List.mem_cons,
      Task.define.injEq] at hmem'
    simp only [lookupKey_insertKey]
    rcases hmem' with ⟨href, rfl⟩ | hmem'
    · have hdeclares {b : Column} {rest : Scope} (hb : b :: rest <:+ scope) :
          p.index.Declares b rest := ⟨i, q, hq, hb.trans hscope⟩
      obtain ⟨rfl, rfl⟩ := hlaw.eq_of_ref (hdeclares hc') (hdeclares hc) href
      refine ⟨_, if_pos rfl, fun row hrow => ?_⟩
      have hlt : row < table.rows := by
        rw [h.rows] at hrow
        exact List.mem_range.mp (List.mem_of_mem_filter hrow)
      rw [List.getD_eq_getElem?_getD, List.getElem?_map, List.getElem?_range hlt, Option.map_some,
        Option.getD_some, if_pos hrow, hvalue row hrow]
    · rw [if_neg (hfresh c' older' e hc' hmem').symm]
      exact h.columns c' older' e hc' hmem'
  · intro column hsome
    rw [lookupKey_insertKey] at hsome
    split at hsome
    · rename_i heq
      exact List.mem_filterMap.mpr ⟨_, hmem, congrArg some heq⟩
    · exact h.defined column hsome

end Push

/-- The frame at the end of a lineage can be evaluated, and shows what the lineage means. -/
def Evaluates (p : Planner) (t : SelectionTree) (table : EventTable) (actions : List Action)
    (scope : Scope) (line : List Action) : Prop :=
  ∃ frame counted data r, table.backend.constructAlong line = .ok (some (.frame frame counted)) ∧
    frame.evaluate table = .ok data ∧
    Shows p t table actions scope (line.filterMap Action.task) data ∧
    table.backend.realizeAlong line = .ok r

private theorem Evaluates.cons {actions : List Action} {a : Action} {frame frame' : Frame}
    {counted counted' : Bool} {data' : FrameData} {r : Option Realized}
    (hconstruct : table.backend.constructAlong line = .ok (some (.frame frame counted)))
    (hrealize : table.backend.realizeAlong line = .ok r)
    (hcall : table.backend.constructCall a (some frame) = .ok (.frame frame' counted'))
    (hevaluate : frame'.evaluate table = .ok data')
    (hshows : Shows p t table actions scope ((a :: line).filterMap Action.task) data') :
    Evaluates p t table actions scope (a :: line) := by
  have hpull : ∃ result, table.backend.pullCall (.frame frame' counted') = .ok result := by
    cases counted' with
    | true => exact ⟨.count data'.rows.length, by
        simp only [Backend.pullCall, EventTable.backend, Frame.count, hevaluate]; rfl⟩
    | false => exact ⟨.defined, rfl⟩
  obtain ⟨result, hresult⟩ := hpull
  refine ⟨frame', counted', data', some result,
    Backend.constructAlong_cons_eq_ok.mpr ⟨_, _, hconstruct, hcall, rfl⟩, hevaluate, hshows, ?_⟩
  rw [Backend.realizeAlong_cons_of_ok hrealize hconstruct]
  simp only [Option.map_some, Built.handle, hcall, hresult]

theorem Draft.Sound.physical_ne (h : d.Sound p accepted G) (hlaw : ScopeIndex.Lawful t p.index)
    (hq : p.index.place? i = some q) (hscope : scope <:+ q.scope) {c c' : Column}
    {older older' : Scope} {s e : Systematic} {id tip tip' : Nat} (hc : c :: older <:+ scope)
    (ha : p.defineAction id tip line c older s ∈ d.actions)
    (hfresh : .define c.ref s ∉ tasks d.actions tip') (hc' : c' :: older' <:+ scope)
    (hmem : .define c'.ref e ∈ tasks d.actions tip') (htip : ∃ b, d.actions[tip']? = some b) :
    p.namer.physical c'.name e ≠ p.namer.physical c.name s := by
  obtain ⟨b, hb, hbtask⟩ := mem_tasks.mp hmem
  obtain ⟨first, hfirst⟩ := htip
  have hbmem := List.mem_of_getElem? (h.lineage_suffix hfirst hb).1
  intro heq
  obtain ⟨-, hassigned⟩ := h.registered _ ha _ _ _ _ rfl
  cases h.made b hbmem with
  | @define c'' older'' s'' _ _ hdeclares =>
      simp only [Planner.defineAction_task, Option.some.injEq, Task.define.injEq] at hbtask
      obtain ⟨href, rfl⟩ := hbtask
      obtain ⟨rfl, rfl⟩ := hlaw.eq_of_ref hdeclares ⟨i, q, hq, hc'.trans hscope⟩ href
      obtain ⟨-, hassigned'⟩ := h.registered _ hbmem _ _ _ _ rfl
      rw [heq, hassigned] at hassigned'
      simp only [Option.some.injEq, Prod.mk.injEq] at hassigned'
      obtain ⟨hname, hsystematic⟩ := hassigned'
      have hresolved := (hlaw.resolved hq).suffix hscope
      obtain ⟨rfl, -⟩ := hresolved.eq_of_name hc hc' hname
      have hsame : s = s'' := hsystematic
      exact hfresh (hsame ▸ hmem)
  | _ => simp at hbtask

/-- Over a suitable table every frame whose lineage is visible from a place can be evaluated. -/
theorem Draft.Sound.evaluates (h : d.Sound p accepted G) (hlaw : ScopeIndex.Lawful t p.index)
    (htable : table.Suits t d.actions) (hq : p.index.place? i = some q)
    (hscope : scope <:+ q.scope) {id : Nat} {a : Action} (ha : d.actions[id]? = some a)
    (htask : a.task.isSome) (hvisible : Visible p.index scope (tasks d.actions id)) :
    Evaluates p t table d.actions scope (lineage d.actions id) := by
  induction id, a, ha using h.toLinked.induction with
  | start id a ha hinput =>
      have hline := h.lineage_eq ha
      rw [hinput, Option.elim_none] at hline
      rw [hline]
      cases h.made a (List.mem_of_getElem? ha) with
      | source hplace =>
          exact ⟨_, _, _, _, rfl, rfl, Shows.source hlaw hplace _, rfl⟩
      | _ => cases hinput
  | step id a input b ha hinput hb ih =>
      have hmem := List.mem_of_getElem? ha
      have hline := h.lineage_eq ha
      rw [hinput, Option.elim_some] at hline
      have hmade := h.made a hmem
      obtain ⟨b', hb', hbtask⟩ := hmade.input_frame hinput
      rw [hb, Option.some.injEq] at hb'
      subst hb'
      have htasks : tasks d.actions id = a.task.toList ++ tasks d.actions input := by
        rw [h.toLinked.tasks_eq ha, hinput, Option.elim_some]
      have hrest := hvisible.suffix (htasks ▸ List.suffix_append _ _)
      obtain ⟨frame, counted, data, r, hconstruct, hevaluate, hshows, hrealize⟩ := ih hbtask hrest
      rw [hline]
      cases hmade with
      | source => cases hinput
      | @define c older s number tip hdeclares heffective hcomputed _ hframe hfresh hcovered =>
          cases hinput
          obtain ⟨column, older', href, hsuffix⟩ := hvisible.column c.ref s (by simp [htasks])
          obtain ⟨rfl, rfl⟩ := hlaw.eq_of_ref hdeclares ⟨i, q, hq, hsuffix.trans hscope⟩ href.symm
          obtain ⟨data', hdata', hshows'⟩ := hshows.define hlaw htable hq hscope hsuffix heffective
            hcomputed hmem hcovered fun c' older' e hc' hmem' =>
              h.physical_ne hlaw hq hscope hsuffix hmem hfresh hc' hmem' ⟨b, hb⟩
          have hfree : table.column? (p.namer.physical c.name s) = none :=
            htable.lacks _ (List.mem_filterMap.mpr ⟨_, hmem, rfl⟩)
          have hcall : table.backend.constructCall
              (p.defineAction number input (lineage d.actions input) c older s) (some frame) =
                .ok (.frame (.define number frame (p.namer.physical c.name s)
                  ((c.declared.spec s).define (older.carrier p.namer s))) false) := by
            simp only [Backend.constructCall, Planner.defineAction, EventTable.backend, hfree]
            rfl
          refine Evaluates.cons hconstruct hrealize hcall ?_ hshows'
          rw [Frame.evaluate, hevaluate]
          exact hdata'
      | @filter place parent v chain number tip base hplace hfilter _ _ _ _ hs =>
          cases hinput
          obtain ⟨place', hplace', hreader⟩ := hvisible.filter place.node chain (by simp [htasks])
          rw [hplace, Option.some.injEq] at hplace'
          subst hplace'
          obtain ⟨data', hdata', hshows'⟩ := hshows.filter hlaw htable hq hscope number input
            hplace hfilter hreader hs.covered
          have hcall : table.backend.constructCall
              (p.filterAction number input (lineage d.actions input) place v chain) (some frame) =
                .ok (.frame (.filter number frame place.path
                  ((v.spec chain).define (place.scope.carrier p.namer chain))) true) := rfl
          refine Evaluates.cons hconstruct hrealize hcall ?_ hshows'
          rw [Frame.evaluate, hevaluate]
          exact hdata'
      | statistics => cases htask
      | output => cases htask

end SelectionPlan
