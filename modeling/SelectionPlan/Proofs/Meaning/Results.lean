import SelectionPlan.Proofs.Execution.Delivery
import SelectionPlan.Proofs.Graph.Consumer
import SelectionPlan.Proofs.Meaning.Evaluate

/-!
# Results of planned actions

Over a suitable table every action of a plan has a result, the one that the tree means.
-/

namespace SelectionPlan

variable {p : Planner} {t : SelectionTree} {table : EventTable} {scope : Scope}
  {accepted : List AcceptedRegion} {G : ColumnRef → Systematic → Prop} {d : Draft}
  {s e : Systematic} {i : Nat} {place : Place} {wanted : List String}

section Tasks

variable (hlaw : ScopeIndex.Lawful t p.index) (hp : p.index.place? i = some place)
include hlaw hp

theorem rows_selectionTasks (row : Nat) :
    (selectionTasks s (p.index.trail i)).all (Task.keeps t table row) =
      (t.path i).all (t.passes table s row) := by
  rw [Bool.eq_iff_iff, List.all_eq_true, List.all_eq_true]
  constructor
  · intro h m hm
    have hi := (hlaw.place_lt hp).2
    obtain ⟨q, hq⟩ := hlaw.exists_place
      (Nat.lt_of_le_of_lt (hlaw.wellFormed.le_of_mem_path hi hm) hi)
    have hmem : .select m (q.chainUnder s) ∈ selectionTasks s (p.index.trail i) :=
      mem_selectionTasks_select.mpr ⟨q, hlaw.mem_trail.mpr ⟨m, hm, hq⟩, (hlaw.place_lt hq).1, rfl⟩
    rw [← hlaw.passes_chainUnder hq]
    exact h _ hmem
  · intro h task htask
    cases task with
    | define => rfl
    | select node e =>
        obtain ⟨q, hq, rfl, rfl⟩ := mem_selectionTasks_select.mp htask
        obtain ⟨m, hm, hplace⟩ := hlaw.mem_trail.mp hq
        rw [Task.keeps, (hlaw.place_lt hplace).1, hlaw.passes_chainUnder hplace]
        exact h m hm

theorem selectedRows_chainUnder (s : Systematic) :
    t.selectedRows table (place.chainUnder s) i = t.selectedRows table s i := by
  refine List.filter_congr fun row _ => ?_
  rw [← rows_selectionTasks hlaw hp, ← rows_selectionTasks hlaw hp,
    hlaw.selectionTasks_chainUnder hp]

end Tasks

theorem all_extended {done : List Task} {needs : List (Column × Scope)} (row : Nat) :
    (extended e done needs).all (Task.keeps t table row) = done.all (Task.keeps t table row) := by
  rw [Bool.eq_iff_iff, List.all_eq_true, List.all_eq_true]
  constructor
  · exact fun h task htask => h task (mem_extended.mpr (.inl htask))
  · intro h task htask
    rcases mem_extended.mp htask with htask | ⟨need, -, rfl⟩
    · exact h task htask
    · rfl

section Materialize

variable (hlaw : ScopeIndex.Lawful t p.index) (hp : p.index.place? i = some place)
include hlaw hp

theorem Shows.materialize {line : List Action} {data : FrameData} {frame : Frame}
    (columns : List String) (weight : Option String) (htable : table.Suits t d.actions)
    (h : Shows p t table d.actions place.scope (line.filterMap Action.task) data)
    (hframe : frame.evaluate table = .ok data)
    (hcovered : Covered line place.scope s (columns ++ weight.toList)) :
    frame.materialize table
        ⟨columns.map fun c => (c, place.scope.carrier p.namer s c),
          weight.map (place.scope.carrier p.namer s)⟩ =
      .ok (.ofRows data.rows (fun name row => table.read s row (t.visible i) name) columns
        weight) := by
  have hread {name : String} (hname : name ∈ columns ++ weight.toList) :
      ∃ values, data.column table (place.scope.carrier p.namer s name) = .ok values ∧
        data.selected values = data.rows.map fun row => table.read s row (t.visible i) name := by
    obtain ⟨values, hvalues, hrows⟩ := h.carrier_column hlaw htable hp (List.suffix_refl _)
      (List.suffix_refl _) hcovered hname
    rw [hlaw.scope_declared hp] at hrows
    exact ⟨values, hvalues, List.map_congr_left hrows⟩
  have hcolumns : ∀ (names : List String) (result : List (String × List Float)),
      names ⊆ columns ++ weight.toList →
      (names.map fun c => (c, place.scope.carrier p.namer s c)).foldlM
        (fun columns (entry : String × String) => do
          let values ← data.column table entry.2
          return insertKey entry.1 (data.selected values) columns) result =
        .ok (names.foldl (fun result name => insertKey name
          (data.rows.map fun row => table.read s row (t.visible i) name) result) result) := by
    intro names
    induction names with
    | nil => exact fun _ _ => rfl
    | cons name names ih =>
        intro result hnames
        rw [List.cons_subset] at hnames
        obtain ⟨values, hvalues, hselected⟩ := hread hnames.1
        rw [List.map_cons, List.foldlM_cons, hvalues, List.foldl_cons, ← ih _ hnames.2, ← hselected]
        rfl
  rw [Frame.materialize, hframe, ok_bind]
  have hstart := hcolumns columns [] (List.subset_append_left _ _)
  refine (congrArg (· >>= _) hstart).trans ?_
  rw [ok_bind]
  cases weight with
  | none => rfl
  | some name =>
      have hname : name ∈ columns ++ (some name).toList := by simp
      obtain ⟨values, hvalues, hselected⟩ := hread hname
      simp only [Option.map_some, hvalues, ok_bind, hselected, weightSums_map]
      rfl

end Materialize

section Answers

variable (hd : d.Sound p accepted G) (hlaw : ScopeIndex.Lawful t p.index)
  (htable : table.Suits t d.actions)
include hd hlaw htable

/-- The frame that a reader is supplied with has the events of its node. -/
private theorem Supplied.evaluates (hp : p.index.place? i = some place) {base tip : Nat}
    (hs : Supplied p.index d.actions base tip i (place.chainUnder s) e place.scope wanted) :
    ∃ frame counted data r,
      table.backend.constructAlong (lineage d.actions tip) = .ok (some (.frame frame counted)) ∧
      frame.evaluate table = .ok data ∧
      Shows p t table d.actions place.scope (tasks d.actions tip) data ∧
      table.backend.realizeAlong (lineage d.actions tip) = .ok r ∧
      data.rows = t.selectedRows table s i := by
  obtain ⟨a, ha, htask⟩ := hs.frame
  have hvisible : Visible p.index place.scope (tasks d.actions tip) := by
    rw [hs.tasks_eq]
    exact visible_extended (visible_selectionTasks hlaw hp _)
  obtain ⟨frame, counted, data, r, hconstruct, hevaluate, hshows, hrealize⟩ :=
    hd.evaluates hlaw htable hp (List.suffix_refl _) ha htask hvisible
  refine ⟨frame, counted, data, r, hconstruct, hevaluate, hshows, hrealize, ?_⟩
  have hrows := hshows.rows
  change data.rows = (List.range table.rows).filter
    fun row => (tasks d.actions tip).all (Task.keeps t table row) at hrows
  rw [hrows, ← selectedRows_chainUnder hlaw hp, hs.tasks_eq]
  refine List.filter_congr fun row _ => ?_
  rw [all_extended, rows_selectionTasks hlaw hp]

omit hlaw htable in
private theorem answer_request {id tip : Nat} {a : Action} {frame : Frame} {counted : Bool}
    {r : Option Realized} {request : Request} {m : Materialized} (ha : d.actions[id]? = some a)
    (hinput : a.input = some tip)
    (hconstruct : table.backend.constructAlong (lineage d.actions tip) =
      .ok (some (.frame frame counted)))
    (hrealize : table.backend.realizeAlong (lineage d.actions tip) = .ok r)
    (hcall : table.backend.constructCall a (some frame) = .ok (.output frame request))
    (hrequest : frame.materialize table request = .ok m) :
    table.backend.answers d.actions id = .ok (some (.output m)) := by
  have hline := hd.lineage_eq ha
  rw [hinput, Option.elim_some] at hline
  have hpull : table.backend.pullCall (.output frame request) = .ok (.output m) := by
    change (frame.materialize table request).map Realized.output = _
    rw [hrequest]
    rfl
  rw [Backend.answers, hline, Backend.realizeAlong_cons_of_ok hrealize hconstruct]
  simp only [Option.map_some, Built.handle, hcall, hpull]

theorem SelectionEntry.answer {node : Nat} {entry : Nat × ActionId}
    (h : SelectionEntry p d.actions s node entry) :
    table.backend.answers d.actions entry.2 =
      .ok (some (.count (t.selectedRows table s node).length)) := by
  obtain ⟨-, place, a, hp, ha, htask⟩ := h
  obtain ⟨-, -, -, htasks⟩ := hd.selection hlaw ha htask
  obtain ⟨frame, counted, data, r, hconstruct, hevaluate, hshows, hrealize⟩ :=
    hd.evaluates hlaw htable hp (List.suffix_refl _) ha (by rw [htask]; rfl)
      (htasks ▸ visible_selectionTasks hlaw hp _)
  have hrows : data.rows = t.selectedRows table s node := by
    have hrows := hshows.rows
    change data.rows = (List.range table.rows).filter
      fun row => (tasks d.actions entry.2).all (Task.keeps t table row) at hrows
    rw [hrows, ← selectedRows_chainUnder hlaw hp, htasks]
    exact List.filter_congr fun row _ => rows_selectionTasks hlaw hp row
  rw [hd.lineage_eq ha] at hconstruct hrealize
  obtain ⟨built, result, hbuilt, hpull, rfl⟩ := Backend.realizeAlong_cons_eq_ok hrealize
  obtain ⟨parent, made, -, hcall, hmade⟩ := Backend.constructAlong_cons_eq_ok.mp hconstruct
  rw [hconstruct] at hbuilt
  cases hbuilt
  cases hmade
  have hcounted : counted = true := by
    cases hop : a.operation with
    | source =>
        simp only [Backend.constructCall, hop] at hcall
        cases hcall
        rfl
    | filter predicate =>
        cases parent with
        | none =>
            simp only [Backend.constructCall, hop, Option.map_none] at hcall
            cases hcall
        | some parent =>
            simp only [Backend.constructCall, hop, Option.map_some] at hcall
            cases hcall
            rfl
    | _ => simp [Action.task, hop] at htask
  subst hcounted
  have hcount : frame.count table = .ok data.rows.length := by
    rw [Frame.count, hevaluate]
    rfl
  simp only [Backend.pullCall, EventTable.backend, hcount] at hpull
  cases hpull
  rw [Backend.answers, hd.lineage_eq ha, hrealize, hrows]

theorem OutputEntry.answer {r : AcceptedRegion} {spec : OutputSpec} {writer : Nat}
    {entry : Nat × ActionId} (hr : r ∈ accepted) (hspec : r.outputs[writer]? = some spec)
    (hnames : (accepted.map AcceptedRegion.name).Nodup)
    (h : OutputEntry d.actions r.name s (spec, writer) entry) :
    table.backend.answers d.actions entry.2 =
      .ok (some (.output (t.resultAt table s r.place.node spec.columns (r.weightOf spec)))) := by
  obtain ⟨-, a, request, ha, hsystematic, hop⟩ := h
  have hmade := hd.made a (List.mem_of_getElem? ha)
  cases hmade with
  | @output r' s' writer' spec' number tip base hr' hplace _ hspec' _ hs =>
      simp only [Planner.outputAction, Operation.output.injEq] at hop
      obtain ⟨hname, rfl, -, -⟩ := hop
      have hsame : r' = r := by
        have hfirst := find?_name hr' hnames
        rw [hname, find?_name hr hnames, Option.some.injEq] at hfirst
        exact hfirst.symm
      subst hsame
      rw [hspec, Option.some.injEq] at hspec'
      subst hspec'
      have hs' : s' = s := hsystematic
      subst hs'
      obtain ⟨frame, counted, data, value, hconstruct, hevaluate, hshows, hrealize, hrows⟩ :=
        hs.evaluates hd hlaw htable hplace
      have hmaterialize := hshows.materialize hlaw hplace _ _ htable hevaluate
        hs.covered
      rw [hrows] at hmaterialize
      exact answer_request hd ha rfl hconstruct hrealize rfl hmaterialize
  | _ => simp [Planner.sourceAction, Planner.defineAction, Planner.filterAction,
      Planner.statisticsAction] at hop

theorem StatisticsEntry.answer {node : Nat} {entry : Nat × ActionId}
    (h : StatisticsEntry p d.actions s node entry) :
    table.backend.answers d.actions entry.2 =
      .ok (some (.output (t.resultAt table s node [] (t.weight node)))) := by
  obtain ⟨-, place, weight, c, base, b, a, hp, hweight, hlookup, hb, htask, ha, hsums⟩ := h
  have hmade := hd.made a (List.mem_of_getElem? ha)
  cases hmade with
  | @statistics place' weight' c' chain e number tip base' hplace hweight' hlookup' heff _ hs =>
      simp only [Action.sums, Planner.statisticsAction, Bool.and_eq_true, beq_iff_eq] at hsums
      obtain ⟨⟨hbase, href⟩, heffective⟩ := hsums
      obtain ⟨b', hb', htask'⟩ := hs.base_task
      rw [hbase, hb, Option.some.injEq] at hb'
      subst hb'
      rw [htask, Option.some.injEq, Task.select.injEq] at htask'
      obtain ⟨hnode, hchain⟩ := htask'
      rw [← hnode, hp, Option.some.injEq] at hplace
      subst hplace
      rw [← hnode, hweight, Option.some.injEq] at hweight'
      subst hweight'
      rw [hlookup, Option.some.injEq] at hlookup'
      subst hlookup'
      rw [← hnode, ← hchain] at hs
      obtain ⟨frame, counted, data, value, hconstruct, hevaluate, hshows, hrealize, hrows⟩ :=
        hs.evaluates hd hlaw htable hp
      have hmaterialize := hshows.materialize hlaw hp [] (some weight) htable hevaluate hs.covered
      have hresult : Materialized.ofRows data.rows
          (fun name row => table.read e row (t.visible node) name) [] (some weight) =
            t.resultAt table s node [] (t.weight node) := by
        rw [SelectionTree.resultAt, ← hlaw.tree_eq, hweight, hlaw.tree_eq, hrows]
        refine Materialized.ofRows_congr fun name hname row _ => ?_
        rw [List.nil_append, Option.toList_some, List.mem_singleton] at hname
        rw [hname, ← hlaw.scope_declared hp, heffective]
        exact ((hlaw.resolved hp).read_effective hlookup).symm
      rw [hresult] at hmaterialize
      exact answer_request hd ha rfl hconstruct hrealize rfl hmaterialize
  | _ => simp [Action.sums, Planner.sourceAction, Planner.defineAction, Planner.filterAction,
      Planner.outputAction] at hsums

end Answers
end SelectionPlan
