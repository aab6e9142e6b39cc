import SelectionPlan.Proofs.Execution.Along
import SelectionPlan.Proofs.Graph.Sound
import SelectionPlan.Proofs.Meaning.Naive

/-!
# Frames show what they mean

Evaluating the frame of an action gives the events that pass the filters of its lineage, and under
every physical column defined there the values of the logical column that it stands for.
-/

namespace SelectionPlan

def Specification.column? : Specification → Option String
  | branch column => some column
  | _ => none

def SelectionTree.datasetColumns (t : SelectionTree) : List String :=
  t.nodes.flatMap fun node => (node.ownVariables ++ node.filter.toList).flatMap fun v =>
    v.specs.filterMap Specification.column?

theorem SelectionTree.mem_datasetColumns {t : SelectionTree} {node : Node} {v : Variable}
    {column : String} (hnode : node ∈ t.nodes)
    (hv : v ∈ node.ownVariables ++ node.filter.toList) (hspec : .branch column ∈ v.specs) :
    column ∈ t.datasetColumns :=
  List.mem_flatMap.mpr ⟨node, hnode,
    List.mem_flatMap.mpr ⟨v, hv, List.mem_filterMap.mpr ⟨_, hspec, rfl⟩⟩⟩

/-- A table that has what a tree reads from the dataset and nothing that some actions define. -/
structure EventTable.Suits (table : EventTable) (t : SelectionTree) (actions : List Action) :
    Prop where
  has : ∀ column ∈ t.datasetColumns, ∃ values, table.column? column = some values
  lacks : ∀ column ∈ definedColumns actions, table.column? column = none

def Task.keeps (t : SelectionTree) (table : EventTable) (row : Nat) : Task → Bool
  | .select node s => t.passes table s row node
  | .define .. => true

structure Shows (p : Planner) (t : SelectionTree) (table : EventTable) (actions : List Action)
    (scope : Scope) (tasks : List Task) (data : FrameData) : Prop where
  rows : data.rows = (List.range table.rows).filter fun row => tasks.all (Task.keeps t table row)
  columns : ∀ c older s, c :: older <:+ scope → .define c.ref s ∈ tasks →
    ∃ values, lookupKey (p.namer.physical c.name s) data.defined = some values ∧
      ∀ row ∈ data.rows, values.getD row Binary64.notANumber =
        table.evaluate row (table.read s row (older.map Column.declared)) (c.declared.spec s)
  defined : ∀ column, (lookupKey column data.defined).isSome → column ∈ definedColumns actions

namespace Shows

variable {p : Planner} {t : SelectionTree} {table : EventTable} {actions : List Action}
  {scope reader : Scope} {line : List Action} {data : FrameData} {s : Systematic}
  {wanted : List String} (hlaw : ScopeIndex.Lawful t p.index)
  (htable : table.Suits t actions)
  (h : Shows p t table actions scope (line.filterMap Action.task) data)
include htable h

theorem dataset_column {column : String} (hreads : column ∈ t.datasetColumns) :
    ∃ values, data.column table column = .ok values ∧
      ∀ row, values.getD row Binary64.notANumber = table.value row column := by
  obtain ⟨values, hvalues⟩ := htable.has column hreads
  have hfree : lookupKey column data.defined = none := by
    refine Option.eq_none_iff_forall_ne_some.mpr fun hidden hsome => ?_
    rw [htable.lacks column (h.defined column (by simp [hsome]))] at hvalues
    cases hvalues
  refine ⟨values, by simp [FrameData.column, hfree, hvalues], fun row => ?_⟩
  simp [EventTable.value, hvalues]

include hlaw

/-- A reader finds the values of a name in the physical column that carries it. -/
theorem carrier_column {i : Nat} {q : Place} (hq : p.index.place? i = some q)
    (hscope : scope <:+ q.scope) (hreader : reader <:+ scope)
    (hcovered : Covered line reader s wanted) {name : String} (hname : name ∈ wanted) :
    ∃ values, data.column table (reader.carrier p.namer s name) = .ok values ∧
      ∀ row ∈ data.rows, values.getD row Binary64.notANumber =
        table.read s row (reader.map Column.declared) name := by
  obtain ⟨c, hc, hcomputed⟩ := hcovered name hname
  obtain ⟨older, hlocate⟩ := Scope.exists_locate hc
  have hresolved := (hlaw.resolved hq).suffix (hreader.trans hscope)
  obtain ⟨hsuffix, -⟩ := Scope.locate_suffix hlocate
  have hcarrier : reader.carrier p.namer s name = c.physical p.namer (c.effective s) := by
    simp [Scope.carrier, hc]
  rw [hcarrier]
  by_cases hcomp : c.isComputed s = true
  · obtain ⟨values, hvalues, hrows⟩ := h.columns c older _ (hsuffix.trans hreader) (hcomputed hcomp)
    have hphysical :
        c.physical p.namer (c.effective s) = p.namer.physical c.name (c.effective s) := by
      simp only [Column.isComputed, Column.specUnder, Bool.not_eq_true'] at hcomp
      simp only [Column.physical]
      split
      · rename_i hspec
        rw [hspec] at hcomp
        cases hcomp
      · rfl
    rw [hphysical]
    refine ⟨values, by simp [FrameData.column, hvalues], fun row hrow => ?_⟩
    rw [hrows row hrow, hresolved.read_effective hc, Scope.read_located hlocate]
  · obtain ⟨column, hspec⟩ : ∃ column, c.declared.spec (c.effective s) = .branch column := by
      simp only [Column.isComputed, Column.specUnder, Bool.not_eq_true', Bool.not_eq_false] at hcomp
      cases hspec : c.declared.spec (c.effective s) <;> simp_all [Specification.isBranch]
    have hreads : column ∈ t.datasetColumns := by
      have hmem : c.declared ∈ q.scope.map Column.declared :=
        List.mem_map_of_mem (((hsuffix.trans hreader).trans hscope).subset List.mem_cons_self)
      rw [hlaw.scope_declared hq, SelectionTree.visible, List.mem_reverse, List.mem_flatMap] at hmem
      obtain ⟨j, -, hmem⟩ := hmem
      cases hnode : t.nodes[j]? with
      | none => simp [hnode] at hmem
      | some node =>
          simp only [hnode, Option.map_some, Option.getD_some] at hmem
          exact SelectionTree.mem_datasetColumns (List.mem_of_getElem? hnode)
            (List.mem_append_left _ hmem) (hspec ▸ c.declared.spec_mem _)
    have hphysical : c.physical p.namer (c.effective s) = column := by
      simp [Column.physical, hspec]
    obtain ⟨values, hvalues, hrows⟩ := h.dataset_column htable hreads
    rw [hphysical]
    refine ⟨values, hvalues, fun row _ => ?_⟩
    rw [hrows, Scope.read_located hlocate,
      ← Column.specUnder_eq (hresolved.suffix hsuffix).overridden_subset, Column.specUnder, hspec]
    rfl

theorem define_value {i : Nat} {q : Place} (hq : p.index.place? i = some q)
    (hscope : scope <:+ q.scope) (hreader : reader <:+ scope) {spec : Specification}
    (hcovered : Covered line reader s spec.inputs)
    (hdataset : ∀ column, spec = .branch column → column ∈ t.datasetColumns) :
    ∃ inputs, data.inputs table (spec.define (reader.carrier p.namer s)) = .ok inputs ∧
      ∀ row ∈ data.rows,
        FrameData.valueAt (spec.define (reader.carrier p.namer s)) inputs row =
          table.evaluate row (table.read s row (reader.map Column.declared)) spec := by
  have hcolumns : ∀ names : List String, (∀ name ∈ names, name ∈ spec.inputs) → ∃ columns,
      (names.map (reader.carrier p.namer s)).mapM (data.column table) = .ok columns ∧
        ∀ row ∈ data.rows, columns.map (fun column => column.getD row Binary64.notANumber) =
          names.map (table.read s row (reader.map Column.declared)) := by
    intro names
    induction names with
    | nil => exact fun _ => ⟨[], rfl, fun _ _ => rfl⟩
    | cons name names ih =>
        intro hnames
        rw [List.forall_mem_cons] at hnames
        obtain ⟨values, hvalues, hrows⟩ :=
          h.carrier_column hlaw htable hq hscope hreader hcovered hnames.1
        obtain ⟨columns, hcolumns, hrest⟩ := ih hnames.2
        refine ⟨values :: columns, ?_, fun row hrow => ?_⟩
        · rw [List.map_cons, List.mapM_cons, hvalues, ok_bind, hcolumns]
          rfl
        · rw [List.map_cons, List.map_cons, hrows row hrow, hrest row hrow]
  cases spec with
  | branch column =>
      obtain ⟨values, hvalues, hrows⟩ := h.dataset_column htable (hdataset column rfl)
      refine ⟨[values], ?_, fun row _ => ?_⟩
      · simp only [FrameData.inputs, Specification.define, Definition.inputs, List.mapM_cons,
          List.mapM_nil, hvalues]
        rfl
      · simp only [FrameData.valueAt, Specification.define, Definition.eval, List.map_cons,
          List.headD_cons, hrows]
        rfl
  | function f inputs =>
      obtain ⟨columns, hcolumns, hrows⟩ := hcolumns inputs fun _ hname => hname
      refine ⟨columns, hcolumns, fun row hrow => ?_⟩
      exact congrArg f (hrows row hrow)
  | expression e =>
      obtain ⟨columns, hcolumns, hrows⟩ := hcolumns e.columns fun _ hname => hname
      refine ⟨columns, hcolumns, fun row hrow => ?_⟩
      exact congrArg e.eval (hrows row hrow)

end Shows
end SelectionPlan
