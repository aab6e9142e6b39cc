import SelectionPlan.Proofs.Graph.Task

/-!
# Content of planned actions

What planning puts into an action is a function of the frame it starts from and of what the action
is for.  A reader is bound to physical columns without a complaint if the frame has the computed
columns it reads.
-/

namespace SelectionPlan

/-- The physical column that carries a name which is read under `s`. -/
def Scope.carrier (scope : Scope) (namer : Namer) (s : Systematic) (name : String) : String :=
  ((scope.lookup name).map fun c => c.physical namer (c.effective s)).getD ""

def Specification.define (carrier : String → String) : Specification → Definition
  | .branch column => .column column
  | .function f inputs => .function f (inputs.map carrier)
  | .expression e =>
    let carriers := e.columns.map carrier
    .expression (e.rename fun logical => carriers.getD (e.columns.idxOf logical) "") e carriers

theorem Variable.resolve_eq {v : Variable} {s : Systematic} {physical : String → Option String}
    {carrier : String → String} {location : String}
    (h : ∀ i ∈ (v.spec s).inputs, physical i = some (carrier i)) :
    v.resolve s physical location = .ok ((v.spec s).define carrier) := by
  simp only [Variable.resolve]
  cases hspec : v.spec s with
  | branch column => rfl
  | function f inputs =>
      rw [hspec] at h
      refine bind_eq_ok.mpr ⟨inputs.map carrier, mapM_eq_ok_map fun i hi => ?_, rfl⟩
      simp only [h i hi]
  | expression e =>
      rw [hspec] at h
      refine bind_eq_ok.mpr ⟨e.columns.map carrier, mapM_eq_ok_map fun i hi => ?_, rfl⟩
      simp only [h i hi]

/-- Every name in `wanted` means a column, and `has` holds of the computed ones among these columns
and the systematic in effect. -/
def Covers (has : ColumnRef → Systematic → Prop) (scope : Scope) (s : Systematic)
    (wanted : List String) : Prop :=
  ∀ i ∈ wanted, ∃ c, scope.lookup i = some c ∧
    (c.isComputed s = true → has c.ref (c.effective s))

def Covered (line : List Action) (scope : Scope) (s : Systematic) (wanted : List String) : Prop :=
  Covers (fun c e => .define c e ∈ line.filterMap Action.task) scope s wanted

/-- The actions of a lineage that compute what is read for some names, ascending. -/
def producersIn (line : List Action) (scope : Scope) (s : Systematic) (wanted : List String) :
    List ActionId :=
  sortDistinct <| wanted.filterMap fun i => (scope.lookup i).bind fun c =>
    if c.isComputed s then producerIn line c.ref (c.effective s) else none

theorem mem_producersIn {line : List Action} {scope : Scope} {s : Systematic}
    {wanted : List String} {id : Nat} (h : id ∈ producersIn line scope s wanted) :
    ∃ i ∈ wanted, ∃ c, scope.lookup i = some c ∧ c.isComputed s = true ∧
      producerIn line c.ref (c.effective s) = some id := by
  rw [producersIn, mem_sortDistinct, List.mem_filterMap] at h
  obtain ⟨i, hi, hid⟩ := h
  obtain ⟨c, hc, hid⟩ := Option.bind_eq_some_iff.mp hid
  split at hid
  · exact ⟨i, hi, c, hc, ‹_›, hid⟩
  · cases hid

namespace Planner

variable (p : Planner)

def bindings (line : List Action) (scope : Scope) (s : Systematic) (wanted : List String) :
    List Binding :=
  wanted.filterMap fun i => (scope.lookup i).map fun c =>
    { input := i, physical := c.physical p.namer (c.effective s)
      producer := if c.isComputed s then producerIn line c.ref (c.effective s) else none }

section Bindings

variable {p} {line : List Action} {scope : Scope} {s : Systematic} {wanted : List String}

theorem bind_eq {d : Draft} {tip : ActionId} {reader path : String}
    (h : Covered (lineage d.actions tip) scope s wanted) :
    p.bind (d.producer? tip) scope wanted s reader path =
      .ok (p.bindings (lineage d.actions tip) scope s wanted) := by
  induction wanted with
  | nil => rfl
  | cons i rest ih =>
      obtain ⟨c, hc, hcovered⟩ := h i (by simp)
      have hrest := ih fun j hj => h j (List.mem_cons_of_mem _ hj)
      have hrequire : scope.require i reader path = .ok c := Scope.require_eq_ok.mpr hc
      simp only [bind] at hrest ⊢
      rw [List.mapM_cons, hrest]
      simp only [bindings, List.filterMap_cons, hc, Option.map_some]
      refine bind_eq_ok.mpr ⟨_, bind_eq_ok.mpr ⟨c, hrequire, ?_⟩, rfl⟩
      by_cases hcomp : c.isComputed s = true
      · obtain ⟨id, hid⟩ := Option.isSome_iff_exists.mp (producerIn_isSome.mpr (hcovered hcomp))
        simp only [hcomp, if_true, Draft.producer?_eq, hid]
        rfl
      · simp only [hcomp]
        rfl

theorem boundName_bindings (h : Covered line scope s wanted) {i : String} (hi : i ∈ wanted) :
    boundName (p.bindings line scope s wanted) i = some (scope.carrier p.namer s i) := by
  induction wanted with
  | nil => cases hi
  | cons j rest ih =>
      obtain ⟨c, hc, -⟩ := h j (by simp)
      simp only [boundName, bindings, List.filterMap_cons, hc, Option.map_some, List.find?_cons]
      by_cases hji : j = i
      · subst hji
        simp [Scope.carrier, hc]
      · have hrest : i ∈ rest := by
          rcases List.mem_cons.mp hi with rfl | hi
          · exact absurd rfl hji
          · exact hi
        have hne : (j == i) = false := beq_false_of_ne hji
        simp only [hne]
        exact ih (fun k hk => h k (List.mem_cons_of_mem _ hk)) hrest

theorem producers_bindings :
    producers (p.bindings line scope s wanted) = producersIn line scope s wanted := by
  simp only [producers, producersIn, bindings, List.filterMap_filterMap]
  congr 1
  apply List.filterMap_congr
  intro i _
  cases scope.lookup i <;> rfl

end Bindings

def sourceAction (id : ActionId) (place : Place) : Action :=
  { id, node := place.node, path := place.path, systematic := .nominal, input := none
    dependencies := [], cost := 0, operation := .source }

def defineAction (id tip : ActionId) (line : List Action) (c : Column) (older : Scope)
    (s : Systematic) : Action :=
  let spec := c.declared.spec s
  { id, node := c.ref.node, path := c.path, systematic := s, input := some tip
    dependencies := unionDistinct [tip] (producersIn line older s spec.inputs)
    cost := c.declared.cost.getD p.defaultCost
    operation := .define c.ref.slot (p.namer.physical c.name s) c.name
      (spec.define (older.carrier p.namer s)) }

def filterAction (id tip : ActionId) (line : List Action) (place : Place) (filter : Variable)
    (chain : Systematic) : Action :=
  let spec := filter.spec chain
  { id, node := place.node, path := place.path, systematic := chain, input := some tip
    dependencies := unionDistinct [tip] (producersIn line place.scope chain spec.inputs)
    cost := filter.cost.getD p.defaultCost
    operation := .filter (spec.define (place.scope.carrier p.namer chain)) }

def statisticsAction (id tip : ActionId) (line : List Action) (place : Place)
    (base : ActionId) (chain : Systematic) (weight : String) (c : Column) (effective : Systematic) :
    Action :=
  { id, node := place.node, path := place.path, systematic := chain, input := some tip
    dependencies := unionDistinct [tip]
      (insertDistinct base (producersIn line place.scope effective [weight]))
    cost := 0
    operation := .statistics base c.ref effective
      { weight := some (place.scope.carrier p.namer effective weight) } }

def outputAction (id tip : ActionId) (line : List Action) (base : ActionId) (r : AcceptedRegion)
    (s : Systematic) (writer : Nat) (spec : OutputSpec) : Action :=
  let carrier := r.place.scope.carrier p.namer s
  let weight := r.weightOf spec
  { id, node := r.place.node, path := r.place.path, systematic := s, input := some tip
    dependencies := unionDistinct [tip]
      (insertDistinct base (producersIn line r.place.scope s (spec.columns ++ weight.toList)))
    cost := 0
    operation := .output r.name writer spec.name
      { columns := spec.columns.map fun c => (c, carrier c), weight := weight.map carrier } }

section Task

variable {p} {id tip base : Nat} {line : List Action} {place : Place} {chain s : Systematic}

@[simp] theorem sourceAction_task :
    (sourceAction id place).task = some (.select place.node .nominal) := rfl

@[simp] theorem defineAction_task {c : Column} {older : Scope} :
    (p.defineAction id tip line c older s).task = some (.define c.ref s) := rfl

@[simp] theorem filterAction_task {v : Variable} :
    (p.filterAction id tip line place v chain).task = some (.select place.node chain) := rfl

@[simp] theorem statisticsAction_task {weight : String} {c : Column} :
    (p.statisticsAction id tip line place base chain weight c s).task = none := rfl

@[simp] theorem outputAction_task {r : AcceptedRegion} {writer : Nat} {spec : OutputSpec} :
    (p.outputAction id tip line base r s writer spec).task = none := rfl

end Task

end Planner
end SelectionPlan
