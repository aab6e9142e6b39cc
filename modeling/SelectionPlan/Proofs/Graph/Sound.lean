import SelectionPlan.Proofs.Graph.Content

/-!
# Sound drafts

Every action of a sound draft is one that planning makes, with its content determined by the frame
it starts from, and the register knows exactly the columns that the draft computes.
-/

namespace SelectionPlan

def IsFrame (actions : List Action) (id : Nat) : Prop :=
  ∃ a, actions[id]? = some a ∧ a.task.isSome

/-- The frame `tip` gives a reader of `wanted` under `s` what it needs on top of the selection
`base` of a node, and nothing else. -/
structure Supplied (index : ScopeIndex) (actions : List Action) (base tip node : Nat)
    (chain s : Systematic) (scope : Scope) (wanted : List String) : Prop where
  base_task : ∃ b, actions[base]? = some b ∧ b.task = some (.select node chain)
  frame : IsFrame actions tip
  suffix : lineage actions base <:+ lineage actions tip
  tasks_eq : tasks actions tip =
    extended s (selectionTasks chain (index.trail node)) (scope.needs s wanted)
  covered : Covered (lineage actions tip) scope s wanted

inductive Made (p : Planner) (regions : List AcceptedRegion) (actions : List Action) :
    Action → Prop
  | source {place : Place} {id : Nat} : p.index.place? 0 = some place →
      Made p regions actions (Planner.sourceAction id place)
  | define {c : Column} {older : Scope} {s : Systematic} {id tip : Nat} :
      p.index.Declares c older → c.effective s = s → c.isComputed s = true → tip < id →
      IsFrame actions tip → .define c.ref s ∉ tasks actions tip →
      Covered (lineage actions tip) older s (c.declared.spec s).inputs →
      Made p regions actions (p.defineAction id tip (lineage actions tip) c older s)
  | filter {place parent : Place} {v : Variable} {chain : Systematic} {id tip base : Nat} :
      p.index.place? place.node = some place → place.filter = some v →
      place.parent = some parent.node → p.index.place? parent.node = some parent →
      place.chainUnder chain = chain → tip < id →
      Supplied p.index actions base tip parent.node (parent.chainUnder chain) chain place.scope
        (v.spec chain).inputs →
      Made p regions actions (p.filterAction id tip (lineage actions tip) place v chain)
  | statistics {place : Place} {weight : String} {c : Column} {chain s : Systematic}
      {id tip base : Nat} :
      p.index.place? place.node = some place → p.index.tree.weight place.node = some weight →
      place.scope.lookup weight = some c → c.effective s = s → tip < id →
      Supplied p.index actions base tip place.node chain s place.scope [weight] →
      Made p regions actions
        (p.statisticsAction id tip (lineage actions tip) place base chain weight c s)
  | output {r : AcceptedRegion} {s : Systematic} {writer : Nat} {spec : OutputSpec}
      {id tip base : Nat} :
      r ∈ regions → p.index.place? r.place.node = some r.place → s ∈ r.systematics →
      r.outputs[writer]? = some spec → tip < id →
      Supplied p.index actions base tip r.place.node (r.place.chainUnder s) s r.place.scope
        (spec.columns ++ (r.weightOf spec).toList) →
      Made p regions actions (p.outputAction id tip (lineage actions tip) base r s writer spec)

theorem IsFrame.append {actions : List Action} {id : Nat} (h : IsFrame actions id)
    (more : List Action) : IsFrame (actions ++ more) id := by
  obtain ⟨a, ha, htask⟩ := h
  refine ⟨a, ?_, htask⟩
  rw [List.getElem?_append_left (List.getElem?_eq_some_iff.mp ha).1, ha]

section Append

variable {actions more : List Action} (hl : Linked (actions ++ more))
include hl

theorem Linked.tasks_append {id : Nat} {a : Action} (ha : actions[id]? = some a) :
    tasks (actions ++ more) id = tasks actions id := by
  rw [tasks, hl.lineage_append ha, tasks]

theorem Supplied.append {index : ScopeIndex} {base tip node : Nat} {chain s : Systematic}
    {scope : Scope} {wanted : List String}
    (h : Supplied index actions base tip node chain s scope wanted) :
    Supplied index (actions ++ more) base tip node chain s scope wanted := by
  obtain ⟨b, hb, htask⟩ := h.base_task
  obtain ⟨a, ha, -⟩ := h.frame
  refine ⟨⟨b, ?_, htask⟩, h.frame.append more, ?_, ?_, ?_⟩
  · rw [List.getElem?_append_left (List.getElem?_eq_some_iff.mp hb).1, hb]
  · rw [hl.lineage_append hb, hl.lineage_append ha]
    exact h.suffix
  · rw [hl.tasks_append ha]
    exact h.tasks_eq
  · rw [hl.lineage_append ha]
    exact h.covered

theorem Made.append {p : Planner} {regions : List AcceptedRegion} {a : Action}
    (h : Made p regions actions a) : Made p regions (actions ++ more) a := by
  cases h with
  | source hplace => exact .source hplace
  | define hdecl heff hcomp hlt hframe hfresh hcovered =>
      have hframe' := hframe
      obtain ⟨b, hb, -⟩ := hframe'
      rw [← hl.tasks_append hb] at hfresh
      rw [← hl.lineage_append hb] at hcovered ⊢
      exact .define hdecl heff hcomp hlt (hframe.append more) hfresh hcovered
  | filter hplace hfilter hparent hpp hchain hlt hs =>
      obtain ⟨b, hb, -⟩ := hs.frame
      rw [← hl.lineage_append hb]
      exact .filter hplace hfilter hparent hpp hchain hlt (hs.append hl)
  | statistics hplace hweight hlookup heff hlt hs =>
      obtain ⟨b, hb, -⟩ := hs.frame
      rw [← hl.lineage_append hb]
      exact .statistics hplace hweight hlookup heff hlt (hs.append hl)
  | output hr hplace hsys hspec hlt hs =>
      obtain ⟨b, hb, -⟩ := hs.frame
      rw [← hl.lineage_append hb]
      exact .output hr hplace hsys hspec hlt (hs.append hl)

end Append

namespace Made

variable {p : Planner} {regions : List AcceptedRegion} {actions : List Action} {a : Action}

theorem input_lt (h : Made p regions actions a) {j : Nat} (hj : a.input = some j) : j < a.id := by
  cases h with
  | source _ => cases hj
  | define _ _ _ hlt => cases hj; exact hlt
  | filter _ _ _ _ _ hlt => cases hj; exact hlt
  | statistics _ _ _ _ hlt => cases hj; exact hlt
  | output _ _ _ _ hlt => cases hj; exact hlt

theorem input_frame (h : Made p regions actions a) {j : Nat} (hj : a.input = some j) :
    IsFrame actions j := by
  cases h with
  | source _ => cases hj
  | define _ _ _ _ hframe => cases hj; exact hframe
  | filter _ _ _ _ _ _ hs => cases hj; exact hs.frame
  | statistics _ _ _ _ _ hs => cases hj; exact hs.frame
  | output _ _ _ _ _ hs => cases hj; exact hs.frame

private theorem producer_mem {line : List Action} {scope : Scope} {s : Systematic}
    {wanted : List String} {j : Nat} (h : j ∈ producersIn line scope s wanted) :
    ∃ b ∈ line, b.id = j := by
  obtain ⟨i, -, c, -, -, hprod⟩ := mem_producersIn h
  obtain ⟨b, hb, hid, -⟩ := producerIn_eq_some hprod
  exact ⟨b, hb, hid⟩

/-- An action depends on its input, on producers of what it reads and on the selection that it
belongs to. -/
theorem dependency (hl : Linked actions) (h : Made p regions actions a) {j : Nat}
    (hj : j ∈ a.dependencies) :
    ∃ input, a.input = some input ∧ j ∈ lineageIds actions input := by
  have htip {tip : Nat} (hframe : IsFrame actions tip) : tip ∈ lineageIds actions tip := by
    obtain ⟨b, hb, -⟩ := hframe
    exact mem_lineageIds.mpr ⟨b, hl.mem_lineage_self hb, hl.id_eq tip b hb⟩
  have hprod {tip : Nat} {scope : Scope} {s : Systematic} {wanted : List String}
      (hj : j ∈ producersIn (lineage actions tip) scope s wanted) : j ∈ lineageIds actions tip :=
    mem_lineageIds.mpr (producer_mem hj)
  have hbase {base tip node : Nat} {chain s : Systematic} {scope : Scope} {wanted : List String}
      (hs : Supplied p.index actions base tip node chain s scope wanted) :
      base ∈ lineageIds actions tip := by
    obtain ⟨b, hb, -⟩ := hs.base_task
    exact mem_lineageIds.mpr ⟨b, hs.suffix.subset (hl.mem_lineage_self hb), hl.id_eq base b hb⟩
  cases h with
  | source _ => cases hj
  | @define c older s id tip _ _ _ _ hframe =>
      refine ⟨tip, rfl, ?_⟩
      simp only [Planner.defineAction, mem_unionDistinct, List.mem_singleton] at hj
      rcases hj with rfl | hj
      · exact htip hframe
      · exact hprod hj
  | @filter place parent v chain id tip base _ _ _ _ _ _ hs =>
      refine ⟨tip, rfl, ?_⟩
      simp only [Planner.filterAction, mem_unionDistinct, List.mem_singleton] at hj
      rcases hj with rfl | hj
      · exact htip hs.frame
      · exact hprod hj
  | @statistics place weight c chain s id tip base _ _ _ _ _ hs =>
      refine ⟨tip, rfl, ?_⟩
      simp only [Planner.statisticsAction, mem_unionDistinct, mem_insertDistinct,
        List.mem_singleton] at hj
      rcases hj with rfl | rfl | hj
      · exact htip hs.frame
      · exact hbase hs
      · exact hprod hj
  | @output r s writer spec id tip base _ _ _ _ _ hs =>
      refine ⟨tip, rfl, ?_⟩
      simp only [Planner.outputAction, mem_unionDistinct, mem_insertDistinct,
        List.mem_singleton] at hj
      rcases hj with rfl | rfl | hj
      · exact htip hs.frame
      · exact hbase hs
      · exact hprod hj

theorem input_mem (h : Made p regions actions a) {j : Nat} (hj : a.input = some j) :
    j ∈ a.dependencies := by
  cases h with
  | source _ => cases hj
  | define => cases hj; simp [Planner.defineAction]
  | filter => cases hj; simp [Planner.filterAction]
  | statistics => cases hj; simp [Planner.statisticsAction]
  | output => cases hj; simp [Planner.outputAction]

end Made

private theorem foldl_assigned {α : Type} {f : NameRegistry → α → NameRegistry}
    (h : ∀ r x, (f r x).assigned = r.assigned) (xs : List α) (r : NameRegistry) :
    (xs.foldl f r).assigned = r.assigned := by
  induction xs generalizing r with
  | nil => rfl
  | cons x xs ih => rw [List.foldl_cons, ih, h]

theorem Planner.datasetColumns_assigned (p : Planner) : p.datasetColumns.assigned = [] := by
  refine foldl_assigned (fun r place => ?_) _ _
  refine foldl_assigned (fun r v => ?_) _ _
  refine foldl_assigned (fun r spec => ?_) _ _
  cases spec with
  | branch column =>
      simp only [NameRegistry.addDataset]
      split <;> rfl
  | function f inputs => rfl
  | expression e => rfl

/-- A draft whose actions are all made by planning and compute columns allowed by `G` only. -/
structure Draft.Sound (p : Planner) (regions : List AcceptedRegion)
    (G : ColumnRef → Systematic → Prop) (d : Draft) : Prop extends Linked d.actions where
  made : ∀ a ∈ d.actions, Made p regions d.actions a
  allowed : ∀ a ∈ d.actions, ∀ c s, a.task = some (.define c s) → G c s
  dataset_eq : d.registry.dataset = p.datasetColumns.dataset
  registered : ∀ a ∈ d.actions, ∀ slot column name definition,
    a.operation = .define slot column name definition →
    lookupKey column d.registry.dataset = none ∧
      lookupKey column d.registry.assigned = some (name, a.systematic)
  owned : ∀ column name s, lookupKey column d.registry.assigned = some (name, s) →
    ∃ a ∈ d.actions, a.systematic = s ∧
      ∃ slot definition, a.operation = .define slot column name definition

namespace Draft.Sound

variable {p : Planner} {regions : List AcceptedRegion} {G : ColumnRef → Systematic → Prop}
  {d : Draft} {a : Action}

theorem empty : Draft.Sound p regions G { registry := p.datasetColumns } where
  id_eq := by simp
  input_lt := by simp
  made := by simp
  allowed := by simp
  dataset_eq := rfl
  registered := by simp
  owned := by simp [p.datasetColumns_assigned, lookupKey]

variable (h : d.Sound p regions G)
include h

theorem chained : Chained d.actions where
  toLinked := h.toLinked
  input_mem := by
    intro i a j ha hj
    have hmade := h.made a (List.mem_of_getElem? ha)
    obtain ⟨b, hb, -⟩ := hmade.input_frame hj
    exact ⟨(List.getElem?_eq_some_iff.mp hb).1, hmade.input_mem hj⟩
  dependency := fun i a j ha hj => (h.made a (List.mem_of_getElem? ha)).dependency h.toLinked hj

theorem selection {t : SelectionTree} (hlaw : ScopeIndex.Lawful t p.index) {id node : Nat}
    {s : Systematic} (ha : d.actions[id]? = some a) (htask : a.task = some (.select node s)) :
    ∃ place, p.index.place? node = some place ∧ place.chainUnder s = s ∧
      tasks d.actions id = selectionTasks s (p.index.trail node) := by
  have hmade := h.made a (List.mem_of_getElem? ha)
  have htasks := h.toLinked.tasks_eq ha
  cases hmade with
  | @source place _ hplace =>
      simp only [Planner.sourceAction_task, Option.some.injEq, Task.select.injEq] at htask
      obtain ⟨hnode, rfl⟩ := htask
      obtain ⟨hzero, -⟩ := hlaw.place_lt hplace
      obtain ⟨q, hq, hext⟩ := hlaw.root
      rw [hplace, Option.some.injEq] at hq
      subst hq
      obtain ⟨n, hn, -, -, hfilter, -⟩ := hext.declaration
      obtain ⟨m, hm, hroot⟩ := hlaw.wellFormed.root
      rw [hn, Option.some.injEq] at hm
      subst hm
      have hneeds : place.filterNeeds .nominal = [] := by
        have hinputs : place.filterInputs .nominal = [] := by
          simp [Place.filterInputs, hfilter, Node.filter, hroot]
        rw [Place.filterNeeds, hinputs, Scope.needs_nil]
      rw [← hnode, hzero]
      refine ⟨place, hplace, rfl, ?_⟩
      rw [htasks, hlaw.trail_root hplace, selectionTasks, hneeds]
      rfl
  | define => simp at htask
  | @filter place parent v chain _ tip base hplace hfilter hparent hpp hchain _ hs =>
      simp only [Planner.filterAction_task, Option.some.injEq, Task.select.injEq] at htask
      obtain ⟨rfl, rfl⟩ := htask
      refine ⟨place, hplace, hchain, ?_⟩
      have hinputs : place.filterInputs chain = (v.spec chain).inputs := by
        simp [Place.filterInputs, hfilter, hchain]
      have htail : tasks d.actions id = .select place.node chain :: tasks d.actions tip := htasks
      rw [htail, hs.tasks_eq, hlaw.trail_eq hplace, hparent, Option.elim_some, selectionTasks,
        hchain, Place.filterNeeds, hchain, hinputs, hlaw.selectionTasks_chainUnder hpp]
  | statistics => simp at htask
  | output => simp at htask

end Draft.Sound

theorem Draft.Sound.push {p : Planner} {regions : List AcceptedRegion}
    {G : ColumnRef → Systematic → Prop} {d : Draft} {a : Action} {registry : NameRegistry}
    (h : d.Sound p regions G) (hid : a.id = d.actions.length) (hmade : Made p regions d.actions a)
    (hallowed : ∀ c s, a.task = some (.define c s) → G c s)
    (hdataset : registry.dataset = d.registry.dataset)
    (hregistered : ∀ slot column name definition,
      a.operation = .define slot column name definition →
      lookupKey column registry.dataset = none ∧
        lookupKey column registry.assigned = some (name, a.systematic))
    (hkept : ∀ column owner, lookupKey column d.registry.assigned = some owner →
      lookupKey column registry.assigned = some owner)
    (howned : ∀ column name s, lookupKey column registry.assigned = some (name, s) →
      lookupKey column d.registry.assigned = some (name, s) ∨ a.systematic = s ∧
        ∃ slot definition, a.operation = .define slot column name definition) :
    Draft.Sound p regions G ⟨d.actions ++ [a], registry⟩ := by
  have hl : Linked (d.actions ++ [a]) := h.toLinked.push hid fun j hj => hmade.input_lt hj
  refine ⟨hl, ?_, ?_, ?_, ?_, ?_⟩
  · intro b hb
    rcases List.mem_append.mp hb with hb | hb
    · exact (h.made b hb).append hl
    · rw [List.mem_singleton.mp hb]
      exact hmade.append hl
  · intro b hb c s hc
    rcases List.mem_append.mp hb with hb | hb
    · exact h.allowed b hb c s hc
    · rw [List.mem_singleton.mp hb] at hc
      exact hallowed c s hc
  · exact hdataset.trans h.dataset_eq
  · intro b hb slot column name definition hop
    rcases List.mem_append.mp hb with hb | hb
    · obtain ⟨hfree, hassigned⟩ := h.registered b hb slot column name definition hop
      exact ⟨by simpa [hdataset] using hfree, hkept _ _ hassigned⟩
    · rw [List.mem_singleton.mp hb] at hop ⊢
      exact hregistered slot column name definition hop
  · intro column name s hassigned
    rcases howned column name s hassigned with hold | hnew
    · obtain ⟨b, hb, howner⟩ := h.owned column name s hold
      exact ⟨b, List.mem_append_left _ hb, howner⟩
    · exact ⟨a, by simp, hnew⟩

theorem Draft.Sound.push_same {p : Planner} {regions : List AcceptedRegion}
    {G : ColumnRef → Systematic → Prop} {d : Draft} {a : Action} (h : d.Sound p regions G)
    (hid : a.id = d.actions.length) (hmade : Made p regions d.actions a)
    (hop : ∀ slot column name definition, a.operation ≠ .define slot column name definition) :
    Draft.Sound p regions G ⟨d.actions ++ [a], d.registry⟩ := by
  refine h.push hid hmade ?_ rfl (fun slot column name definition h => absurd h (hop _ _ _ _))
    (fun _ _ h => h) (fun _ _ _ h => .inl h)
  intro c s htask
  simp only [Action.task] at htask
  split at htask
  · cases htask
  · cases htask
  · rename_i hdef
    exact absurd hdef (hop _ _ _ _)
  · cases htask
  · cases htask

end SelectionPlan
