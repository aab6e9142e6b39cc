import SelectionPlan.Proofs.Graph.Built
import SelectionPlan.Proofs.Scope.Uncosted

/-!
# Planning without costs

Costs are written into actions and never read while planning.  Without cost hints and with a default
cost of zero the same graph comes out, or the same error, with no costs in it.
-/

namespace SelectionPlan

def Action.uncosted (a : Action) : Action := { a with cost := 0 }

def Draft.uncosted (d : Draft) : Draft := { d with actions := d.actions.map Action.uncosted }

def Builder.uncosted (b : Builder) : Builder := { b with toDraft := b.toDraft.uncosted }

def Planner.uncosted (p : Planner) : Planner := ⟨p.index.uncosted, p.namer, 0⟩

def AcceptedRegion.uncosted (r : AcceptedRegion) : AcceptedRegion :=
  { r with place := r.place.uncosted }

def ActionGraph.uncosted (g : ActionGraph) : ActionGraph :=
  { g with actions := g.actions.map Action.uncosted }

def pushedUncosted (r : ActionId × Draft) : ActionId × Draft := (r.1, r.2.uncosted)

def withUncosted {α : Type} (r : α × Builder) : α × Builder := (r.1, r.2.uncosted)

@[simp] theorem Scope.uncosted_needs (scope : Scope) (s : Systematic) (wanted : List String) :
    Scope.needs s scope.uncosted wanted =
      (Scope.needs s scope wanted).map fun need => (need.1.uncosted, need.2.uncosted) := by
  induction scope generalizing wanted with
  | nil => rfl
  | cons c older ih =>
      have hcons : Scope.uncosted (c :: older) = c.uncosted :: Scope.uncosted older := rfl
      have hcolumn : c.uncosted.name = c.name ∧ c.uncosted.isComputed s = c.isComputed s ∧
          c.uncosted.specUnder s = c.specUnder s := ⟨rfl, rfl, rfl⟩
      rw [hcons]
      simp only [Scope.needs, hcolumn, ih]
      split <;> [split <;> simp; rfl]

@[simp] theorem Draft.uncosted_push (d : Draft) (node : Nat) (path : String) (s : Systematic)
    (input : Option ActionId) (dependencies : List ActionId) (cost : Float)
    (operation : Operation) :
    d.uncosted.push node path s input dependencies 0 operation =
      pushedUncosted (d.push node path s input dependencies cost operation) := by
  simp only [push, uncosted, pushedUncosted, List.length_map, List.map_append]
  rfl

namespace ScopeIndex

variable (index : ScopeIndex)

@[simp] theorem uncosted_position? (node : Nat) :
    index.uncosted.position? node = index.position? node := by
  simp only [position?, uncosted, List.findIdx?_map]
  rfl

theorem uncosted_requireWithin (bound node : Nat) (s : Systematic) (required : List SelectionKey) :
    index.uncosted.requireWithin bound node s required =
      index.requireWithin bound node s required := by
  have hplace (place : Place) : place.uncosted.parent = place.parent ∧
      place.uncosted.filter = place.filter.map Variable.uncosted ∧
      place.uncosted.chainUnder s = place.chainUnder s := ⟨rfl, rfl, rfl⟩
  induction bound generalizing node s required with
  | zero =>
      rw [requireWithin, requireWithin, uncosted_place?, uncosted_position?]
      cases index.place? node with
      | none => rfl
      | some place =>
          simp only [Option.map_some, hplace]
          cases place.parent <;> cases place.filter <;> rfl
  | succ bound ih =>
      rw [requireWithin, requireWithin, uncosted_place?, uncosted_position?]
      cases index.place? node with
      | none => rfl
      | some place =>
          simp only [Option.map_some, hplace, ih _ _ _ fun _ => ⟨rfl, rfl, rfl⟩]
          cases place.parent <;> cases place.filter <;> rfl

theorem uncosted_requirements (regions : List AcceptedRegion) :
    index.uncosted.requirements (regions.map AcceptedRegion.uncosted) =
      index.requirements regions := by
  rw [requirements, List.foldlM_map, requirements]
  simp only [requireSelections, uncosted_requireWithin]
  rfl

end ScopeIndex

namespace Planner

variable (p : Planner) (producer? : ColumnRef → Systematic → Option ActionId) (d : Draft)
  (tip : ActionId)

@[simp] theorem uncosted_bind (scope : Scope) (inputs : List String) (s : Systematic)
    (reader path : String) : p.uncosted.bind producer? scope.uncosted inputs s reader path =
      p.bind producer? scope inputs s reader path := by
  simp only [Planner.bind, Scope.uncosted_require, bind_map]
  rfl

theorem uncosted_createDefine (c : Column) (older : Scope) (effective : Systematic) :
    p.uncosted.createDefine producer? d.uncosted tip c.uncosted older.uncosted effective =
      (p.createDefine producer? d tip c older effective).map pushedUncosted := by
  have hcolumn : c.uncosted.declared = c.declared.uncosted ∧ c.uncosted.name = c.name ∧
      c.uncosted.path = c.path ∧ c.uncosted.ref = c.ref := ⟨rfl, rfl, rfl, rfl⟩
  simp only [createDefine, hcolumn, Variable.uncosted_spec, uncosted_bind,
    Variable.uncosted_resolve, map_bind]
  congr 1
  funext bindings
  congr 1
  funext definition
  have hregistry : d.uncosted.registry = d.registry ∧ p.uncosted.namer = p.namer := ⟨rfl, rfl⟩
  simp only [hregistry]
  cases d.registry.assign (p.namer.physical c.name effective) c.name effective with
  | error e => rfl
  | ok registry => exact congrArg Except.ok (Draft.uncosted_push { d with registry } _ _ _ _ _ _ _)

theorem uncosted_pushFilter (place : Place) (filter : Variable) (chain : Systematic) :
    p.uncosted.pushFilter producer? d.uncosted tip place.uncosted filter.uncosted chain =
      (p.pushFilter producer? d tip place filter chain).map pushedUncosted := by
  have hscope : place.uncosted.scope = place.scope.uncosted := rfl
  simp only [pushFilter, hscope, Variable.uncosted_spec, uncosted_bind, Variable.uncosted_resolve,
    map_bind]
  congr 1
  funext bindings
  congr 1
  funext predicate
  exact congrArg Except.ok (Draft.uncosted_push d _ _ _ _ _ _ _)

theorem uncosted_pushStatistics (place : Place) (filter : ActionId) (s : Systematic)
    (weight : String) (c : Column) :
    p.uncosted.pushStatistics producer? d.uncosted tip place.uncosted filter s weight c.uncosted =
      (p.pushStatistics producer? d tip place filter s weight c).map pushedUncosted := by
  have hscope : place.uncosted.scope = place.scope.uncosted := rfl
  simp only [pushStatistics, hscope, uncosted_bind, map_bind]
  congr 1
  funext bindings
  exact congrArg Except.ok (Draft.uncosted_push d _ _ _ _ _ _ _)

theorem uncosted_pushOutput (base : ActionId) (region : String) (place : Place) (s : Systematic)
    (writer : Nat) (spec : OutputSpec) (weight : Option String) :
    p.uncosted.pushOutput producer? d.uncosted tip base region place.uncosted s writer spec weight =
      (p.pushOutput producer? d tip base region place s writer spec weight).map pushedUncosted := by
  have hscope : place.uncosted.scope = place.scope.uncosted := rfl
  simp only [pushOutput, hscope, uncosted_bind, map_bind]
  congr 1
  funext bindings
  exact congrArg Except.ok (Draft.uncosted_push d _ _ _ _ _ _ _)

theorem uncosted_datasetColumns : p.uncosted.datasetColumns = p.datasetColumns := by
  have hown (i : Nat) : ((p.uncosted.index.tree.nodes[i]?.map Node.ownVariables).getD []) =
      ((p.index.tree.nodes[i]?.map Node.ownVariables).getD []).map Variable.uncosted :=
    p.index.tree.ownVariables_uncosted i
  have hplaces : p.uncosted.index.places = p.index.places.map Place.uncosted := rfl
  simp only [datasetColumns, hplaces, List.foldl_map, hown]
  rfl

end Planner

namespace Builder

variable (p : Planner) (b : Builder)

theorem uncosted_extend (base : ActionId) (scope : Scope) (inputs : List String)
    (s : Systematic) :
    b.uncosted.extend p.uncosted base scope.uncosted inputs s =
      (b.extend p base scope inputs s).map withUncosted := by
  have hcolumn (state : Lineage × Builder) (need : Column × Scope) :
      withColumn p.uncosted s (withUncosted state) (need.1.uncosted, need.2.uncosted) =
        (withColumn p s state need).map withUncosted := by
    obtain ⟨line, b⟩ := state
    obtain ⟨c, older⟩ := need
    have heffective : c.uncosted.effective s = c.effective s ∧ c.uncosted.ref = c.ref := ⟨rfl, rfl⟩
    have htables : b.uncosted.defines = b.defines ∧ b.uncosted.toDraft = b.toDraft.uncosted :=
      ⟨rfl, rfl⟩
    simp only [withColumn, withUncosted, heffective, htables]
    cases line.producer? c.ref (c.effective s) with
    | some _ => rfl
    | none =>
        cases lookupKey (line.tip, c.ref, c.effective s) b.defines with
        | some _ => rfl
        | none =>
            simp only [Planner.uncosted_createDefine, bind_map, map_bind]
            rfl
  rw [extend, extend, Scope.uncosted_needs]
  exact foldlM_translate hcolumn _ (b.frameOf base, b)

@[simp] theorem uncosted_selection (node : Nat) (path : String) (chain : Systematic) :
    b.uncosted.selection p.uncosted node path chain = b.selection p node path chain := by
  have hposition : p.uncosted.index.position? node = p.index.position? node :=
    p.index.uncosted_position? node
  simp only [selection, hposition]
  rfl

theorem uncosted_createFilter (position : Nat) (place parent : Place) (filter : Variable)
    (chain : Systematic) :
    b.uncosted.createFilter p.uncosted position place.uncosted parent.uncosted filter.uncosted
        chain = (b.createFilter p position place parent filter chain).map uncosted := by
  have hplace : place.uncosted.path = place.path ∧ place.uncosted.scope = place.scope.uncosted ∧
      parent.uncosted.node = parent.node ∧
      parent.uncosted.chainUnder chain = parent.chainUnder chain := ⟨rfl, rfl, rfl, rfl⟩
  simp only [createFilter, hplace, uncosted_selection, Variable.uncosted_spec, uncosted_extend,
    bind_map, map_bind]
  congr 1
  funext base
  congr 1
  funext r
  obtain ⟨line, b⟩ := r
  have hdraft : b.uncosted.toDraft = b.toDraft.uncosted := rfl
  simp only [withUncosted, hdraft, Planner.uncosted_pushFilter, bind_map]
  rfl

theorem uncosted_createSource (position : Nat) (place : Place) :
    b.uncosted.createSource position place.uncosted = (b.createSource position place).uncosted := by
  have hpush := b.toDraft.uncosted_push place.node place.path .nominal none [] 0 .source
  simp only [createSource]
  change (let r := b.toDraft.uncosted.push place.node place.path .nominal none [] 0 .source
    Builder.enter { b.uncosted with toDraft := r.2 } ⟨position, .nominal⟩ ⟨r.1, []⟩) = _
  rw [hpush]
  rfl

theorem uncosted_createSelections (required : List SelectionKey) (entry : Place × Nat) :
    createSelections p.uncosted required b.uncosted (entry.1.uncosted, entry.2) =
      (createSelections p required b entry).map uncosted := by
  obtain ⟨place, position⟩ := entry
  have hplace : place.uncosted.parent = place.parent ∧
      place.uncosted.filter = place.filter.map Variable.uncosted := ⟨rfl, rfl⟩
  have hsource : p.uncosted.index.place? = fun i => (p.index.place? i).map Place.uncosted :=
    funext p.index.uncosted_place?
  have hroot : Except.ok (b.uncosted.createSource position place.uncosted) =
      (Except.ok (b.createSource position place) : Except BuildError Builder).map uncosted :=
    congrArg Except.ok (uncosted_createSource b position place)
  simp only [createSelections, hplace, hsource]
  cases place.parent with
  | none => exact hroot
  | some i =>
      cases place.filter with
      | none => exact hroot
      | some filter =>
          simp only [Option.map_some]
          cases p.index.place? i with
          | none => rfl
          | some parent =>
              simpa using foldlM_translate (h := id)
                (fun b chain => uncosted_createFilter p b position place parent filter chain)
                (SelectionKey.chainsAt required position) b

theorem uncosted_createStatistics (place : Place) (filter : ActionId) (s : Systematic)
    (weight : String) :
    b.uncosted.createStatistics p.uncosted place.uncosted filter s weight =
      (b.createStatistics p place filter s weight).map withUncosted := by
  have hplace : place.uncosted.path = place.path ∧
      place.uncosted.scope = place.scope.uncosted ∧
      Planner.weightReader place.uncosted = Planner.weightReader place := ⟨rfl, rfl, rfl⟩
  simp only [createStatistics, hplace, Scope.uncosted_require, bind_map, map_bind]
  congr 1
  funext c
  have hcolumn : c.uncosted.ref = c.ref ∧ c.uncosted.effective s = c.effective s ∧
      b.uncosted.statistics = b.statistics := ⟨rfl, rfl, rfl⟩
  simp only [hcolumn]
  cases lookupKey (filter, c.ref, c.effective s) b.statistics with
  | some id => rfl
  | none =>
      simp only [uncosted_extend, bind_map, map_bind]
      congr 1
      funext r
      obtain ⟨line, b⟩ := r
      have hdraft : b.uncosted.toDraft = b.toDraft.uncosted := rfl
      simp only [withUncosted, hdraft, Planner.uncosted_pushStatistics, bind_map]
      rfl

theorem uncosted_createOutput (region : String) (place : Place) (s : Systematic) (writer : Nat)
    (spec : OutputSpec) (weight : Option String) :
    b.uncosted.createOutput p.uncosted region place.uncosted s writer spec weight =
      (b.createOutput p region place s writer spec weight).map withUncosted := by
  have hplace : place.uncosted.node = place.node ∧ place.uncosted.path = place.path ∧
      place.uncosted.scope = place.scope.uncosted ∧
      place.uncosted.chainUnder s = place.chainUnder s := ⟨rfl, rfl, rfl, rfl⟩
  simp only [createOutput, hplace, uncosted_selection, uncosted_extend, bind_map, map_bind]
  congr 1
  funext base
  congr 1
  funext r
  obtain ⟨line, b⟩ := r
  have hdraft : b.uncosted.toDraft = b.toDraft.uncosted := rfl
  simp only [withUncosted, hdraft, Planner.uncosted_pushOutput, bind_map]
  rfl

/-! ### Regions -/

theorem uncosted_planNode (s : Systematic) (state : SystematicPlan × Builder) (node : Nat) :
    planNode p.uncosted s (withUncosted state) node =
      (planNode p s state node).map withUncosted := by
  obtain ⟨plan, b⟩ := state
  have hindex : p.uncosted.index.place? node = (p.index.place? node).map Place.uncosted :=
    p.index.uncosted_place? node
  have hweight : p.uncosted.index.tree.weight node = p.index.tree.weight node :=
    p.index.tree.uncosted_weight node
  simp only [planNode, withUncosted, hindex, hweight]
  cases p.index.place? node with
  | none => rfl
  | some place =>
      have hplace : place.uncosted.path = place.path ∧
          place.uncosted.chainUnder s = place.chainUnder s := ⟨rfl, rfl⟩
      simp only [Option.map_some, hplace, uncosted_selection, map_bind]
      congr 1
      funext filter
      cases p.index.tree.weight node with
      | none => rfl
      | some weight =>
          simp only [uncosted_createStatistics, bind_map, map_bind]
          rfl

theorem uncosted_planSystematic (target : Nat) (plans : List (Systematic × SystematicPlan))
    (s : Systematic) :
    planSystematic p.uncosted target plans b.uncosted s =
      (planSystematic p target plans b s).map withUncosted := by
  have hpath : p.uncosted.index.tree.path target = p.index.tree.path target :=
    p.index.tree.uncosted_path target
  have hnodes := foldlM_translate (h := id) (fun state node => uncosted_planNode p s state node)
    (p.index.tree.path target) ({}, b)
  rw [List.map_id] at hnodes
  rw [planSystematic, planSystematic, hpath, map_bind]
  refine (congrArg (· >>= _) hnodes).trans ?_
  rw [bind_map]
  rfl

theorem uncosted_planRegion (state : List RegionPlan × Builder) (r : AcceptedRegion) :
    planRegion p.uncosted (withUncosted state) r.uncosted =
      (planRegion p state r).map withUncosted := by
  obtain ⟨plans, b⟩ := state
  have hsystematics := foldlM_translate (h := id) (g := withUncosted)
    (f := fun state s => planSystematic p r.place.node state.1 state.2 s)
    (k := fun state s => planSystematic p.uncosted r.place.node state.1 state.2 s)
    (fun state s => uncosted_planSystematic p state.2 r.place.node state.1 s) r.systematics ([], b)
  rw [List.map_id] at hsystematics
  rw [planRegion, planRegion, map_bind]
  refine (congrArg (· >>= _) hsystematics).trans ?_
  rw [bind_map]
  rfl

theorem uncosted_addOutputs (r : AcceptedRegion) (s : Systematic) (plan : SystematicPlan) :
    addOutputs p.uncosted r.uncosted b.uncosted s plan =
      (addOutputs p r b s plan).map withUncosted := by
  have houtputs := foldlM_translate (h := id) (g := withUncosted)
    (f := fun state entry => do
      let made ← state.2.createOutput p r.name r.place s entry.2 entry.1 (r.weightOf entry.1)
      return ({ state.1 with outputs := state.1.outputs ++ [(entry.2, made.1)] }, made.2))
    (k := fun state entry => do
      let made ← state.2.createOutput p.uncosted r.name r.place.uncosted s entry.2 entry.1
        (r.weightOf entry.1)
      return ({ state.1 with outputs := state.1.outputs ++ [(entry.2, made.1)] }, made.2))
    (fun state entry => by
      simp only [withUncosted, id, uncosted_createOutput, bind_map, map_bind]
      rfl) r.outputs.zipIdx (plan, b)
  rw [List.map_id] at houtputs
  exact houtputs

theorem uncosted_outputRegion (state : List RegionPlan × Builder)
    (entry : AcceptedRegion × RegionPlan) :
    outputRegion p.uncosted (withUncosted state) (entry.1.uncosted, entry.2) =
      (outputRegion p state entry).map withUncosted := by
  obtain ⟨plans, b⟩ := state
  obtain ⟨r, plan⟩ := entry
  have hsystematics := foldlM_translate (h := id) (g := withUncosted)
    (f := fun state entry => do
      let added ← addOutputs p r state.2 entry.1 entry.2
      return (state.1 ++ [(entry.1, added.1)], added.2))
    (k := fun state entry => do
      let added ← addOutputs p.uncosted r.uncosted state.2 entry.1 entry.2
      return (state.1 ++ [(entry.1, added.1)], added.2))
    (fun state entry => by
      simp only [withUncosted, id, uncosted_addOutputs, bind_map, map_bind]
      rfl) plan.systematics ([], b)
  rw [List.map_id] at hsystematics
  rw [outputRegion, outputRegion, map_bind]
  refine (congrArg (· >>= _) hsystematics).trans ?_
  rw [bind_map]
  rfl

theorem uncosted_planAll (regions : List AcceptedRegion) :
    planAll p.uncosted (regions.map AcceptedRegion.uncosted) =
      (planAll p regions).map withUncosted := by
  have hrequired : p.uncosted.index.requirements (regions.map AcceptedRegion.uncosted) =
      p.index.requirements regions := p.index.uncosted_requirements regions
  have hplaces : p.uncosted.index.places.zipIdx =
      p.index.places.zipIdx.map fun entry => (entry.1.uncosted, entry.2) :=
    List.zipIdx_map ..
  rw [planAll, planAll, hrequired, hplaces, Planner.uncosted_datasetColumns, map_bind]
  congr 1
  funext required
  have hselections := foldlM_translate (fun b entry => uncosted_createSelections p b required entry)
    p.index.places.zipIdx { registry := p.datasetColumns }
  rw [map_bind]
  refine (congrArg (· >>= _) hselections).trans ?_
  rw [bind_map]
  congr 1
  funext b
  have hplans := foldlM_translate (fun state r => uncosted_planRegion p state r) regions ([], b)
  rw [map_bind]
  refine (congrArg (· >>= _) hplans).trans ?_
  rw [bind_map]
  congr 1
  funext r
  obtain ⟨plans, b⟩ := r
  have hzip : (regions.map AcceptedRegion.uncosted).zip plans =
      (regions.zip plans).map fun entry => (entry.1.uncosted, entry.2) := by
    rw [List.zip_map_left]
    rfl
  simp only [withUncosted, hzip]
  exact foldlM_translate (fun state entry => uncosted_outputRegion p state entry)
    (regions.zip plans) ([], b)

end Builder

/-! ### Graphs -/

theorem closure_uncosted (actions : List Action) (id : ActionId) :
    closure (actions.map Action.uncosted) id = closure actions id := by
  have hdependencies (ids : List ActionId) :
      withDependencies (actions.map Action.uncosted) ids = withDependencies actions ids := by
    simp only [withDependencies, List.getElem?_map, Option.map_map]
    rfl
  have hwithin (rounds : Nat) (ids : List ActionId) :
      closureWithin (actions.map Action.uncosted) rounds ids =
        closureWithin actions rounds ids := by
    induction rounds generalizing ids with
    | zero => rfl
    | succ rounds ih => simp only [closureWithin, hdependencies, ih]
  rw [closure, closure, hwithin, List.map_map]
  rfl

theorem assignConsumers_uncosted (plans : List RegionPlan) (actions : List Action) :
    assignConsumers plans (actions.map Action.uncosted) =
      (assignConsumers plans actions).map Action.uncosted := by
  simp only [assignConsumers, RegionPlan.needed, funext (closure_uncosted actions), List.map_map]
  rfl

section Checks

variable {ω : Type}

theorem checkRegions_uncosted (t : SelectionTree) (seen : List String)
    (regions : List (Region ω)) :
    checkRegions t.uncosted seen regions = checkRegions t seen regions := by
  induction regions generalizing seen with
  | nil => rfl
  | cons r rest ih => simp only [checkRegions, SelectionTree.uncosted_contains, ih]

theorem checkNames_uncosted (index : ScopeIndex) (namer : Namer) :
    checkNames index.uncosted namer = checkNames index namer := by
  have hown (i : Nat) : (index.uncosted.tree.nodes[i]?.map Node.ownVariables).getD [] =
      ((index.tree.nodes[i]?.map Node.ownVariables).getD []).map Variable.uncosted :=
    index.tree.ownVariables_uncosted i
  rw [checkNames, checkNames, ScopeIndex.uncosted_allSystematics]
  refine congrArg (_ >>= fun _ => ·) (forM_translate (fun place => ?_) index.places)
  change ((index.uncosted.tree.nodes[place.node]?.map Node.ownVariables).getD []).forM _ = _
  rw [hown]
  exact forM_translate (fun _ => rfl) _

theorem acceptRegions_uncosted (index : ScopeIndex) (policy : UnknownSystematicPolicy)
    (regions : List (Region ω)) :
    acceptRegions index.uncosted policy regions =
      (acceptRegions index policy regions).map fun r =>
        (r.1.map AcceptedRegion.uncosted, r.2) := by
  induction regions with
  | nil => rfl
  | cons r rest ih =>
      have hunknown (place : Place) :
          unknownSystematic? index.uncosted r place.uncosted =
            unknownSystematic? index r place := by
        simp only [unknownSystematic?, ScopeIndex.uncosted_known]
        rfl
      have hweight (i : Nat) : index.uncosted.tree.weight i = index.tree.weight i :=
        index.tree.uncosted_weight i
      simp only [acceptRegions, ScopeIndex.uncosted_place?, ih]
      cases index.place? r.target.index with
      | none => rfl
      | some place =>
          simp only [Option.map_some, hunknown, hweight, bind_map]
          cases unknownSystematic? index r place with
          | none =>
              simp only [map_bind]
              rfl
          | some e =>
              cases policy with
              | fail => rfl
              | skipRegion =>
                  simp only [map_bind]
                  rfl

theorem checkColumns_uncosted (r : AcceptedRegion) : r.uncosted.checkColumns = r.checkColumns := by
  have hlookup (column : String) : (r.uncosted.place.scope.lookup column).isSome =
      (r.place.scope.lookup column).isSome := by
    rw [show r.uncosted.place.scope = r.place.scope.uncosted from rfl, Scope.uncosted_lookup,
      Option.isSome_map]
  simp only [AcceptedRegion.checkColumns, hlookup]
  rfl

end Checks

/-- Without costs the same is planned at no cost. -/
theorem ActionGraph.build_uncosted {ω : Type} {t : SelectionTree} {namer : Namer}
    {options : BuildOptions} {regions : List (Region ω)}
    (hcost : Variable.isCost options.defaultCost = true) :
    build t.uncosted namer { options with defaultCost := 0 } regions =
      (build t namer options regions).map ActionGraph.uncosted := by
  have hzero : Variable.isCost 0 = true := by decide
  simp only [build, hzero, hcost, Bool.not_true, Bool.false_eq_true, if_false,
    checkRegions_uncosted, ScopeIndex.build_uncosted, bind_map, map_bind, checkNames_uncosted,
    acceptRegions_uncosted]
  congr 1
  funext _
  congr 1
  funext index
  cases checkNames index namer with
  | error e => rfl
  | ok _ =>
      simp only [map_bind]
      congr 1
      funext r
      obtain ⟨accepted, skipped⟩ := r
      have hplanner : (⟨index.uncosted, namer, 0⟩ : Planner) =
        (⟨index, namer, options.defaultCost⟩ : Planner).uncosted := rfl
      simp only [forM_translate checkColumns_uncosted, hplanner, Builder.uncosted_planAll,
        bind_map]
      congr 1
      funext _
      congr 1
      funext r
      obtain ⟨plans, b⟩ := r
      simp only [withUncosted, Builder.uncosted, Draft.uncosted, assignConsumers_uncosted]
      rfl

end SelectionPlan
