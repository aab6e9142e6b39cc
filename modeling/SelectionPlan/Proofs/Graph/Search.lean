import SelectionPlan.Graph.Build

/-!
# Planning by search

What has been created can also be looked for among the actions themselves: a selection by its node,
a computed column along the lineage of a frame or right behind it, sums by what they are taken over.
Planning in this way needs no tables, and the selections that regions need can be told from their
paths.
-/

namespace SelectionPlan

namespace Draft

def selection? (d : Draft) (node : Nat) (s : Systematic) : Option ActionId :=
  d.actions.findIdx? fun a => a.selects node s

def producer? (d : Draft) (tip : ActionId) (column : ColumnRef) (s : Systematic) :
    Option ActionId :=
  ((lineage d.actions tip).find? fun a => a.computes column s).map Action.id

def extension? (d : Draft) (tip : ActionId) (column : ColumnRef) (s : Systematic) :
    Option ActionId :=
  d.actions.findIdx? fun a => a.input == some tip && a.computes column s

def statistics? (d : Draft) (filter : ActionId) (weight : ColumnRef) (s : Systematic) :
    Option ActionId :=
  d.actions.findIdx? fun a => a.sums filter weight s

end Draft

namespace Planner

/-- The frame that has a column for the systematic in effect under `s`: the given one if it has
the column already, and otherwise the one a definition behind it gives. -/
def withColumn (p : Planner) (s : Systematic) (state : ActionId × Draft)
    (need : Column × Scope) : Except BuildError (ActionId × Draft) :=
  let (tip, d) := state
  let (c, older) := need
  let effective := c.effective s
  match d.producer? tip c.ref effective with
  | some _ => .ok (tip, d)
  | none =>
    match d.extension? tip c.ref effective with
    | some id => .ok (id, d)
    | none => p.createDefine (d.producer? tip) d tip c older effective

def extend (p : Planner) (d : Draft) (base : ActionId) (scope : Scope) (inputs : List String)
    (s : Systematic) : Except BuildError (ActionId × Draft) :=
  (scope.needs s inputs).foldlM (p.withColumn s) (base, d)

def selection (d : Draft) (node : Nat) (path : String) (s : Systematic) :
    Except BuildError ActionId :=
  match d.selection? node s with
  | some id => .ok id
  | none => .error (missingSelection path s)

def createFilter (p : Planner) (d : Draft) (place : Place) (parent : Place) (filter : Variable)
    (chain : Systematic) : Except BuildError Draft := do
  let base ← selection d parent.node place.path (parent.chainUnder chain)
  let (tip, d) ← p.extend d base place.scope (filter.spec chain).inputs chain
  let (_, d) ← p.pushFilter (d.producer? tip) d tip place filter chain
  return d

/-- Adds the selections of a place under the given systematics.  The root has the source. -/
def createSelections (p : Planner) (chains : List Systematic) (d : Draft) (place : Place) :
    Except BuildError Draft :=
  match place.parent, place.filter with
  | some parent, some filter =>
    match p.index.place? parent with
    | none => .error .foreignNode
    | some parent => chains.foldlM (fun d chain => p.createFilter d place parent filter chain) d
  | _, _ => .ok (d.push place.node place.path .nominal none [] 0 .source).2

def createStatistics (p : Planner) (d : Draft) (place : Place) (filter : ActionId)
    (s : Systematic) (weight : String) : Except BuildError (ActionId × Draft) := do
  let c ← place.scope.require weight (weightReader place) place.path
  match d.statistics? filter c.ref (c.effective s) with
  | some id => return (id, d)
  | none =>
    let (tip, d) ← p.extend d filter place.scope [weight] s
    p.pushStatistics (d.producer? tip) d tip place filter s weight c

def planNode (p : Planner) (s : Systematic) (state : SystematicPlan × Draft) (node : Nat) :
    Except BuildError (SystematicPlan × Draft) := do
  let (plan, d) := state
  match p.index.place? node with
  | none => throw .foreignNode
  | some place =>
    let filter ← selection d node place.path (place.chainUnder s)
    let plan := { plan with filters := plan.filters ++ [(node, filter)] }
    match p.index.tree.weight node with
    | none => return (plan, d)
    | some weight =>
      let (statistics, d) ← p.createStatistics d place filter s weight
      return ({ plan with statistics := plan.statistics ++ [(node, statistics)] }, d)

def planSystematic (p : Planner) (target : Nat) (plans : List (Systematic × SystematicPlan))
    (d : Draft) (s : Systematic) :
    Except BuildError (List (Systematic × SystematicPlan) × Draft) := do
  let (plan, d) ← (p.index.tree.path target).foldlM (p.planNode s) ({}, d)
  return (plans ++ [(s, plan)], d)

def createOutput (p : Planner) (d : Draft) (region : String) (place : Place) (s : Systematic)
    (writer : Nat) (spec : OutputSpec) (weight : Option String) :
    Except BuildError (ActionId × Draft) := do
  let base ← selection d place.node place.path (place.chainUnder s)
  let (tip, d) ← p.extend d base place.scope (spec.columns ++ weight.toList) s
  p.pushOutput (d.producer? tip) d tip base region place s writer spec weight

/-- The systematics in effect at a place on which some region selects its events, ascending. -/
def chainsAt (p : Planner) (regions : List AcceptedRegion) (place : Place) : List Systematic :=
  let below := regions.filter fun r => decide (place.node ∈ p.index.tree.path r.place.node)
  sortDistinct (below.flatMap fun r => r.systematics.map place.chainUnder)

def planRegion (p : Planner) (state : List RegionPlan × Draft) (r : AcceptedRegion) :
    Except BuildError (List RegionPlan × Draft) := do
  let (plans, d) := state
  let (systematics, d) ← r.systematics.foldlM
    (fun (plans, d) s => p.planSystematic r.place.node plans d s) ([], d)
  return (plans ++ [⟨r.name, r.place.node, systematics⟩], d)

def addOutputs (p : Planner) (r : AcceptedRegion) (d : Draft) (s : Systematic)
    (plan : SystematicPlan) : Except BuildError (SystematicPlan × Draft) :=
  r.outputs.zipIdx.foldlM (fun (plan, d) (spec, writer) => do
    let (id, d) ← p.createOutput d r.name r.place s writer spec (r.weightOf spec)
    return ({ plan with outputs := plan.outputs ++ [(writer, id)] }, d)) (plan, d)

def outputRegion (p : Planner) (state : List RegionPlan × Draft)
    (entry : AcceptedRegion × RegionPlan) : Except BuildError (List RegionPlan × Draft) := do
  let (plans, d) := state
  let (r, plan) := entry
  let (systematics, d) ← plan.systematics.foldlM (fun (done, d) (s, plan) => do
    let (plan, d) ← p.addOutputs r d s plan
    return (done ++ [(s, plan)], d)) ([], d)
  return (plans ++ [{ plan with systematics }], d)

def planAll (p : Planner) (regions : List AcceptedRegion) :
    Except BuildError (List RegionPlan × Draft) := do
  let start : Draft := { registry := p.datasetColumns }
  let d ← p.index.places.foldlM (fun d place =>
    p.createSelections (p.chainsAt regions place) d place) start
  let (plans, d) ← regions.foldlM p.planRegion ([], d)
  (regions.zip plans).foldlM p.outputRegion ([], d)

end Planner
end SelectionPlan
