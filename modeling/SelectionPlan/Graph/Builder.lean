import SelectionPlan.Graph.Requirement
/-!
# Planning the actions of some regions

Filters are created in preorder, each once for every systematic that some region runs its node on.
Each filter, output and statistics action reads its columns from a chain of definitions on top of
the filter above it.  The chain holds the computed columns it reads and no others, and actions that
start from the same frame share its definitions.  A variation runs on the nominal selection up to
the first filter it can change.  What is there already is told from tables.
-/

namespace SelectionPlan

/-- The frame at the end of a lineage and the columns computed along the lineage. -/
structure Lineage where
  tip : ActionId
  produced : List ((ColumnRef × Systematic) × ActionId) := []

namespace Lineage

def producer? (line : Lineage) (column : ColumnRef) (s : Systematic) : Option ActionId :=
  lookupKey (column, s) line.produced

def extend (line : Lineage) (column : ColumnRef) (s : Systematic) (id : ActionId) : Lineage :=
  ⟨id, ((column, s), id) :: line.produced⟩

end Lineage

/-- A graph under construction, with tables of what has been created. -/
structure Builder extends Draft where
  /-- The lineage of every selection. -/
  frames : List (ActionId × Lineage) := []
  filters : List (SelectionKey × ActionId) := []
  /-- The computed columns by the frame they are put behind. -/
  defines : List ((ActionId × ColumnRef × Systematic) × ActionId) := []
  /-- The sums of a weight column by the selection they are taken over. -/
  statistics : List ((ActionId × ColumnRef × Systematic) × ActionId) := []

namespace Builder

def frameOf (b : Builder) (base : ActionId) : Lineage := (lookupKey base b.frames).getD ⟨base, []⟩

variable (p : Planner)

def selection (b : Builder) (node : Nat) (path : String) (chain : Systematic) :
    Except BuildError ActionId :=
  match p.index.position? node with
  | none => .error .foreignNode
  | some position =>
    match lookupKey ⟨position, chain⟩ b.filters with
    | some id => .ok id
    | none => .error (Planner.missingSelection path chain)

/-- The lineage that has a column for the systematic in effect under `s`: the given one if it has
the column already, and otherwise the one that a definition behind it gives. -/
def withColumn (s : Systematic) (state : Lineage × Builder) (need : Column × Scope) :
    Except BuildError (Lineage × Builder) :=
  let (line, b) := state
  let (c, older) := need
  let effective := c.effective s
  match line.producer? c.ref effective with
  | some _ => .ok (line, b)
  | none =>
    match lookupKey (line.tip, c.ref, effective) b.defines with
    | some id => .ok (line.extend c.ref effective id, b)
    | none => do
      let (id, d) ← p.createDefine line.producer? b.toDraft line.tip c older effective
      let defines := ((line.tip, c.ref, effective), id) :: b.defines
      return (line.extend c.ref effective id, { b with toDraft := d, defines })

def extend (b : Builder) (base : ActionId) (scope : Scope) (inputs : List String)
    (s : Systematic) : Except BuildError (Lineage × Builder) :=
  (scope.needs s inputs).foldlM (withColumn p s) (b.frameOf base, b)

def enter (b : Builder) (key : SelectionKey) (line : Lineage) : Builder :=
  { b with frames := (line.tip, line) :: b.frames, filters := (key, line.tip) :: b.filters }

def createFilter (b : Builder) (position : Nat) (place parent : Place) (filter : Variable)
    (chain : Systematic) : Except BuildError Builder := do
  let base ← b.selection p parent.node place.path (parent.chainUnder chain)
  let (line, b) ← b.extend p base place.scope (filter.spec chain).inputs chain
  let (id, d) ← p.pushFilter line.producer? b.toDraft line.tip place filter chain
  return { b with toDraft := d }.enter ⟨position, chain⟩ ⟨id, line.produced⟩

/-- Adds the source, which stands in for the selection of the root. -/
def createSource (b : Builder) (position : Nat) (place : Place) : Builder :=
  let (id, d) := b.toDraft.push place.node place.path .nominal none [] 0 .source
  { b with toDraft := d }.enter ⟨position, .nominal⟩ ⟨id, []⟩

def createSelections (required : List SelectionKey) (b : Builder) (entry : Place × Nat) :
    Except BuildError Builder :=
  let (place, position) := entry
  match place.parent, place.filter with
  | some parent, some filter =>
    match p.index.place? parent with
    | none => .error .foreignNode
    | some parent => (SelectionKey.chainsAt required position).foldlM
        (fun b chain => b.createFilter p position place parent filter chain) b
  | _, _ => .ok (b.createSource position place)

def createStatistics (b : Builder) (place : Place) (filter : ActionId) (s : Systematic)
    (weight : String) : Except BuildError (ActionId × Builder) := do
  let c ← place.scope.require weight (Planner.weightReader place) place.path
  let key := (filter, c.ref, c.effective s)
  match lookupKey key b.statistics with
  | some id => return (id, b)
  | none =>
    let (line, b) ← b.extend p filter place.scope [weight] s
    let (id, d) ← p.pushStatistics line.producer? b.toDraft line.tip place filter s weight c
    return (id, { b with toDraft := d, statistics := (key, id) :: b.statistics })

def createOutput (b : Builder) (region : String) (place : Place) (s : Systematic) (writer : Nat)
    (spec : OutputSpec) (weight : Option String) : Except BuildError (ActionId × Builder) := do
  let base ← b.selection p place.node place.path (place.chainUnder s)
  let (line, b) ← b.extend p base place.scope (spec.columns ++ weight.toList) s
  let (id, d) ←
    p.pushOutput line.producer? b.toDraft line.tip base region place s writer spec weight
  return (id, { b with toDraft := d })

def planNode (s : Systematic) (state : SystematicPlan × Builder) (node : Nat) :
    Except BuildError (SystematicPlan × Builder) := do
  let (plan, b) := state
  match p.index.place? node with
  | none => throw .foreignNode
  | some place =>
    let filter ← b.selection p node place.path (place.chainUnder s)
    let plan := { plan with filters := plan.filters ++ [(node, filter)] }
    match p.index.tree.weight node with
    | none => return (plan, b)
    | some weight =>
      let (statistics, b) ← b.createStatistics p place filter s weight
      return ({ plan with statistics := plan.statistics ++ [(node, statistics)] }, b)

def planSystematic (target : Nat) (plans : List (Systematic × SystematicPlan)) (b : Builder)
    (s : Systematic) : Except BuildError (List (Systematic × SystematicPlan) × Builder) := do
  let (plan, b) ← (p.index.tree.path target).foldlM (planNode p s) ({}, b)
  return (plans ++ [(s, plan)], b)

def planRegion (state : List RegionPlan × Builder) (r : AcceptedRegion) :
    Except BuildError (List RegionPlan × Builder) := do
  let (plans, b) := state
  let (systematics, b) ← r.systematics.foldlM
    (fun (plans, b) s => planSystematic p r.place.node plans b s) ([], b)
  return (plans ++ [⟨r.name, r.place.node, systematics⟩], b)

def addOutputs (r : AcceptedRegion) (b : Builder) (s : Systematic) (plan : SystematicPlan) :
    Except BuildError (SystematicPlan × Builder) :=
  r.outputs.zipIdx.foldlM (fun (plan, b) (spec, writer) => do
    let (id, b) ← b.createOutput p r.name r.place s writer spec (r.weightOf spec)
    return ({ plan with outputs := plan.outputs ++ [(writer, id)] }, b)) (plan, b)

def outputRegion (state : List RegionPlan × Builder) (entry : AcceptedRegion × RegionPlan) :
    Except BuildError (List RegionPlan × Builder) := do
  let (plans, b) := state
  let (r, plan) := entry
  let (systematics, b) ← plan.systematics.foldlM (fun (done, b) (s, plan) => do
    let (plan, b) ← addOutputs p r b s plan
    return (done ++ [(s, plan)], b)) ([], b)
  return (plans ++ [{ plan with systematics }], b)

/-- Creates the selections that some regions require, then their statistics, then their outputs. -/
def planAll (regions : List AcceptedRegion) : Except BuildError (List RegionPlan × Builder) := do
  let required ← p.index.requirements regions
  let start : Builder := { registry := p.datasetColumns }
  let b ← p.index.places.zipIdx.foldlM (createSelections p required) start
  let (plans, b) ← regions.foldlM (planRegion p) ([], b)
  (regions.zip plans).foldlM (outputRegion p) ([], b)

end Builder
end SelectionPlan
