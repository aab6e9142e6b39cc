import SelectionPlan.Graph.Builder
/-!
# Building the graph of some regions

The regions and the names of the tree are checked first, then the actions are planned, and every
action is noted with the regions that need it.
-/

namespace SelectionPlan

inductive UnknownSystematicPolicy
  /-- Plan nothing. -/
  | fail
  | skipRegion
  deriving DecidableEq, Repr

structure BuildOptions where
  /-- The cost of filters and columns that come without one. -/
  defaultCost : Float := 1
  onUnknownSystematic : UnknownSystematicPolicy := .fail
  deriving Repr

namespace RegionPlan

def needed (plan : RegionPlan) (actions : List Action) : List ActionId :=
  let roots := plan.systematics.flatMap fun (_, p) => p.roots
  sortDistinct (roots.flatMap (closure actions))

end RegionPlan

def assignConsumers (plans : List RegionPlan) (actions : List Action) : List Action :=
  let needs := plans.map fun plan => (plan.name, plan.needed actions)
  actions.map fun a =>
    { a with consumers := (needs.filter fun (_, ids) => decide (a.id ∈ ids)).map Prod.fst }

def isRegionName (name : String) : Bool :=
  name != "" && !name.toList.contains '/' && name != rootName

/-- Requires regions in order to have proper names, all different, and targets in the tree. -/
def checkRegions {ω : Type} (t : SelectionTree) : List String → List (Region ω) →
    Except BuildError Unit
  | _, [] => .ok ()
  | seen, r :: rest =>
    if !isRegionName r.name then .error (.invalidRegion r.name)
    else if r.name ∈ seen then .error (.duplicateRegion r.name)
    else if !t.contains r.target then .error (.foreignTarget r.name)
    else checkRegions t (r.name :: seen) rest

def checkNames (index : ScopeIndex) (namer : Namer) : Except NamingError Unit := do
  index.allSystematics.forM namer.checkSystematic
  index.places.forM fun place =>
    ((index.tree.nodes[place.node]?.map Node.ownVariables).getD []).forM fun v =>
      namer.checkLogical v.name

def unknownSystematic? {ω : Type} (index : ScopeIndex) (r : Region ω) (place : Place) :
    Option BuildError :=
  let known := index.known place
  r.systematics.findSome? fun s =>
    match s with
    | .variation name =>
      if name ∈ known then none else some (.unknownSystematic r.name name place.path)
    | .nominal => none

def acceptRegions {ω : Type} (index : ScopeIndex) (policy : UnknownSystematicPolicy) :
    List (Region ω) → Except BuildError (List AcceptedRegion × List SkippedRegion)
  | [] => .ok ([], [])
  | r :: rest =>
    match index.place? r.target.index with
    | none => .error (.foreignTarget r.name)
    | some place =>
      match unknownSystematic? index r place, policy with
      | some e, .fail => .error e
      | some e, .skipRegion => do
        let (accepted, skipped) ← acceptRegions index policy rest
        return (accepted, ⟨r.name, e⟩ :: skipped)
      | none, _ => do
        let (accepted, skipped) ← acceptRegions index policy rest
        let nodeWeight := index.tree.weight place.node
        let outputs := r.writers.map Writer.toOutputSpec
        return (⟨r.name, place, r.systematics, outputs, nodeWeight⟩ :: accepted, skipped)

namespace ActionGraph

/-- Plans the actions of some regions over a tree.  The order of the regions does not matter. -/
def build {ω : Type} (t : SelectionTree) (namer : Namer) (options : BuildOptions)
    (regions : List (Region ω)) : Except BuildError ActionGraph := do
  if !Variable.isCost options.defaultCost then
    throw (.invalidCost "default cost" options.defaultCost)
  let regions := sortStable (fun a b => decide (a.name < b.name)) regions
  checkRegions t [] regions
  let index ← ScopeIndex.build t
  match checkNames index namer with
  | .error e => throw (.naming e)
  | .ok () => pure ()
  let (accepted, skipped) ← acceptRegions index options.onUnknownSystematic regions
  accepted.forM AcceptedRegion.checkColumns
  let planner : Planner := ⟨index, namer, options.defaultCost⟩
  let (plans, b) ← Builder.planAll planner accepted
  return ⟨assignConsumers plans b.actions, plans, skipped⟩

end ActionGraph
end SelectionPlan
