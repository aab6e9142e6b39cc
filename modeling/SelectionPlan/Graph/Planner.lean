import SelectionPlan.Graph.Action
import SelectionPlan.Naming.Registry
/-!
# Planned actions

What goes into an action: the physical columns of the names it reads, the actions that compute these
columns, and the definition or request that is made of them.
-/

namespace SelectionPlan

structure Planner where
  index : ScopeIndex
  namer : Namer
  defaultCost : Float

structure Draft where
  actions : List Action := []
  registry : NameRegistry := {}

structure Binding where
  input : String
  physical : String
  producer : Option ActionId
  deriving DecidableEq, Repr

/-- The computed columns among `wanted` and among what they read in turn, each with the scope it
was defined in.  Older columns come first, so that every column follows the ones it reads. -/
def Scope.needs (s : Systematic) : Scope → (wanted : List String) → List (Column × Scope)
  | [], _ => []
  | c :: older, wanted =>
    if c.name ∈ wanted then
      let others := wanted.filter fun name => name != c.name
      if c.isComputed s then Scope.needs s older ((c.specUnder s).inputs ++ others) ++ [(c, older)]
      else Scope.needs s older others
    else Scope.needs s older wanted

/-- Appends an action; it depends on its input in any case. -/
def Draft.push (d : Draft) (node : Nat) (path : String) (systematic : Systematic)
    (input : Option ActionId) (dependencies : List ActionId) (cost : Float)
    (operation : Operation) : ActionId × Draft :=
  let id := d.actions.length
  let dependencies := unionDistinct input.toList dependencies
  let action : Action := { id, node, path, systematic, input, dependencies, cost, operation }
  (id, { d with actions := d.actions ++ [action] })

structure AcceptedRegion where
  name : String
  place : Place
  systematics : List Systematic
  outputs : List OutputSpec
  /-- The weight of the target, for writers without one of their own. -/
  nodeWeight : Option String

namespace AcceptedRegion

def weightOf (r : AcceptedRegion) (spec : OutputSpec) : Option String :=
  spec.weight.or r.nodeWeight

def checkColumns (r : AcceptedRegion) : Except BuildError Unit :=
  r.systematics.forM fun s => r.outputs.forM fun spec =>
    (spec.columns ++ (r.weightOf spec).toList).forM fun column =>
      if (r.place.scope.lookup column).isSome then .ok ()
      else .error (.unresolved column (r.name ++ "/" ++ spec.name) s r.place.path)

end AcceptedRegion

namespace Planner

/-- The physical columns of some inputs that are read under `s`, where `producer?` tells which
action computes a column. -/
def bind (p : Planner) (producer? : ColumnRef → Systematic → Option ActionId) (scope : Scope)
    (inputs : List String) (s : Systematic) (reader path : String) :
    Except BuildError (List Binding) :=
  inputs.mapM fun input => do
    let c ← scope.require input reader path
    let effective := c.effective s
    let physical := c.physical p.namer effective
    if c.isComputed s then
      match producer? c.ref effective with
      | some producer => return ⟨input, physical, some producer⟩
      | none => throw (.notProduced input reader effective c.path)
    else return ⟨input, physical, none⟩

def boundName (bindings : List Binding) (input : String) : Option String :=
  (bindings.find? fun b => b.input == input).map Binding.physical

def producers (bindings : List Binding) : List ActionId :=
  sortDistinct (bindings.filterMap Binding.producer)

variable (p : Planner) (producer? : ColumnRef → Systematic → Option ActionId) (d : Draft)
  (tip : ActionId)

def createDefine (c : Column) (older : Scope) (effective : Systematic) :
    Except BuildError (ActionId × Draft) := do
  let inputs := (c.declared.spec effective).inputs
  let bindings ← p.bind producer? older inputs effective c.name c.path
  let definition ← c.declared.resolve effective (boundName bindings) c.path
  let column := p.namer.physical c.name effective
  match d.registry.assign column c.name effective with
  | .error e => throw (.naming e)
  | .ok registry =>
    return { d with registry }.push c.ref.node c.path effective (some tip) (producers bindings)
      (c.declared.cost.getD p.defaultCost) (.define c.ref.slot column c.name definition)

def pushFilter (place : Place) (filter : Variable) (chain : Systematic) :
    Except BuildError (ActionId × Draft) := do
  let inputs := (filter.spec chain).inputs
  let bindings ← p.bind producer? place.scope inputs chain place.name place.path
  let predicate ← filter.resolve chain (boundName bindings) place.path
  return d.push place.node place.path chain (some tip) (producers bindings)
    (filter.cost.getD p.defaultCost) (.filter predicate)

def weightReader (place : Place) : String := "weight of " ++ place.path

def pushStatistics (place : Place) (filter : ActionId) (s : Systematic) (weight : String)
    (c : Column) : Except BuildError (ActionId × Draft) := do
  let bindings ← p.bind producer? place.scope [weight] s (weightReader place) place.path
  let request : Request := { weight := boundName bindings weight }
  return d.push place.node place.path (place.chainUnder s) (some tip)
    (insertDistinct filter (producers bindings)) 0
    (.statistics filter c.ref (c.effective s) request)

def pushOutput (base : ActionId) (region : String) (place : Place) (s : Systematic)
    (writer : Nat) (spec : OutputSpec) (weight : Option String) :
    Except BuildError (ActionId × Draft) := do
  let reader := region ++ "/" ++ spec.name
  let requested := spec.columns ++ weight.toList
  let bindings ← p.bind producer? place.scope requested s reader place.path
  let request : Request :=
    { columns := spec.columns.filterMap fun c => (boundName bindings c).map fun q => (c, q)
      weight := weight.bind (boundName bindings) }
  return d.push place.node place.path s (some tip) (insertDistinct base (producers bindings)) 0
    (.output region writer spec.name request)

def missingSelection (path : String) (s : Systematic) : BuildError :=
  .notProduced "<filter chain>" path s path

def datasetColumns (p : Planner) : NameRegistry :=
  let ofSpec (name : String) (r : NameRegistry) : Specification → NameRegistry
    | .branch column => r.addDataset column name
    | _ => r
  let ofVariable (r : NameRegistry) (v : Variable) : NameRegistry :=
    v.specs.foldl (ofSpec v.name) r
  let ofPlace (r : NameRegistry) (place : Place) : NameRegistry :=
    ((p.index.tree.nodes[place.node]?.map Node.ownVariables).getD []).foldl ofVariable r
  p.index.places.foldl ofPlace {}

end Planner
end SelectionPlan
