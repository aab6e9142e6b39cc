import SelectionPlan.Tree.Basic
/-!
# Growing a selection tree

Nodes and variables are only ever added.  A variable may not take a name that is visible where it
is defined.
-/

namespace SelectionPlan

inductive WeightStrategy
  | multiplicative
  | replace
  deriving DecidableEq, Repr

namespace WeightStrategy

def ofText? : String → Option WeightStrategy
  | "multiplicative" => some .multiplicative
  | "replace" => some .replace
  | _ => none

def unknownMessage (text : String) : String :=
  "unknown weight strategy '" ++ text ++ "' (multiplicative|replace)"

end WeightStrategy

namespace SelectionTree

def modify (t : SelectionTree) (index : Nat) (f : Node → Node) : SelectionTree :=
  { t with nodes := t.nodes.modify index f }

def addChild (t : SelectionTree) (parent : NodeId) (name : String) (filter : Variable)
    (label : Option String) : Except BuildError (NodeId × SelectionTree) := do
  if name = "" ∨ '/' ∈ name.toList then throw (.invalidNode name .badName)
  if name = rootName then throw (.invalidNode name .reservedName)
  filter.checkCost
  let _ ← t.node parent
  if (t.child? parent.index name).isSome then throw (.invalidNode name .siblingExists)
  let node : Node := { name, attachment := some ⟨parent.index, filter⟩, label }
  return (t.handle t.size, { t with nodes := t.nodes ++ [node] })

def isVisible (t : SelectionTree) (index : Nat) (name : String) : Bool :=
  (t.path index).any fun i => (t.nodes[i]?.map fun n => n.defines name).getD false

def define (t : SelectionTree) (n : NodeId) (v : Variable) : Except BuildError SelectionTree := do
  v.checkCost
  let _ ← t.node n
  if t.isVisible n.index v.name then
    throw (.naming (.duplicateDefinition v.name (t.pathText n.index)))
  return t.modify n.index fun node => { node with ownVariables := node.ownVariables ++ [v] }

def inheritedWeight (t : SelectionTree) (index : Nat) : Option String :=
  (t.parent? index).bind t.weight

def assignWeight (t : SelectionTree) (index : Nat) (column : String) : SelectionTree :=
  t.modify index fun node => { node with weight := some column }

/-- Weighs the events from a node down by a factor, which is defined at the node.  When the factor
multiplies an inherited weight, the product becomes a further variable of the node.  The tree comes
with the outcome, because the factor stays defined even if the product cannot be. -/
def setWeight (t : SelectionTree) (n : NodeId) (factor : Variable) (strategy : WeightStrategy) :
    Except BuildError Unit × SelectionTree :=
  match t.node n with
  | .error e => (.error e, t)
  | .ok node =>
    if node.weight.isSome then (.error (.invalidNode node.name .weightAlreadySet), t)
    else
      match t.define n factor with
      | .error e => (.error e, t)
      | .ok weighted =>
        match strategy, t.inheritedWeight n.index with
        | .multiplicative, some inherited =>
          let total := "weight_" ++ node.name
          match weighted.define n (.product total inherited factor.name) with
          | .error e => (.error e, weighted)
          | .ok both => (.ok (), both.assignWeight n.index total)
        | _, _ => (.ok (), weighted.assignWeight n.index factor.name)

def declareSystematic (t : SelectionTree) (name : String) : SelectionTree :=
  { t with systematics := insertDistinct name t.systematics }

structure SchemaColumn where
  logical : String
  systematic : Systematic
  physical : String
  deriving DecidableEq, Repr

def SchemaColumn.before (a b : SchemaColumn) : Bool :=
  decide (a.systematic < b.systematic) ||
    (a.systematic == b.systematic && decide (a.logical < b.logical))

/-- Reads a variation of a root variable from a physical column.  A variable that the root lacks is
read nominally under its own name. -/
def addVariant (t : SelectionTree) (logical systematic physical : String) : SelectionTree :=
  let vary (v : Variable) := v.vary systematic (.branch physical)
  let extend (own : List Variable) : List Variable :=
    match own.findIdx? fun v => v.name == logical with
    | some slot => own.modify slot vary
    | none => own ++ [vary (.existing logical)]
  (t.modify 0 fun root => { root with ownVariables := extend root.ownVariables }).declareSystematic
    systematic

def declareParsed (t : SelectionTree) : List SchemaColumn → Except BuildError Unit × SelectionTree
  | [] => (.ok (), t)
  | ⟨logical, .nominal, physical⟩ :: rest =>
    match t.define t.root (.ofBranch logical physical) with
    | .error e => (.error e, t)
    | .ok t => t.declareParsed rest
  | ⟨logical, .variation systematic, physical⟩ :: rest =>
    (t.addVariant logical systematic physical).declareParsed rest

/-- Takes in the columns of a dataset.  Nominal columns become variables of the root, and the
others become overrides of them. -/
def declareColumns (t : SelectionTree) (namer : Namer) (columns : List String) :
    Except BuildError Unit × SelectionTree :=
  let parsed := columns.mapM fun physical =>
    (namer.parse physical).map fun (logical, systematic) =>
      (⟨logical, systematic, physical⟩ : SchemaColumn)
  match parsed with
  | .error e => (.error (.naming e), t)
  | .ok parsed => t.declareParsed (sortStable SchemaColumn.before parsed)

end SelectionTree
end SelectionPlan
