import SelectionPlan.Error
/-!
# Variables

A variable is a named column, or the predicate of a filter, with a nominal specification and
others for the variations that change it.  A specification speaks of logical columns.  Once it is
known which physical columns carry them, it becomes a definition.
-/

namespace SelectionPlan

inductive Specification
  /-- A physical column of the dataset, read as it is. -/
  | branch (column : String)
  | function (f : List Float → Float) (inputs : List String)
  | expression (e : Expression)

namespace Specification

def inputs : Specification → List String
  | .branch _ => []
  | .function _ inputs => inputs
  | .expression e => e.columns

def isBranch : Specification → Bool
  | .branch _ => true
  | _ => false

end Specification

inductive Definition
  | column (name : String)
  | function (f : List Float → Float) (inputs : List String)
  /-- An expression whose columns are bound in order to `inputs`, and its text over them. -/
  | expression (text : String) (e : Expression) (inputs : List String)

namespace Definition

def inputs : Definition → List String
  | .column name => [name]
  | .function _ inputs => inputs
  | .expression _ _ inputs => inputs

def eval : Definition → List Float → Float
  | .column _, values => values.headD Binary64.notANumber
  | .function f _, values => f values
  | .expression _ e _, values => e.eval values

def text : Definition → String
  | .column name => name
  | .function _ inputs => "fn(" ++ ", ".intercalate inputs ++ ")"
  | .expression text _ _ => text

end Definition

structure Variable where
  name : String
  nominal : Specification
  /-- The variations that change the variable, by ascending name. -/
  overrides : List (String × Specification) := []
  /-- The relative cost of evaluating it, if one is known. -/
  cost : Option Float := none

namespace Variable

def existing (name : String) : Variable := { name, nominal := .branch name }

def ofBranch (name column : String) : Variable := { name, nominal := .branch column }

def computed (name : String) (inputs : List String) (f : List Float → Float) : Variable :=
  { name, nominal := .function f inputs }

def product (name first second : String) : Variable :=
  computed name [first, second] fun values =>
    values.getD 0 Binary64.notANumber * values.getD 1 Binary64.notANumber

def vary (v : Variable) (systematic : String) (spec : Specification) : Variable :=
  { v with overrides := insertKey systematic spec v.overrides }

def isCost (cost : Float) : Bool := cost.isFinite && !(cost < 0)

def checkCost (v : Variable) : Except BuildError Unit :=
  match v.cost with
  | none => .ok ()
  | some cost => if isCost cost then .ok () else .error (.invalidCost v.name cost)

def overridden (v : Variable) : List String := v.overrides.map Prod.fst

def spec (v : Variable) : Systematic → Specification
  | .nominal => v.nominal
  | .variation name => (lookupKey name v.overrides).getD v.nominal

def isBranch (v : Variable) (s : Systematic) : Bool := (v.spec s).isBranch

def specs (v : Variable) : List Specification := v.nominal :: v.overrides.map Prod.snd

def allInputs (v : Variable) : List String := sortDistinct (v.specs.flatMap Specification.inputs)

/-- The definition under a systematic, where `physical` names the columns that carry the inputs
and `location` is the path reported when one is missing. -/
def resolve (v : Variable) (s : Systematic) (physical : String → Option String)
    (location : String) : Except BuildError Definition :=
  let carrier (logical : String) : Except BuildError String :=
    match physical logical with
    | some name => .ok name
    | none => .error (.unresolved logical v.name s location)
  match v.spec s with
  | .branch column => .ok (.column column)
  | .function f inputs => do
    let carriers ← inputs.mapM carrier
    return .function f carriers
  | .expression e => do
    let carriers ← e.columns.mapM carrier
    let text := e.rename fun logical => carriers.getD (e.columns.idxOf logical) ""
    return .expression text e carriers

end Variable
end SelectionPlan
