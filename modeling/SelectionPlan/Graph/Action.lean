import SelectionPlan.Region
import SelectionPlan.Scope.Basic
/-!
# Action graphs

A graph lists every step that some regions need, each once.  Each step but the source works on the
frame of an earlier step, its input, and may depend on further steps.
-/

namespace SelectionPlan

abbrev ActionId := Nat

inductive ActionKind
  | filter | define | output
  deriving DecidableEq, Repr

def ActionKind.text : ActionKind → String
  | .filter => "filter"
  | .define => "define"
  | .output => "output"

inductive Operation
  /-- All events. -/
  | source
  | filter (predicate : Definition)
  /-- Compute the physical column `column` for the variable at `slot` of the action's node. -/
  | define (slot : Nat) (column name : String) (definition : Definition)
  | output (region : String) (writer : Nat) (writerName : String) (request : Request)
  | statistics (filter : ActionId) (weight : ColumnRef) (effective : Systematic)
      (request : Request)

namespace Operation

def kind : Operation → ActionKind
  | source | filter _ => .filter
  | define .. => .define
  | output .. | statistics .. => .output

end Operation

structure Action where
  id : ActionId
  node : Nat
  path : String
  /-- For a filter or statistics the systematic of the selection, for a column the one it is
  computed for, for an output the one its region requests. -/
  systematic : Systematic
  /-- The action whose frame this one builds on. -/
  input : Option ActionId
  /-- The actions that have to come first, ascending. -/
  dependencies : List ActionId
  cost : Float
  operation : Operation
  /-- The regions that need the action, ascending. -/
  consumers : List String := []

namespace Action

def kind (a : Action) : ActionKind := a.operation.kind

def label (a : Action) : String :=
  match a.operation with
  | .source => "source " ++ a.path
  | .filter predicate =>
    "filter " ++ a.path ++ " [" ++ a.systematic.text ++ "] " ++ predicate.text
  | .define _ column _ definition =>
    "define " ++ column ++ " = " ++ definition.text ++ " @ " ++ a.path
  | .output region _ writerName _ =>
    "output " ++ region ++ "/" ++ writerName ++ " [" ++ a.systematic.text ++ "]"
  | .statistics _ _ _ request =>
    "statistics " ++ a.path ++ " [" ++ a.systematic.text ++ "] " ++ request.weight.getD "-"

def selects (a : Action) (node : Nat) (s : Systematic) : Bool :=
  a.kind == .filter && a.node == node && a.systematic == s

def computes (a : Action) (column : ColumnRef) (s : Systematic) : Bool :=
  match a.operation with
  | .define slot .. => a.node == column.node && slot == column.slot && a.systematic == s
  | _ => false

def sums (a : Action) (filter : ActionId) (weight : ColumnRef) (s : Systematic) : Bool :=
  match a.operation with
  | .statistics f w e _ => f == filter && w == weight && e == s
  | _ => false

end Action

def actionText (id : ActionId) : String := "#" ++ toString id

structure SystematicPlan where
  /-- The nodes from the root down to the target with their filters. -/
  filters : List (Nat × ActionId) := []
  /-- The outputs of the region's writers, by the writers' positions. -/
  outputs : List (Nat × ActionId) := []
  /-- The statistics of the weighted nodes on the way. -/
  statistics : List (Nat × ActionId) := []
  deriving DecidableEq, Repr

namespace SystematicPlan

def roots (p : SystematicPlan) : List ActionId :=
  (p.outputs ++ p.filters ++ p.statistics).map Prod.snd

end SystematicPlan

structure RegionPlan where
  name : String
  target : Nat
  /-- A plan for every requested systematic, ascending. -/
  systematics : List (Systematic × SystematicPlan)

structure SkippedRegion where
  name : String
  error : BuildError

structure ActionGraph where
  actions : List Action
  /-- The plans of the regions, by ascending name. -/
  regions : List RegionPlan
  skipped : List SkippedRegion

namespace ActionGraph

def size (g : ActionGraph) : Nat := g.actions.length

def action? (g : ActionGraph) (id : ActionId) : Option Action := g.actions[id]?

def count (g : ActionGraph) (kind : ActionKind) : Nat :=
  (g.actions.filter fun a => a.kind == kind).length

end ActionGraph

def withDependencies (actions : List Action) (ids : List ActionId) : List ActionId :=
  ids.foldr (fun id => unionDistinct ((actions[id]?.map Action.dependencies).getD [])) ids

/-- Adds dependencies until none is new, at most `rounds` times. -/
def closureWithin (actions : List Action) (rounds : Nat) (ids : List ActionId) : List ActionId :=
  match rounds with
  | 0 => ids
  | rounds + 1 =>
    let larger := withDependencies actions ids
    if larger.length = ids.length then ids else closureWithin actions rounds larger

/-- The actions that `id` transitively depends on and `id` itself, ascending.  Every round but the
last adds an action, or a missing one, to the result. -/
def closure (actions : List Action) (id : ActionId) : List ActionId :=
  closureWithin actions ((actions.map fun a => a.dependencies.length).foldl (· + ·) 1) [id]

def lineageWithin (actions : List Action) (bound : Nat) (id : ActionId) : List Action :=
  match actions[id]? with
  | none => []
  | some a =>
    match bound, a.input with
    | bound + 1, some input => a :: lineageWithin actions bound input
    | _, _ => [a]

/-- The chain of inputs from an action back to the source.  Inputs come earlier in the graph. -/
def lineage (actions : List Action) (id : ActionId) : List Action := lineageWithin actions id id

end SelectionPlan
