import SelectionPlan.Backend.Basic
import SelectionPlan.Tree.Basic
/-!
# Regions and writers

A region asks for the selection at one node, nominally and under some variations, and hands every
result to its writers.
-/

namespace SelectionPlan

structure OutputSpec where
  name : String
  columns : List String := []
  /-- The logical weight column, if it is not the weight of the node. -/
  weight : Option String := none
  deriving DecidableEq, Repr

structure CutflowStep where
  node : String
  label : Option String
  events : Nat
  sumWeights : Float
  sumWeights2 : Float
  deriving Repr

structure WriteContext where
  region : String
  systematic : Systematic
  /-- The label of the region's node. -/
  label : Option String
  /-- The nodes from the root down to the region's node. -/
  cutflow : List CutflowStep
  deriving Repr

structure WriteError where
  writer : String
  region : String
  systematic : Systematic
  /-- The file that could not be written, if it was one. -/
  path : Option String
  reason : String
  deriving DecidableEq, Repr

def WriteError.message (e : WriteError) : String :=
  "writer '" ++ e.writer ++ "' failed for region '" ++ e.region ++ "' under '" ++
    e.systematic.text ++ "': " ++ e.reason

structure Writer (ω : Type) extends OutputSpec where
  write : WriteContext → Materialized → ω → Except WriteError Unit × ω

structure Region (ω : Type) where
  name : String
  target : NodeId
  /-- The requested systematics, ascending; nominal is always among them. -/
  systematics : List Systematic
  writers : List (Writer ω)

namespace Region

variable {ω : Type}

def new (name : String) (target : NodeId) : Region ω := ⟨name, target, [.nominal], []⟩

def request (r : Region ω) (s : Systematic) : Region ω :=
  { r with systematics := insertDistinct s r.systematics }

def addWriter (r : Region ω) (w : Writer ω) : Region ω := { r with writers := r.writers ++ [w] }

end Region
end SelectionPlan
