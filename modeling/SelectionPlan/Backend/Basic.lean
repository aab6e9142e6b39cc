import SelectionPlan.Variable
/-!
# Deferred column engines

A backend holds the events.  Frames stand for selections of them that nobody has computed yet:
building one only describes a further filter or column.  Results are asked for by pulling.
-/

namespace SelectionPlan

/-- Tells frames apart.  Two frames with the same history are still evaluated separately. -/
abbrev FrameId := Nat

inductive BackendError
  | missingColumn (column : String)
  | raggedColumn (column : String) (expected actual : Nat)
  | construction (name reason : String)
  | evaluation (name reason : String)
  deriving DecidableEq, Repr

def BackendError.message : BackendError → String
  | .missingColumn column => "column '" ++ column ++ "' is not available"
  | .raggedColumn column expected actual =>
    "column '" ++ column ++ "' has " ++ toString actual ++ " rows, expected " ++ toString expected
  | .construction name reason => "cannot construct '" ++ name ++ "': " ++ reason
  | .evaluation name reason => "evaluation of '" ++ name ++ "' failed: " ++ reason

structure Request where
  /-- Logical names and the physical columns that carry them. -/
  columns : List (String × String) := []
  /-- The physical weight column; without one every event counts once. -/
  weight : Option String := none
  deriving DecidableEq, Repr

structure Materialized where
  entries : Nat
  sumWeights : Float
  sumWeights2 : Float
  /-- The selected values of each logical column, by ascending name. -/
  columns : List (String × List Float)
  deriving Repr

/-- An engine whose answers depend on the arguments of a call alone. -/
structure Backend (H : Type) where
  /-- All events. -/
  source : FrameId → H
  /-- The events of a frame that satisfy a predicate. -/
  applyFilter : FrameId → H → (name : String) → Definition → Except BackendError H
  defineColumn : FrameId → H → (name : String) → Definition → Except BackendError H
  pullCount : H → Except BackendError Nat
  pull : H → Request → Except BackendError Materialized

end SelectionPlan
