import SelectionPlan.Backend.Memory
import SelectionPlan.Backend.Fault
import SelectionPlan.Execution.Basic
/-!
# Evaluated frames

Pulls evaluate frames in memory, each once.  An injected fault answers a pull before it reaches a
frame.
-/

namespace SelectionPlan
namespace Execution

variable {ω : Type}

def evaluatedBy (faults : List Fault) (evaluated : List FrameId) :
    Event (Named Frame) → List FrameId
  | .pulled _ handle request =>
    if (Fault.error? faults (Fault.pullVerb request) handle.name).isSome then evaluated
    else handle.frame.evaluateOnce evaluated
  | _ => evaluated

def evaluations (faults : List Fault) (x : Execution (Named Frame) ω) : Nat :=
  (x.journal.foldl (evaluatedBy faults) []).length

end Execution
end SelectionPlan
