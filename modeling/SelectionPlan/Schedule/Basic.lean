import SelectionPlan.Schedule.Order
import SelectionPlan.Schedule.Sha256
/-!
# Schedules

A schedule is an action graph with its construction order and the writers of its regions.
-/

namespace SelectionPlan

structure Schedule (ω : Type) where
  tree : SelectionTree
  graph : ActionGraph
  order : List ActionId
  writers : List (String × List (Writer ω))

namespace Schedule

variable {ω : Type}

def build (t : SelectionTree) (namer : Namer) (options : BuildOptions) (regions : List (Region ω)) :
    Except ScheduleError (Schedule ω) := do
  match ActionGraph.build t namer options regions with
  | .error e => throw (.build e)
  | .ok graph =>
    let order ← constructionOrder graph.actions
    let planned := regions.filter fun r => graph.regions.any fun plan => plan.name == r.name
    return ⟨t, graph, order, planned.map fun r => (r.name, r.writers)⟩

def orderedActions (s : Schedule ω) : List Action := s.order.filterMap s.graph.action?

/-- A digest of the labels in construction order; schedules of equal labels have equal ones. -/
def fingerprint (s : Schedule ω) : String :=
  Sha256.hex (String.join (s.orderedActions.map fun a => a.label ++ "\n"))

def writersOf (s : Schedule ω) (region : String) : List (Writer ω) :=
  (lookupKey region s.writers).getD []

end Schedule
end SelectionPlan
