import SelectionPlan.Execution.Run
/-!
# Progress

Progress counts the actions that were realized and those that failed, and reports them in lines: one
for every failure, one whenever another batch of actions is realized, and one at the end.
-/

namespace SelectionPlan

structure Progress where
  /-- The size of a batch. -/
  every : Nat
  total : Nat := 0
  realized : Nat := 0
  /-- The actions that could not be constructed or realized. -/
  failed : Nat := 0
  /-- The lines reported, the first one first. -/
  lines : List String := []
  deriving DecidableEq, Repr

namespace Progress

def new (every : Nat) : Progress := { every := max every 1 }

def report (p : Progress) (line : String) : Progress := { p with lines := p.lines ++ [line] }

def fail (p : Progress) (a : Action) : Option RealizationError → Progress
  | none => p
  | some e =>
    { p with failed := p.failed + 1 }.report
      ("✗ #" ++ toString a.id ++ " " ++ a.path ++ ": " ++ e.message)

def observe {H : Type} (p : Progress) : Event H → Progress
  | .started actions => { p with total := actions, realized := 0, failed := 0 }
  | .constructed a error => p.fail a error
  | .realized a error =>
    let p := { p with realized := p.realized + 1 }.fail a error
    if p.realized % p.every = 0 then
      p.report ("… realized " ++ toString p.realized ++ " / " ++ toString p.total ++ " actions")
    else p
  | .finished _ failedOutputs =>
    let mark := if failedOutputs = 0 then "✓" else "✗"
    p.report (mark ++ " realized " ++ toString p.realized ++ " actions, " ++
      toString failedOutputs ++ " failed outputs")
  | .pulled .. | .wrote _ => p

def ofJournal {H : Type} (every : Nat) (journal : List (Event H)) : Progress :=
  journal.foldl observe (new every)

end Progress
end SelectionPlan
