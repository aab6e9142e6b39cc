import SelectionPlan.Graph.Build
/-!
# Construction order

Actions are constructed after everything they depend on.  Among the actions that are ready filters
come first, then cheaper actions, then older ones.
-/

namespace SelectionPlan

inductive ScheduleError
  | build (error : BuildError)
  /-- Some actions wait for each other or for actions that do not exist. -/
  | deadlock (pending : Nat) (first : String)
  deriving Repr

def ScheduleError.message : ScheduleError → String
  | .build e => e.message
  | .deadlock pending first =>
    "scheduler deadlock: " ++ toString pending ++
      " action(s) pending but none ready (first pending: " ++ first ++ ")"

/-- The place of a double in the total order of doubles, in which `-0.0` comes before `0.0`.
Undefined numbers fall together, above infinity: a `Float` keeps neither their sign nor their
payload.  No valid cost is among them. -/
def totalRank (x : Float) : Int :=
  if Binary64.isNegative x then -1 - (Binary64.magnitudeBits x : Int) else Binary64.magnitudeBits x

/-- Filters are constructed first, so that events are dropped as early as possible. -/
def ActionKind.rank : ActionKind → Nat
  | .filter => 0
  | .define | .output => 1

def Action.precedes (a b : Action) : Bool :=
  decide (a.kind.rank < b.kind.rank) || (a.kind.rank == b.kind.rank &&
    (decide (totalRank a.cost < totalRank b.cost) || (totalRank a.cost == totalRank b.cost &&
      decide (a.id < b.id))))

structure Waiting where
  action : Action
  missing : List ActionId

namespace Waiting

def isReady (w : Waiting) : Bool := w.missing.isEmpty

def place (id : ActionId) (w : Waiting) : Waiting :=
  { w with missing := w.missing.filter fun d => d != id }

def next? (waiting : List Waiting) : Option Action :=
  ((waiting.filter isReady).map action).foldl (fun best a =>
    match best with
    | none => some a
    | some b => if a.precedes b then some a else some b) none

end Waiting

/-- Places ready actions, at most `bound` of them, and returns the others too. -/
def placeReady (bound : Nat) (waiting : List Waiting) : List ActionId × List Waiting :=
  match bound with
  | 0 => ([], waiting)
  | bound + 1 =>
    match Waiting.next? waiting with
    | none => ([], waiting)
    | some a =>
      let others := (waiting.filter fun w => w.action.id != a.id).map (Waiting.place a.id)
      let (placed, stuck) := placeReady bound others
      (a.id :: placed, stuck)

def constructionOrder (actions : List Action) : Except ScheduleError (List ActionId) :=
  let (placed, stuck) := placeReady actions.length (actions.map fun a => ⟨a, a.dependencies⟩)
  match stuck with
  | [] => .ok placed
  | w :: _ =>
    .error (.deadlock stuck.length (actionText w.action.id ++ " " ++ w.action.label))

end SelectionPlan
