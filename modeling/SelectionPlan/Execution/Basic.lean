import SelectionPlan.Execution.Error
import SelectionPlan.Schedule.Basic
/-!
# Executions

An execution first constructs every action, which only builds frames, and later realizes actions
on demand.  Realizing an action first realizes everything it depends on.  Its result is kept, so no
action is realized twice.
-/

namespace SelectionPlan

inductive Built (H : Type)
  /-- A frame, and whether its events are counted. -/
  | frame (handle : H) (counted : Bool)
  /-- A request on the input's frame. -/
  | output (handle : H) (request : Request)

inductive Realized
  | count (events : Nat)
  /-- A column, whose values stay in the backend. -/
  | defined
  | output (result : Materialized)
  deriving Repr

inductive ActionState
  | pending | ready | constructed | realized | failed
  deriving DecidableEq, Repr

def ActionState.text : ActionState → String
  | .pending => "pending"
  | .ready => "ready"
  | .constructed => "constructed"
  | .realized => "realized"
  | .failed => "failed"

structure WriterCall where
  writer : String
  context : WriteContext
  result : Materialized
  deriving Repr

inductive Event (H : Type)
  | started (actions : Nat)
  | constructed (action : Action) (error : Option RealizationError)
  /-- A pull on a frame: a count, or a request. -/
  | pulled (id : ActionId) (handle : H) (request : Option Request)
  | realized (action : Action) (error : Option RealizationError)
  | wrote (call : WriterCall)
  | finished (regions failedOutputs : Nat)

/-- The outcome of an action: its failure, or what it gives. -/
abbrev Outcome (α : Type) := Except RealizationError α

structure Execution (H ω : Type) where
  schedule : Schedule ω
  backend : Backend H
  /-- What constructing every action gave, as far as it was tried. -/
  built : List (Option (Outcome (Built H)))
  /-- The kept result of every action that was realized. -/
  slots : List (Option (Outcome Realized))
  /-- What happened so far, in order. -/
  journal : List (Event H)
  /-- What the writers have stored. -/
  output : ω

namespace Execution

variable {H ω : Type}

def record (x : Execution H ω) (e : Event H) : Execution H ω :=
  { x with journal := x.journal ++ [e] }

def builtOf (x : Execution H ω) (id : ActionId) : Option (Outcome (Built H)) :=
  (x.built[id]?).join

def slotOf (x : Execution H ω) (id : ActionId) : Option (Outcome Realized) :=
  (x.slots[id]?).join

def isConstructed (x : Execution H ω) (id : ActionId) : Bool :=
  match x.builtOf id with
  | some (.ok _) => true
  | _ => false

def state (x : Execution H ω) (id : ActionId) : ActionState :=
  match x.builtOf id with
  | none =>
    match x.schedule.graph.action? id with
    | some a => if a.dependencies.all x.isConstructed then .ready else .pending
    | none => .pending
  | some (.error _) => .failed
  | some (.ok _) =>
    match x.slotOf id with
    | none => .constructed
    | some (.ok _) => .realized
    | some (.error _) => .failed

def constructionFailure {α : Type} (a : Action) (reason : String) : Outcome α :=
  .error (.ofBackend a (.construction a.label reason))

/-- Requires the dependencies of an action to be constructed; the first that failed is the
cause. -/
def checkDependencies (x : Execution H ω) (a : Action) : List ActionId → Outcome Unit
  | [] => .ok ()
  | d :: rest =>
    match x.builtOf d with
    | some (.ok _) => x.checkDependencies a rest
    | some (.error cause) => .error (.ofCause a cause)
    | none => constructionFailure a ("dependency " ++ actionText d ++ " is not constructed")

def inputFrame (x : Execution H ω) (a : Action) : Outcome (Option H) :=
  match a.input with
  | none => .ok none
  | some input =>
    match x.builtOf input with
    | some (.ok (.frame handle _)) => .ok (some handle)
    | _ => constructionFailure a ("input " ++ actionText input ++ " is not a frame")

def buildAction (x : Execution H ω) (a : Action) : Outcome (Built H) := do
  x.checkDependencies a a.dependencies
  let parent ← x.inputFrame a
  let refused (e : BackendError) : RealizationError := .ofBackend a e
  match a.operation, parent with
  | .source, _ => return .frame (x.backend.source a.id) true
  | .filter predicate, some parent => do
    let handle ← (x.backend.applyFilter a.id parent a.path predicate).mapError refused
    return .frame handle true
  | .define _ column _ definition, some parent => do
    let handle ← (x.backend.defineColumn a.id parent column definition).mapError refused
    return .frame handle false
  | .output _ _ _ request, some parent => return .output parent request
  | .statistics _ _ _ request, some parent => return .output parent request
  | _, none => constructionFailure a "action has no input frame"

def constructOne (x : Execution H ω) (id : ActionId) : Execution H ω :=
  match x.schedule.graph.action? id with
  | none => x
  | some a =>
    let outcome := x.buildAction a
    let error := match outcome with
      | .ok _ => none
      | .error e => some e
    { x.record (.constructed a error) with built := x.built.set id (some outcome) }

def construct (s : Schedule ω) (backend : Backend H) (output : ω) : Execution H ω :=
  let size := s.graph.size
  let start : Execution H ω :=
    { schedule := s, backend, output
      built := List.replicate size none
      slots := List.replicate size none
      journal := [.started size] }
  s.order.foldl constructOne start

end Execution

def firstFailure {α σ ε β : Type} (f : α → σ → Except ε β × σ) : List α → σ → Option ε × σ
  | [], s => (none, s)
  | a :: rest, s =>
    match f a s with
    | (.error e, s) => (some e, s)
    | (.ok _, s) => firstFailure f rest s

namespace Execution

variable {H ω : Type}

def pullAction (x : Execution H ω) (a : Action) : Outcome Realized × Execution H ω :=
  let done (outcome : Except BackendError Realized) (x : Execution H ω) :=
    match outcome with
    | .ok result => (Except.ok result, x.record (.realized a none))
    | .error e =>
      let error := RealizationError.ofBackend a e
      (Except.error error, x.record (.realized a (some error)))
  match x.builtOf a.id with
  | some (.ok (.frame handle true)) =>
    done ((x.backend.pullCount handle).map .count) (x.record (.pulled a.id handle none))
  | some (.ok (.frame _ false)) => done (.ok .defined) x
  | some (.ok (.output handle request)) =>
    done ((x.backend.pull handle request).map .output)
      (x.record (.pulled a.id handle (some request)))
  | some (.error e) => (.error e, x)
  | none => done (.error (.construction a.label "action was never constructed")) x

/-- Realizes an action unless it has been, going back through at most `bound` dependencies. -/
def realizeWithin (bound : Nat) (id : ActionId) (x : Execution H ω) :
    Outcome Realized × Execution H ω :=
  match bound, x.schedule.graph.action? id with
  | bound + 1, some a =>
    match x.slotOf id with
    | some result => (result, x)
    | none =>
      let (result, x) : Outcome Realized × Execution H ω :=
        match firstFailure (realizeWithin bound) a.dependencies x with
        | (some cause, x) =>
          let error := RealizationError.ofCause a cause
          (.error error, x.record (.realized a (some error)))
        | (none, x) => x.pullAction a
      (result, { x with slots := x.slots.set id (some result) })
  | _, _ => (.error (.unknownAction id), x)

/-- Realizes an action and everything it depends on.  Dependencies come earlier in the graph. -/
def realize (x : Execution H ω) (id : ActionId) : Outcome Realized × Execution H ω :=
  realizeWithin (id + 1) id x

end Execution
end SelectionPlan
