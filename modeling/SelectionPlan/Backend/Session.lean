import SelectionPlan.Backend.Basic
/-!
# Sessions

A client of an engine builds frames upon frames, asks for counts and results, and pulls some of them
later, in any order and as often as it likes.
-/

namespace SelectionPlan

variable {H σ : Type}

/-- An engine that may remember things from one call to the next. -/
structure LazyBackend (H σ : Type) where
  source : σ → H × σ
  applyFilter : H → (name : String) → Definition → σ → Except BackendError H × σ
  defineColumn : H → (name : String) → Definition → σ → Except BackendError H × σ
  pullCount : H → σ → Except BackendError Nat × σ
  pull : H → Request → σ → Except BackendError Materialized × σ

structure Client (H : Type) where
  frames : List H := []
  /-- Counts that can be pulled, as the frames they are taken on. -/
  counts : List H := []
  /-- Requests that can be pulled, each with its frame. -/
  results : List (H × Request) := []

/-- A call of a client.  What it is about is given by its position among what the client holds. -/
inductive Call
  | source
  | applyFilter (parent : Nat) (name : String) (predicate : Definition)
  | defineColumn (parent : Nat) (name : String) (definition : Definition)
  | count (frame : Nat)
  | materialize (frame : Nat) (request : Request)
  | pullCount (count : Nat)
  | pull (result : Nat)

inductive Answer
  /-- Something more for the client to hold. -/
  | handle
  | refused (error : BackendError)
  | counted (outcome : Except BackendError Nat)
  | pulled (outcome : Except BackendError Materialized)
  /-- The client holds nothing at the position. -/
  | unknown

namespace Client

variable (client : Client H)

def take : Except BackendError H × σ → Answer × Client H × σ
  | (.ok frame, state) => (.handle, { client with frames := client.frames ++ [frame] }, state)
  | (.error e, state) => (.refused e, client, state)

end Client

namespace LazyBackend

variable (b : LazyBackend H σ)

def call (client : Client H) (state : σ) : Call → Answer × Client H × σ
  | .source =>
    let (frame, state) := b.source state
    client.take (.ok frame, state)
  | .applyFilter parent name predicate =>
    match client.frames[parent]? with
    | some parent => client.take (b.applyFilter parent name predicate state)
    | none => (.unknown, client, state)
  | .defineColumn parent name definition =>
    match client.frames[parent]? with
    | some parent => client.take (b.defineColumn parent name definition state)
    | none => (.unknown, client, state)
  | .count frame =>
    match client.frames[frame]? with
    | some frame => (.handle, { client with counts := client.counts ++ [frame] }, state)
    | none => (.unknown, client, state)
  | .materialize frame request =>
    match client.frames[frame]? with
    | some frame =>
      (.handle, { client with results := client.results ++ [(frame, request)] }, state)
    | none => (.unknown, client, state)
  | .pullCount count =>
    match client.counts[count]? with
    | some frame =>
      let (outcome, state) := b.pullCount frame state
      (.counted outcome, client, state)
    | none => (.unknown, client, state)
  | .pull result =>
    match client.results[result]? with
    | some (frame, request) =>
      let (outcome, state) := b.pull frame request state
      (.pulled outcome, client, state)
    | none => (.unknown, client, state)

def session : List Call → Client H → σ → List Answer × Client H × σ
  | [], client, state => ([], client, state)
  | call :: rest, client, state =>
    let (answer, client, state) := b.call client state call
    let (answers, client, state) := session rest client state
    (answer :: answers, client, state)

end LazyBackend
end SelectionPlan
