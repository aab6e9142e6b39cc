import SelectionPlan.Backend.Basic
/-!
# Engines that fail on request

Injected faults make chosen calls of another engine fail, so that what depends on a failing step
can be told from what does not.
-/

namespace SelectionPlan

inductive Verb
  | filter | define | count | pull
  deriving DecidableEq, Repr

structure Fault where
  verb : Verb
  name : String
  reason : String
  deriving DecidableEq, Repr

/-- A frame under the name faults refer to: the path of its filter, or its column. -/
structure Named (H : Type) where
  name : String
  frame : H

namespace Fault

def pullVerb : Option Request → Verb
  | none => .count
  | some _ => .pull

def error? (faults : List Fault) (verb : Verb) (name : String) : Option BackendError :=
  (faults.find? fun f => f.verb = verb ∧ f.name = name).map fun f => .evaluation name f.reason

end Fault

variable {H : Type}

def Backend.withFaults (backend : Backend H) (faults : List Fault) : Backend (Named H) where
  source := fun id => ⟨"<source>", backend.source id⟩
  applyFilter := fun id parent name predicate =>
    match Fault.error? faults .filter name with
    | some e => .error e
    | none => (backend.applyFilter id parent.frame name predicate).map (Named.mk name)
  defineColumn := fun id parent name definition =>
    match Fault.error? faults .define name with
    | some e => .error e
    | none => (backend.defineColumn id parent.frame name definition).map (Named.mk name)
  pullCount := fun h =>
    match Fault.error? faults .count h.name with
    | some e => .error e
    | none => backend.pullCount h.frame
  pull := fun h request =>
    match Fault.error? faults .pull h.name with
    | some e => .error e
    | none => backend.pull h.frame request

end SelectionPlan
