import SelectionPlan.Graph.Action
/-!
# Failures of actions
-/

namespace SelectionPlan

structure ActionContext where
  action : ActionId
  label : String
  path : String
  systematic : String
  deriving DecidableEq, Repr

def Action.context (a : Action) : ActionContext := ⟨a.id, a.label, a.path, a.systematic.text⟩

structure Failure where
  context : ActionContext
  source : BackendError
  deriving DecidableEq, Repr

def Failure.message (f : Failure) : String :=
  "action " ++ actionText f.context.action ++ " '" ++ f.context.label ++ "' at '" ++
    f.context.path ++ "' under '" ++ f.context.systematic ++ "' failed: " ++ f.source.message

inductive RealizationError
  | own (failure : Failure)
  | blocked (context : ActionContext) (root : Failure)
  deriving DecidableEq, Repr

namespace RealizationError

def root : RealizationError → Failure
  | own failure => failure
  | blocked _ root => root

def context : RealizationError → ActionContext
  | own failure => failure.context
  | blocked context _ => context

def message : RealizationError → String
  | own failure => failure.message
  | blocked context root =>
    "action " ++ actionText context.action ++ " '" ++ context.label ++ "' not realized: " ++
      root.message

def ofBackend (a : Action) (e : BackendError) : RealizationError := own ⟨a.context, e⟩

def ofCause (a : Action) (cause : RealizationError) : RealizationError :=
  blocked a.context cause.root

def unknownAction (id : ActionId) : RealizationError :=
  own ⟨⟨id, "<unknown>", "", ""⟩, .construction (actionText id) "no such action"⟩

end RealizationError

inductive RunError
  | realization (error : RealizationError)
  | write (error : WriteError)
  | aborted (region : String)
  deriving DecidableEq, Repr

def RunError.message : RunError → String
  | .realization e => e.message
  | .write e => e.message
  | .aborted region => "region '" ++ region ++ "' aborted after an earlier realization failure"

end SelectionPlan
