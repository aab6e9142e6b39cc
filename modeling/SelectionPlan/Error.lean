import SelectionPlan.Expression
import SelectionPlan.Naming.Namer
/-!
# Errors of editing and planning a selection
-/

namespace SelectionPlan

inductive NodeFault
  | badName
  | reservedName
  | siblingExists
  | weightAlreadySet
  deriving DecidableEq, Repr

def NodeFault.message : NodeFault → String
  | .badName => "name must be non-empty and must not contain '/'"
  | .reservedName => "name is reserved for the root"
  | .siblingExists => "a sibling with this name already exists"
  | .weightAlreadySet => "weight is already set"

inductive BuildError
  | naming (error : NamingError)
  | expression (error : ExpressionError)
  | unresolved (missing reader : String) (systematic : Systematic) (path : String)
  | unknownSystematic (region systematic path : String)
  | notProduced (column consumer : String) (systematic : Systematic) (path : String)
  | invalidNode (name : String) (fault : NodeFault)
  | foreignNode
  | foreignTarget (region : String)
  | invalidRegion (name : String)
  | duplicateRegion (name : String)
  | invalidCost (owner : String) (cost : Float)
  deriving Repr

def BuildError.message : BuildError → String
  | .naming e => "naming error: " ++ e.message
  | .expression e => e.message
  | .unresolved missing reader systematic path =>
    "cannot resolve '" ++ missing ++ "' for '" ++ reader ++ "' under systematic '" ++
      systematic.text ++ "' at '" ++ path ++ "'"
  | .unknownSystematic region systematic path =>
    "region '" ++ region ++ "' requests unknown systematic '" ++ systematic ++ "' (target '" ++
      path ++ "')"
  | .notProduced column consumer systematic path =>
    "cyclic dependency: '" ++ column ++ "' read by '" ++ consumer ++ "' under '" ++
      systematic.text ++ "' is not produced upstream of '" ++ path ++ "'"
  | .invalidNode name fault => "invalid node '" ++ name ++ "': " ++ fault.message
  | .foreignNode => "node handle does not belong to this tree"
  | .foreignTarget region =>
    "node handle does not belong to this tree: target of region '" ++ region ++ "'"
  | .invalidRegion name =>
    "invalid region '" ++ name ++
      "': name must be non-empty, must not contain '/' and must not be ROOT"
  | .duplicateRegion name => "duplicate region name: " ++ name
  | .invalidCost owner cost =>
    "invalid cost " ++ numberText cost ++ " for '" ++ owner ++
      "': must be finite and non-negative"

end SelectionPlan
