import SelectionPlan.Naming.Namer
/-!
# The register of physical columns

One physical column may be computed on several branches of a selection, but only ever for one
logical column under one systematic, and never under the name of a dataset column.
-/

namespace SelectionPlan

/-- The physical columns in use: computed ones with their logical name and systematic, and dataset
columns with the variable that reads them. -/
structure NameRegistry where
  assigned : List (String × String × Systematic) := []
  dataset : List (String × String) := []
  deriving DecidableEq, Repr

namespace NameRegistry

def empty : NameRegistry := {}

def size (r : NameRegistry) : Nat := r.assigned.length

/-- Claims a dataset column for a variable; the first claim stays. -/
def addDataset (r : NameRegistry) (physical owner : String) : NameRegistry :=
  if (lookupKey physical r.dataset).isSome then r
  else { r with dataset := (physical, owner) :: r.dataset }

def assign (r : NameRegistry) (physical logical : String) (systematic : Systematic) :
    Except NamingError NameRegistry :=
  let second := ColumnOwner.assigned logical systematic
  match lookupKey physical r.dataset with
  | some owner => .error (.collision physical (.dataset owner) second)
  | none =>
    match lookupKey physical r.assigned with
    | none => .ok { r with assigned := (physical, logical, systematic) :: r.assigned }
    | some (l, s) =>
      if l = logical ∧ s = systematic then .ok r
      else .error (.collision physical (.assigned l s) second)

end NameRegistry
end SelectionPlan
