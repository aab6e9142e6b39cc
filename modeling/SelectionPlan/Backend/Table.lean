import SelectionPlan.Backend.Basic
/-!
# Tables of events
-/

namespace SelectionPlan

/-- Columns of numbers, by ascending name.  All have as many rows as the first one inserted. -/
structure EventTable where
  rowCount : Option Nat := none
  columns : List (String × List Float) := []
  deriving Repr

namespace EventTable

def empty : EventTable := {}

/-- The number of events; a table without columns has none. -/
def rows (t : EventTable) : Nat := t.rowCount.getD 0

def size (t : EventTable) : Nat := t.columns.length

def column? (t : EventTable) (name : String) : Option (List Float) := lookupKey name t.columns

def insert (t : EventTable) (name : String) (values : List Float) :
    Except BackendError EventTable :=
  let inserted : EventTable :=
    ⟨some values.length, insertKey name values t.columns⟩
  match t.rowCount with
  | none => .ok inserted
  | some expected =>
    if expected = values.length then .ok inserted
    else .error (.raggedColumn name expected values.length)

def ofColumns (columns : List (String × List Float)) : Except BackendError EventTable :=
  columns.foldlM (fun t (name, values) => t.insert name values) empty

end EventTable
end SelectionPlan
