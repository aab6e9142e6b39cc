import SelectionPlan.Ordered
import SelectionPlan.Toml.Reader
/-!
# Records in TOML

A record is a table with fixed keys.  It may also be written as a list of the values of its fields
in order; values beyond the last field are passed over, and only fields with a default may be left
out at the end.
-/

namespace SelectionPlan
namespace Toml

inductive Absence
  /-- The record cannot be read. -/
  | refused
  /-- A table may do without the field, a list may not. -/
  | named
  | allowed
  deriving DecidableEq, Repr

abbrev RecordShape := List (String × Absence)

/-- The fields that a list gives, if it leaves none out that it may not. -/
def RecordShape.ofList : RecordShape → List Value → Option Members
  | [], _ => some []
  | (_, absence) :: shape, [] => if absence = .allowed then ofList shape [] else none
  | (key, _) :: shape, value :: values => (ofList shape values).map ((key, value) :: ·)

namespace Value

def text? : Value → Option String
  | text s => some s
  | _ => none

def boolean? : Value → Option Bool
  | boolean b => some b
  | _ => none

def number? : Value → Option Float
  | number x => some x
  | integer n => some (Binary64.nearest (n < 0) n.natAbs 1)
  | _ => none

def natural? : Value → Option Nat
  | integer (.ofNat n) => some n
  | _ => none

def items? : Value → Option (List Value)
  | list items => some items
  | tables items => some (items.map (table .header))
  | _ => none

def members? : Value → Option Members
  | table _ members => some members
  | _ => none

def listOf? {α : Type} (read : Value → Option α) (v : Value) : Option (List α) := do
  (← v.items?).mapM read

def mapOf? {α : Type} (read : Value → Option α) (v : Value) : Option (List (String × α)) := do
  let entries ← (← v.members?).mapM fun (key, value) => (read value).map (key, ·)
  return sortStable (fun a b => decide (a.1 < b.1)) entries

def choice? : Value → Option String
  | text s => some s
  | table _ [(key, table _ [])] => some key
  | table _ [(key, list [])] => some key
  | _ => none

/-- The fields of a record.  A strict record has no other keys; one that is not strict may also be
a moment, which counts as a table of other keys. -/
def record? (strict : Bool) (shape : RecordShape) : Value → Option Members
  | table _ members =>
    if strict && members.any fun (key, _) => !shape.any fun (k, _) => k == key then none
    else if shape.any fun (k, absence) => absence = .refused && (Members.find? k members).isNone then
      none
    else some members
  | moment => if strict then none else some []
  | v => v.items?.bind shape.ofList

end Value

namespace Members

def optional? {α : Type} (members : Members) (key : String) (read : Value → Option α) :
    Option (Option α) :=
  match members.find? key with
  | none => some none
  | some v => (read v).map some

def field? {α : Type} (members : Members) (key : String) (read : Value → Option α) (default : α) :
    Option α := do
  return (← members.optional? key read).getD default

def required? {α : Type} (members : Members) (key : String) (read : Value → Option α) : Option α :=
  (members.find? key).bind read

end Members

end Toml
end SelectionPlan
