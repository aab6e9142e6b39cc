import SelectionPlan.Ordered
/-!
# Systematic variations

A selection is computed nominally and under named variations of its inputs.
-/

namespace SelectionPlan

inductive Systematic
  | nominal
  | variation (name : String)
  deriving DecidableEq, Repr

namespace Systematic

def nominalLabel : String := "nominal"

def ofLabel (label nominal : String) : Systematic :=
  if label = nominal then .nominal else .variation label

def label (nominal : String) : Systematic → String
  | .nominal => nominal
  | .variation name => name

/-- How a systematic is named in messages.  A variation may be called nominal too. -/
def text (s : Systematic) : String := s.label nominalLabel

def isNominal : Systematic → Bool
  | .nominal => true
  | .variation _ => false

/-- Nominal comes before every variation; variations are ordered by name. -/
def before : Systematic → Systematic → Bool
  | .nominal, .nominal => false
  | .nominal, .variation _ => true
  | .variation _, .nominal => false
  | .variation a, .variation b => decide (a < b)

instance : LT Systematic := ⟨fun a b => before a b = true⟩

instance : DecidableLT Systematic := fun a b => inferInstanceAs (Decidable (before a b = true))

end Systematic
end SelectionPlan
