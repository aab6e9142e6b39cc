import SelectionPlan.Decimal.Binary64
/-!
# The shortest decimal that reads back

Every real number between the midpoints to a double's two neighbours rounds to that double, the
midpoints included when its significand is even.  The shortest decimal of a double is the first hit
of that interval on the grids of one digit, two digits and so on; of two hits on one grid the
nearer one counts, and of two equally near ones the larger.
-/

namespace SelectionPlan

/-- The number `digits * 10 ^ exponent`. -/
structure Decimal where
  digits : Nat
  exponent : Int
  deriving DecidableEq, Repr

namespace Decimal

/-- The numbers that round to a double, in a common decimal unit `10 ^ exponent`. -/
structure RoundingInterval where
  value : Nat
  low : Nat
  high : Nat
  exponent : Int
  closed : Bool
  deriving DecidableEq, Repr

/-- Midpoints are multiples of a quarter of the unit, because a power of two is twice as near to
the double below it as to the one above. -/
def RoundingInterval.ofMagnitude (x : Binary64.Magnitude) : RoundingInterval :=
  let quarter := x.unit - 2
  let scale := if 0 ≤ quarter then Nat.pow 2 quarter.toNat else Nat.pow 5 (-quarter).toNat
  let below :=
    if x.significand = Binary64.fractionRange ∧ Binary64.minUnit < x.unit then 1 else 2
  { value := 4 * x.significand * scale
    low := (4 * x.significand - below) * scale
    high := (4 * x.significand + 2) * scale
    exponent := min quarter 0
    closed := x.significand % 2 == 0 }

def RoundingInterval.contains (i : RoundingInterval) (n : Nat) : Bool :=
  if i.closed then decide (i.low ≤ n ∧ n ≤ i.high) else decide (i.low < n ∧ n < i.high)

def digitCount (n : Nat) : Nat := (Nat.toDigits 10 n).length

/-- The nearer of a value's two neighbours among the multiples of `step` that lie in the interval. -/
def RoundingInterval.onGrid (i : RoundingInterval) (step : Nat) : Option Nat :=
  let below := i.value / step * step
  let above := below + step
  match i.contains below, i.contains above with
  | true, true => some (if above - i.value ≤ i.value - below then above else below)
  | true, false => some below
  | false, true => some above
  | false, false => none

def normalize (fuel : Nat) (d : Decimal) : Decimal :=
  match fuel with
  | 0 => d
  | fuel + 1 =>
    if d.digits ≠ 0 ∧ d.digits % 10 = 0 then normalize fuel ⟨d.digits / 10, d.exponent + 1⟩ else d

/-- The shortest decimal of a magnitude.  Seventeen digits always suffice. -/
def shortest (x : Binary64.Magnitude) : Decimal :=
  let i := RoundingInterval.ofMagnitude x
  let length := digitCount i.value
  let hit := (List.range 17).findSome? fun n => i.onGrid (Nat.pow 10 (length - (n + 1)))
  let digits := hit.getD i.value
  normalize (digitCount digits) ⟨digits, i.exponent⟩

end Decimal
end SelectionPlan
