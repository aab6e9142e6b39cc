/-!
# Binary double precision

A finite double is a whole number of units, each unit a power of two.  This module takes a double
apart into that number and its unit, and rounds an exact quotient of natural numbers to the nearest
double, with a tie going to the even neighbour.
-/

namespace SelectionPlan.Binary64

def fractionRange : Nat := Nat.pow 2 52

/-- The exponent of the smallest unit, the distance between neighbouring subnormal doubles. -/
def minUnit : Int := -1074

/-- The magnitude bits of infinity, the least pattern that is not a finite double. -/
def infinityBits : Nat := 2047 * fractionRange

/-- A nonnegative double `significand * 2 ^ unit`. -/
structure Magnitude where
  significand : Nat
  unit : Int
  deriving DecidableEq, Repr

def notANumber : Float := 0.0 / 0.0

def magnitudeBits (x : Float) : Nat := x.toBits.toNat % Nat.pow 2 63

/-- Whether the sign bit is set; it is for `-0.0`. -/
def isNegative (x : Float) : Bool := decide (Nat.pow 2 63 ≤ x.toBits.toNat)

/-- The magnitude that finite bits stand for: subnormal doubles lack the implicit leading one. -/
def Magnitude.ofBits (bits : Nat) : Magnitude :=
  let exponent := bits / fractionRange
  let fraction := bits % fractionRange
  if exponent = 0 then ⟨fraction, minUnit⟩
  else ⟨fractionRange + fraction, minUnit + (exponent - 1 : Nat)⟩

/-- The quotient rounded to the nearest natural number, a tie to the even one. -/
def roundedQuotient (num den : Nat) : Nat :=
  let q := num / den
  let twice := 2 * (num % den)
  if twice < den then q
  else if den < twice then q + 1
  else q + q % 2

def inUnits (num den : Nat) (unit : Int) : Nat × Nat :=
  if 0 ≤ unit then (num, den * Nat.pow 2 unit.toNat)
  else (num * Nat.pow 2 (-unit).toNat, den)

/-- The unit of the doubles around `num / den`: the quotient is below `2 ^ 53` of them and, unless
the unit is the smallest, at least `2 ^ 52`. -/
def unitOf (num den : Nat) : Int :=
  let low : Int := (Nat.log2 num : Int) - Nat.log2 den - 53
  let scaled := inUnits num den low
  let unit := if scaled.1 / scaled.2 < Nat.pow 2 53 then low else low + 1
  max unit minUnit

/-- The magnitude bits of the double nearest to `num / den`; too large a quotient is infinite. -/
def nearestBits (num den : Nat) : Nat :=
  if num = 0 then 0
  else
    let unit := unitOf num den
    let scaled := inUnits num den unit
    let bits := (unit - minUnit).toNat * fractionRange + roundedQuotient scaled.1 scaled.2
    min bits infinityBits

def nearest (negative : Bool) (num den : Nat) : Float :=
  Float.ofBits (UInt64.ofNat ((if negative then Nat.pow 2 63 else 0) + nearestBits num den))

def infinity (negative : Bool) : Float :=
  Float.ofBits (UInt64.ofNat ((if negative then Nat.pow 2 63 else 0) + infinityBits))

end SelectionPlan.Binary64
