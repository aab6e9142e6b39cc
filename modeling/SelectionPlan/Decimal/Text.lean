import SelectionPlan.Decimal.Shortest
/-!
# Numbers as text

Floating-point numbers are written with the fewest digits that read back, always positionally and
never with an exponent.  They are read from the usual decimal notation, with or without a point and
an exponent, or from the names of infinity and the undefined number.
-/

namespace SelectionPlan

def Decimal.positional (d : Decimal) : String :=
  let digits := Nat.toDigits 10 d.digits
  if d.digits = 0 then "0"
  else if 0 ≤ d.exponent then
    String.ofList (digits ++ List.replicate d.exponent.toNat '0')
  else
    let places := (-d.exponent).toNat
    let padded := List.replicate (places + 1 - digits.length) '0' ++ digits
    let whole := padded.length - places
    String.ofList (padded.take whole ++ '.' :: padded.drop whole)

/-- How a format names the numbers that have no digits, and whether whole numbers end in `.0`. -/
structure NumberStyle where
  undefined : String
  infinite : String
  wholeSuffix : String

namespace NumberStyle

def plain : NumberStyle := ⟨"NaN", "inf", ""⟩

def write (style : NumberStyle) (x : Float) : String :=
  let bits := Binary64.magnitudeBits x
  let sign := if Binary64.isNegative x then "-" else ""
  if Binary64.infinityBits < bits then style.undefined
  else if bits = Binary64.infinityBits then sign ++ style.infinite
  else
    let d := Decimal.shortest (Binary64.Magnitude.ofBits bits)
    sign ++ d.positional ++ (if d.digits = 0 ∨ 0 ≤ d.exponent then style.wholeSuffix else "")

end NumberStyle

def numberText (x : Float) : String := NumberStyle.plain.write x

def isInt64 (n : Int) : Bool :=
  decide (-9223372036854775808 ≤ n) && decide (n ≤ 9223372036854775807)

namespace Decimal

def digitsValue (cs : List Char) : Nat :=
  cs.foldl (fun n c => 10 * n + (c.toNat - '0'.toNat)) 0

/-- The double nearest to a decimal.  Exponents far outside the range of doubles are answered
without computing the power. -/
def toFloat (negative : Bool) (d : Decimal) : Float :=
  let magnitude := d.exponent + digitCount d.digits
  if d.digits = 0 ∨ magnitude < -400 then Binary64.nearest negative 0 1
  else if 400 < magnitude then Binary64.infinity negative
  else if 0 ≤ d.exponent then
    Binary64.nearest negative (d.digits * Nat.pow 10 d.exponent.toNat) 1
  else Binary64.nearest negative d.digits (Nat.pow 10 (-d.exponent).toNat)

def splitSign : List Char → Bool × List Char
  | '-' :: rest => (true, rest)
  | '+' :: rest => (false, rest)
  | rest => (false, rest)

def readExponent? : List Char → Option Int
  | [] => some 0
  | c :: rest =>
    if c = 'e' ∨ c = 'E' then
      let (negative, digits) := splitSign rest
      if digits.isEmpty || !digits.all Char.isDigit then none
      else
        let n : Int := digitsValue digits
        some (if negative then -n else n)
    else none

/-- An unsigned literal: digits with at most one point among or beside them, then an exponent. -/
def readUnsigned? (cs : List Char) : Option Decimal :=
  let whole := cs.takeWhile Char.isDigit
  let rest := cs.dropWhile Char.isDigit
  let pointed := match rest with
    | '.' :: rest => (rest.takeWhile Char.isDigit, rest.dropWhile Char.isDigit)
    | rest => ([], rest)
  let digits := whole ++ pointed.1
  if digits.isEmpty then none
  else (readExponent? pointed.2).map fun e => ⟨digitsValue digits, e - pointed.1.length⟩

end Decimal

/-- Reads a number: a decimal literal with an optional sign, or in any letter case `inf`,
`infinity` or `nan`. -/
def readNumber? (cs : List Char) : Option Float :=
  let (negative, rest) := Decimal.splitSign cs
  let lower := rest.map Char.toLower
  if lower = "inf".toList ∨ lower = "infinity".toList then
    some (Binary64.infinity negative)
  else if lower = "nan".toList then some Binary64.notANumber
  else (Decimal.readUnsigned? rest).map (Decimal.toFloat negative)

end SelectionPlan
