import SelectionPlan.Decimal.Text
import SelectionPlan.Toml.Quotation
import SelectionPlan.Toml.Value
/-!
# Numbers, truth values and moments of TOML

These values are written as one word of letters, digits, points, colons and signs.  Only a date
and a time may be separated by a space.
-/

namespace SelectionPlan
namespace Toml

def isWordChar (c : Char) : Bool :=
  c.isAlphanum || c == '+' || c == '-' || c == '_' || c == '.' || c == ':'

def ungrouped? (isDigit : Char → Bool) : List Char → Option (List Char)
  | [] => none
  | [c] => if isDigit c then some [c] else none
  | c :: '_' :: rest => if isDigit c then (ungrouped? isDigit rest).map (c :: ·) else none
  | c :: rest => if isDigit c then (ungrouped? isDigit rest).map (c :: ·) else none

/-- The digits of a whole number: zero, or digits of which the first is not zero. -/
def wholeDigits? (cs : List Char) : Option (List Char) := do
  let digits ← ungrouped? Char.isDigit cs
  if digits.head? = some '0' ∧ cs ≠ ['0'] then none else some digits

def radixValue? (base : Nat) (cs : List Char) : Option Nat := do
  let digits ← ungrouped? (fun c => ((hexDigitValue? c).map fun d => decide (d < base)).getD false) cs
  digits.foldlM (fun n c => (hexDigitValue? c).map (base * n + ·)) 0

def bounded? (n : Int) : Option Value :=
  if isInt64 n then some (.integer n) else none

def readInteger? (cs : List Char) : Option Value :=
  match cs with
  | '0' :: 'x' :: rest => (radixValue? 16 rest).bind fun n => bounded? n
  | '0' :: 'o' :: rest => (radixValue? 8 rest).bind fun n => bounded? n
  | '0' :: 'b' :: rest => (radixValue? 2 rest).bind fun n => bounded? n
  | cs => do
    let (negative, rest) := Decimal.splitSign cs
    let n := Decimal.digitsValue (← wholeDigits? rest)
    bounded? (if negative then -(n : Int) else n)

def exponentValue? (cs : List Char) : Option Int := do
  let (negative, rest) := Decimal.splitSign cs
  let n := Decimal.digitsValue (← ungrouped? Char.isDigit rest)
  return if negative then -(n : Int) else n

def readDecimal? (cs : List Char) : Option Decimal := do
  let isMark := fun c : Char => c == 'e' || c == 'E'
  let mantissa := cs.takeWhile fun c => !isMark c
  let exponent ← match cs.drop mantissa.length with
    | [] => some none
    | _ :: rest => (exponentValue? rest).map some
  let whole ← wholeDigits? (mantissa.takeWhile (· != '.'))
  let fraction ← match mantissa.dropWhile (· != '.') with
    | [] => some none
    | _ :: rest => (ungrouped? Char.isDigit rest).map some
  if exponent.isNone ∧ fraction.isNone then none
  else
    let places := fraction.getD []
    return ⟨Decimal.digitsValue (whole ++ places), exponent.getD 0 - places.length⟩

/-- A floating-point number.  Numbers above the largest one are refused; those below the smallest
one are infinite. -/
def readFloat? (cs : List Char) : Option Value := do
  let (negative, rest) := Decimal.splitSign cs
  if rest = "inf".toList then some (.number (Binary64.infinity negative))
  else if rest = "nan".toList then some (.number Binary64.notANumber)
  else
    let d ← readDecimal? rest
    let x := d.toFloat negative
    if x.isInf ∧ !negative then none else some (.number x)

def twoDigits? (low high : Nat) : List Char → Option (Nat × List Char)
  | a :: b :: rest =>
    if a.isDigit && b.isDigit then
      let n := Decimal.digitsValue [a, b]
      if low ≤ n ∧ n ≤ high then some (n, rest) else none
    else none
  | _ => none

def after? (c : Char) : List Char → Option (List Char)
  | [] => none
  | d :: rest => if d = c then some rest else none

def daysOfMonth (year month : Nat) : Nat :=
  if month = 2 then
    if year % 4 = 0 ∧ (year % 100 ≠ 0 ∨ year % 400 = 0) then 29 else 28
  else if month = 4 ∨ month = 6 ∨ month = 9 ∨ month = 11 then 30 else 31

def date? (cs : List Char) : Option (List Char) := do
  let year := cs.take 4
  if year.length < 4 ∨ !year.all Char.isDigit then none
  else
    let (month, rest) ← twoDigits? 1 12 (← after? '-' (cs.drop 4))
    let (_, rest) ← twoDigits? 1 (daysOfMonth (Decimal.digitsValue year) month) (← after? '-' rest)
    return rest

def time? (cs : List Char) : Option (List Char) := do
  let (_, rest) ← twoDigits? 0 23 cs
  let (_, rest) ← twoDigits? 0 59 (← after? ':' rest)
  let (_, rest) ← twoDigits? 0 60 (← after? ':' rest)
  match rest with
  | '.' :: fraction =>
    if (fraction.head?.map Char.isDigit).getD false then some (fraction.dropWhile Char.isDigit)
    else none
  | rest => some rest

def offset? : List Char → Option (List Char)
  | [] => some []
  | c :: rest =>
    if c = 'Z' ∨ c = 'z' then some rest
    else if c = '+' ∨ c = '-' then do
      let (_, rest) ← twoDigits? 0 23 rest
      let (_, rest) ← twoDigits? 0 59 (← after? ':' rest)
      return rest
    else some (c :: rest)

def isZonedTime (cs : List Char) : Bool := ((time? cs).bind offset?) == some []

def isDate (cs : List Char) : Bool := date? cs == some []

def isMoment (cs : List Char) : Bool :=
  time? cs == some [] ||
    match date? cs with
    | none => false
    | some [] => true
    | some (c :: rest) => (c == 'T' || c == 't') && isZonedTime rest

def readWord? (cs : List Char) : Option Value :=
  if cs = "true".toList then some (.boolean true)
  else if cs = "false".toList then some (.boolean false)
  else if isMoment cs then some .moment
  else (readFloat? cs).or (readInteger? cs)

/-- The word at the start of a text; a date takes a time after a space with it. -/
def readWord (cs : List Char) : Option (Value × List Char) := do
  let word := cs.takeWhile isWordChar
  let rest := cs.drop word.length
  let time := match rest with
    | ' ' :: more => if isDate word then more.takeWhile isWordChar else []
    | _ => []
  if !time.isEmpty && isZonedTime time then some (.moment, rest.drop (time.length + 1))
  else return (← readWord? word, rest)

end Toml
end SelectionPlan
