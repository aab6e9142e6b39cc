/-!
# Hexadecimal digits
-/

namespace SelectionPlan

def hexDigitValue? (c : Char) : Option Nat :=
  if c.isDigit then some (c.toNat - '0'.toNat)
  else if 'a' ≤ c ∧ c ≤ 'f' then some (c.toNat - 'a'.toNat + 10)
  else if 'A' ≤ c ∧ c ≤ 'F' then some (c.toNat - 'A'.toNat + 10)
  else none

def hexValue? (digits : List Char) : Option Nat :=
  digits.foldlM (fun n c => (hexDigitValue? c).map (16 * n + ·)) 0

def hexDigits (width n : Nat) : List Char :=
  (List.range width).map fun i => (Nat.digitChar (n / Nat.pow 16 (width - 1 - i) % 16))

end SelectionPlan
