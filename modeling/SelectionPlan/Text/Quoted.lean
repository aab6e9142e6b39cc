import SelectionPlan.Variable
/-!
# Quoted texts

A quoted text shows control characters, quotes and backslashes by escapes.
-/

namespace SelectionPlan

/-- Whether a character is shown as it is: not a control or format character, no blank other than
a space, no combining mark, and not outside the assigned planes. -/
def isPrintable (c : Char) : Bool :=
  let n := c.toNat
  let hidden : List (Nat × Nat) :=
    [(0, 31), (127, 160), (173, 173), (0x300, 0x36f), (0x483, 0x489), (0x591, 0x5bd),
     (0x600, 0x605), (0x610, 0x61a), (0x64b, 0x65f), (0x1680, 0x1680), (0x180b, 0x180f),
     (0x1ab0, 0x1aff), (0x1dc0, 0x1dff), (0x2000, 0x200f), (0x2028, 0x202f), (0x205f, 0x206f),
     (0x20d0, 0x20f0), (0x3000, 0x3000), (0x302a, 0x302f), (0x3099, 0x309a), (0xd800, 0xf8ff),
     (0xfe00, 0xfe0f), (0xfe20, 0xfe2f), (0xfeff, 0xfeff), (0xfff0, 0xfffb), (0xfffe, 0xffff),
     (0xe0000, 0x10ffff)]
  !hidden.any fun (low, high) => decide (low ≤ n ∧ n ≤ high)

def quotedChar (c : Char) : List Char :=
  if c = '\x00' then ['\\', '0']
  else if c = '\t' then ['\\', 't']
  else if c = '\n' then ['\\', 'n']
  else if c = '\r' then ['\\', 'r']
  else if c = '\\' ∨ c = '"' then ['\\', c]
  else if isPrintable c then [c]
  else ['\\', 'u', '\x7b'] ++ Nat.toDigits 16 c.toNat ++ ['\x7d']

def quoted (text : String) : String :=
  "\"" ++ String.ofList (text.toList.flatMap quotedChar) ++ "\""

def Specification.describe : Specification → String
  | .branch column => "Branch(" ++ quoted column ++ ")"
  | .expression e => "Expression(" ++ quoted e.source ++ ")"
  | .function _ inputs =>
    "Function \x7b inputs: [" ++ ", ".intercalate (inputs.map quoted) ++ "], .. \x7d"

end SelectionPlan
