/-!
# Letters, digits and their case

Within ASCII these classes are exact.  Beyond it, everything but signs, marks and blanks counts as
a letter or digit, and the case of letters is known for Latin-1, Greek and Cyrillic.
-/

namespace SelectionPlan

def inRanges (ranges : List (Nat × Nat)) (c : Char) : Bool :=
  ranges.any fun (low, high) => decide (low ≤ c.toNat ∧ c.toNat ≤ high)

def signRanges : List (Nat × Nat) :=
  [(0x80, 0xa9), (0xab, 0xb1), (0xb4, 0xb4), (0xb6, 0xb8), (0xbb, 0xbb), (0xbf, 0xbf),
   (0xd7, 0xd7), (0xf7, 0xf7), (0x300, 0x344), (0x346, 0x36f), (0x2000, 0x206f),
   (0x20a0, 0x20f0), (0x2190, 0x245f), (0x2500, 0x2775), (0x2794, 0x2bff), (0x3000, 0x3004),
   (0x3008, 0x3020), (0xe000, 0xf8ff), (0xfe10, 0xfe6f), (0xff01, 0xff0f), (0xfffd, 0xffff),
   (0x1f000, 0x1f0ff), (0x1f200, 0x1fbef), (0xe0000, 0x10ffff)]

def digitStarts : List Nat :=
  [0x30, 0x660, 0x6f0, 0x7c0, 0x966, 0x9e6, 0xa66, 0xae6, 0xb66, 0xbe6, 0xc66, 0xce6, 0xd66,
   0xde6, 0xe50, 0xed0, 0xf20, 0x1040, 0x1090, 0x17e0, 0x1810, 0xff10]

def otherNumberRanges : List (Nat × Nat) :=
  [(0xb2, 0xb3), (0xb9, 0xb9), (0xbc, 0xbe), (0x2070, 0x2079), (0x2080, 0x2089), (0x2150, 0x218b),
   (0x2460, 0x249b), (0x24ea, 0x24ff), (0x2776, 0x2793), (0x3007, 0x3007), (0x3021, 0x3029)]

def isDecimalDigit (c : Char) : Bool :=
  digitStarts.any fun start => decide (start ≤ c.toNat ∧ c.toNat < start + 10)

def isNumberSign (c : Char) : Bool := isDecimalDigit c || inRanges otherNumberRanges c

def isAlphanumeric (c : Char) : Bool :=
  c.isAlphanum || (decide (128 ≤ c.toNat) && (isNumberSign c || !inRanges signRanges c))

def isLetter (c : Char) : Bool := isAlphanumeric c && !isNumberSign c

def isMark (c : Char) : Bool :=
  inRanges [(0x300, 0x36f), (0x483, 0x489), (0x591, 0x5bd), (0x20d0, 0x20f0), (0xfe20, 0xfe2f)] c

def shifted (c : Char) (difference : Int) : Char := Char.ofNat (c.toNat + difference).toNat

def caseVariants (c : Char) : List Char :=
  let n := c.toNat
  let within := fun low high => decide (low ≤ n ∧ n ≤ high)
  if c.isUpper then
    shifted c 32 :: (if c = 'K' then ['\u212a'] else if c = 'S' then ['\u017f'] else [])
  else if c.isLower then
    shifted c (-32) :: (if c = 'k' then ['\u212a'] else if c = 's' then ['\u017f'] else [])
  else if n == 0x212a then ['k', 'K']
  else if n == 0x17f then ['s', 'S']
  else if (within 0xc0 0xde && n != 0xd7) || (within 0x391 0x3a9 && n != 0x3a2) ||
      within 0x410 0x42f then [shifted c 32]
  else if (within 0xe0 0xfe && n != 0xf7) || (within 0x3b1 0x3c9 && n != 0x3c2) ||
      within 0x430 0x44f then [shifted c (-32)]
  else if within 0x400 0x40f then [shifted c 80]
  else if within 0x450 0x45f then [shifted c (-80)]
  else []

def isUppercase (c : Char) : Bool :=
  c.isUpper || (decide (128 ≤ c.toNat) && (caseVariants c).any fun d => decide (c < d))

def isLowercase (c : Char) : Bool :=
  c.isLower || (decide (128 ≤ c.toNat) && (caseVariants c).any fun d => decide (d < c)) ||
    c.toNat == 0xdf || c.toNat == 0xff

end SelectionPlan
