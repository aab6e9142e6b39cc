import SelectionPlan.Ordered
import SelectionPlan.Text.Blank
import SelectionPlan.Text.Letters
/-!
# Patterns

A pattern describes parts of texts.  It is found in a text if some part of the text, which may be
empty, is of the kind it describes.  Conditions on the surroundings of a position take up no part.
-/

namespace SelectionPlan

inductive CharSet
  | nothing
  | range (low high : Char)
  /-- Decimal digits, of all scripts or of ASCII. -/
  | digits (ascii : Bool)
  | spaces (ascii : Bool)
  /-- The characters of words: letters, digits, marks and connectors. -/
  | words (ascii : Bool)
  | letters
  | uppercase
  | lowercase
  | numbers
  | union (a b : CharSet)
  | inter (a b : CharSet)
  | complement (a : CharSet)
  | anyCase (a : CharSet)
  deriving Repr

namespace CharSet

def single (c : Char) : CharSet := .range c c

def everything : CharSet := .complement .nothing

def diff (a b : CharSet) : CharSet := .inter a (.complement b)

def symmDiff (a b : CharSet) : CharSet := .union (diff a b) (diff b a)

def isAsciiSpace (c : Char) : Bool :=
  c == ' ' || (decide (9 ≤ c.toNat) && decide (c.toNat ≤ 13))

def isWordChar (ascii : Bool) (c : Char) : Bool :=
  c.isAlphanum || c == '_' || (!ascii && (isAlphanumeric c || isMark c ||
    inRanges [(0x200c, 0x200d), (0x203f, 0x2040)] c) && !inRanges otherNumberRanges c)

def contains : CharSet → Char → Bool
  | nothing, _ => false
  | range low high, c => decide (low ≤ c ∧ c ≤ high)
  | digits ascii, c => if ascii then c.isDigit else isDecimalDigit c
  | spaces ascii, c => if ascii then isAsciiSpace c else isWhiteSpace c
  | words ascii, c => isWordChar ascii c
  | letters, c => isLetter c
  | uppercase, c => isUppercase c
  | lowercase, c => isLowercase c
  | numbers, c => isNumberSign c
  | union a b, c => a.contains c || b.contains c
  | inter a b, c => a.contains c && b.contains c
  | complement a, c => !a.contains c
  | anyCase a, c => a.contains c || (caseVariants c).any a.contains

def ofRanges (ranges : List (Char × Char)) : CharSet :=
  ranges.foldr (fun (low, high) rest => .union (.range low high) rest) .nothing

end CharSet

inductive Boundary
  | textStart
  | textEnd
  /-- Line ends are newlines, or also carriage returns. -/
  | lineStart (carriage : Bool)
  | lineEnd (carriage : Bool)
  | word (ascii : Bool)
  | noWord (ascii : Bool)
  | wordStart (ascii : Bool)
  | wordEnd (ascii : Bool)
  | wordStartHalf (ascii : Bool)
  | wordEndHalf (ascii : Bool)
  deriving DecidableEq, Repr

namespace Boundary

/-- Whether a condition holds between two characters; at an end of the text there is none. -/
def holds (before after : Option Char) : Boundary → Bool
  | textStart => before.isNone
  | textEnd => after.isNone
  | lineStart carriage =>
    before.isNone || before == some '\n' ||
      (carriage && before == some '\r' && after != some '\n')
  | lineEnd carriage =>
    if carriage then
      after.isNone || after == some '\r' || (after == some '\n' && before != some '\r')
    else after.isNone || after == some '\n'
  | word ascii => isWord ascii before != isWord ascii after
  | noWord ascii => isWord ascii before == isWord ascii after
  | wordStart ascii => !isWord ascii before && isWord ascii after
  | wordEnd ascii => isWord ascii before && !isWord ascii after
  | wordStartHalf ascii => !isWord ascii before
  | wordEndHalf ascii => !isWord ascii after
where
  isWord (ascii : Bool) (c : Option Char) : Bool := (c.map (CharSet.isWordChar ascii)).getD false

end Boundary

inductive Pattern
  | empty
  | one (set : CharSet)
  | boundary (b : Boundary)
  | seq (a b : Pattern)
  | alt (a b : Pattern)
  /-- At least so many times, and at most so many times if there is a bound. -/
  | repeated (a : Pattern) (least : Nat) (most : Option Nat)
  deriving Repr

namespace Pattern

def after (step : Nat → List Nat) : Nat → List Nat → List Nat
  | 0, positions => positions
  | n + 1, positions =>
    if positions.isEmpty then [] else after step n (sortDistinct (positions.flatMap step))

def within (step : Nat → List Nat) : Nat → List Nat → List Nat
  | 0, positions => positions
  | n + 1, positions =>
    let more := unionDistinct (positions.flatMap step) positions
    if more = positions then positions else within step n more

def ends (text : List Char) : Pattern → Nat → List Nat
  | empty, i => [i]
  | one set, i => if (text[i]?.map set.contains).getD false then [i + 1] else []
  | boundary b, i =>
    let before := if i = 0 then none else text[i - 1]?
    if b.holds before text[i]? then [i] else []
  | seq a b, i => sortDistinct ((a.ends text i).flatMap (b.ends text))
  | alt a b, i => unionDistinct (a.ends text i) (b.ends text i)
  | repeated a least most, i =>
    let further := match most with
      | none => text.length + 1
      | some most => min (most - least) (text.length + 1)
    within (a.ends text) further (after (a.ends text) least [i])

def occursIn (p : Pattern) (text : String) : Bool :=
  let cs := text.toList
  (List.range (cs.length + 1)).any fun i => !(p.ends cs i).isEmpty

/-- A measure of a pattern in which every repetition counts. -/
def size : Pattern → Nat
  | empty => 1
  | one _ => 1
  | boundary _ => 1
  | seq a b => a.size + b.size
  | alt a b => a.size + b.size + 1
  | repeated a least most => a.size * max 1 (most.getD least) + 1

end Pattern
end SelectionPlan
