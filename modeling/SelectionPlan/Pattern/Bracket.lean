import SelectionPlan.Pattern.Escape
/-!
# Classes in brackets

A class lists characters, ranges and other classes, and may be negated.  Classes are joined by
`&&` for what they have in common, `--` for what the first has alone and `~~` for what exactly one
of them has.
-/

namespace SelectionPlan
namespace Pattern

def asciiSet? : String → Option CharSet
  | "alnum" => some (.ofRanges [('0', '9'), ('A', 'Z'), ('a', 'z')])
  | "alpha" => some (.ofRanges [('A', 'Z'), ('a', 'z')])
  | "ascii" => some (.range '\x00' '\x7f')
  | "blank" => some (.ofRanges [('\t', '\t'), (' ', ' ')])
  | "cntrl" => some (.ofRanges [('\x00', '\x1f'), ('\x7f', '\x7f')])
  | "digit" => some (.range '0' '9')
  | "graph" => some (.range '!' '~')
  | "lower" => some (.range 'a' 'z')
  | "print" => some (.range ' ' '~')
  | "punct" => some (.ofRanges [('!', '/'), (':', '@'), ('[', '\x60'), ('\x7b', '~')])
  | "space" => some (.spaces true)
  | "upper" => some (.range 'A' 'Z')
  | "word" => some (.words true)
  | "xdigit" => some (.ofRanges [('0', '9'), ('A', 'F'), ('a', 'f')])
  | _ => none

def readAsciiClass? : List Char → Option (CharSet × List Char)
  | ':' :: rest =>
    let (negated, rest) := match rest with
      | '^' :: rest => (true, rest)
      | rest => (false, rest)
    let name := rest.takeWhile (· != ':')
    match rest.drop name.length with
    | ':' :: ']' :: rest =>
      (asciiSet? (String.ofList name)).map fun s => (if negated then .complement s else s, rest)
    | _ => none
  | _ => none

def readClassAtom? (flags : Flags) : List Char → Option (Atom × List Char)
  | [] => none
  | '\\' :: rest => readEscape? flags rest
  | c :: rest => some (.literal c, rest)

def Atom.set? : Atom → Option CharSet
  | literal c => some (.single c)
  | set s => some s
  | boundary _ => none

def Atom.literal? : Atom → Option Char
  | literal c => some c
  | _ => none

def readRange? (flags : Flags) (cs : List Char) : Option (CharSet × List Char) := do
  let (first, rest) ← readClassAtom? flags cs
  match skipSpaced flags false rest with
  | '-' :: more =>
    let more := skipSpaced flags false more
    if more.head? = some ']' ∨ more.head? = some '-' then
      return (← first.set?, skipSpaced flags false rest)
    else
      let (last, rest) ← readClassAtom? flags more
      let low ← first.literal?
      let high ← last.literal?
      if low ≤ high then some (.range low high, rest) else none
  | rest => return (← first.set?, rest)

inductive SetOperation
  | inter
  | diff
  | symmDiff
  deriving DecidableEq, Repr

def setOperation? : List Char → Option (SetOperation × List Char)
  | '&' :: '&' :: rest => some (.inter, rest)
  | '-' :: '-' :: rest => some (.diff, rest)
  | '~' :: '~' :: rest => some (.symmDiff, rest)
  | _ => none

def folded (flags : Flags) (s : CharSet) : CharSet := if flags.ignoreCase then .anyCase s else s

def joinSets (flags : Flags) (left : Option (SetOperation × CharSet)) (right : CharSet) : CharSet :=
  match left with
  | none => right
  | some (.inter, a) => .inter (folded flags a) (folded flags right)
  | some (.diff, a) => .diff (folded flags a) (folded flags right)
  | some (.symmDiff, a) => .symmDiff (folded flags a) (folded flags right)

def readClassStart (flags : Flags) (cs : List Char) : Bool × CharSet × List Char :=
  let (negated, cs) := match cs with
    | '^' :: rest => (true, skipSpaced flags false rest)
    | cs => (false, cs)
  let dashes := cs.takeWhile (· == '-')
  let rest := skipSpaced flags false (cs.drop dashes.length)
  match dashes, rest with
  | [], ']' :: rest => (negated, .single ']', rest)
  | [], rest => (negated, .nothing, rest)
  | _, rest => (negated, .single '-', rest)

def readClass (flags : Flags) : (fuel : Nat) → (negated : Bool) →
    Option (SetOperation × CharSet) → CharSet → List Char → Option (CharSet × List Char)
  | 0, _, _, _, _ => none
  | fuel + 1, negated, left, done, cs =>
    let cs := skipSpaced flags false cs
    match cs with
    | [] => none
    | ']' :: rest =>
      let s := folded flags (joinSets flags left done)
      some (if negated then .complement s else s, rest)
    | '[' :: rest =>
      match readAsciiClass? rest with
      | some (s, rest) => readClass flags fuel negated left (.union done s) rest
      | none => do
        let (innerNegated, start, rest) := readClassStart flags (skipSpaced flags false rest)
        let (s, rest) ← readClass flags fuel innerNegated none start rest
        readClass flags fuel negated left (.union done s) rest
    | cs =>
      match setOperation? cs with
      | some (operation, rest) =>
        readClass flags fuel negated (some (operation, joinSets flags left done)) .nothing rest
      | none => do
        let (s, rest) ← readRange? flags cs
        readClass flags fuel negated left (.union done s) rest

end Pattern
end SelectionPlan
