import SelectionPlan.Pattern.Bracket
/-!
# Reading patterns

Patterns are written as regular expressions: classes in brackets with set operations, groups with
flags, alternatives, counted repetitions and escapes.  Back references and conditions on longer
surroundings are not part of the notation.
-/

namespace SelectionPlan
namespace Pattern

/-! ### Repetitions and groups -/

def readCount? (cs : List Char) : Option (Nat × List Char) :=
  let cs := cs.dropWhile isWhiteSpace
  let digits := cs.takeWhile Char.isDigit
  let n := digits.foldl (fun n c => 10 * n + (c.toNat - '0'.toNat)) 0
  if digits.isEmpty ∨ 4294967296 ≤ n then none
  else some (n, (cs.drop digits.length).dropWhile isWhiteSpace)

def readBounds? (cs : List Char) : Option ((Nat × Option Nat) × List Char) := do
  let (least, rest) ← readCount? cs
  match rest with
  | '\x7d' :: rest => some ((least, some least), rest)
  | ',' :: '\x7d' :: rest => some ((least, none), rest)
  | ',' :: rest => do
    let (most, rest) ← readCount? rest
    match rest with
    | '\x7d' :: rest => if least ≤ most then some ((least, some most), rest) else none
    | _ => none
  | _ => none

def Flags.set? (flags : Flags) (value : Bool) : Char → Option Flags
  | 'i' => some { flags with ignoreCase := value }
  | 'm' => some { flags with multiLine := value }
  | 's' => some { flags with dotAll := value }
  | 'R' => some { flags with carriage := value }
  | 'u' => some { flags with ascii := !value }
  | 'x' => some { flags with spaced := value }
  | 'U' => some flags
  | _ => none

/-- The letters of flags up to the end of the group or its colon.  A letter may stand once, and so
may the sign that turns flags off, which has to stand before a letter. -/
def readFlags? (flags : Flags) (seen : List Char) : List Char → Option (Flags × Bool × List Char)
  | [] => none
  | c :: rest =>
    if c = ':' then if seen.head? = some '-' then none else some (flags, true, rest)
    else if c = ')' then
      if seen = [] ∨ seen.head? = some '-' then none else some (flags, false, rest)
    else if c ∈ seen then none
    else if c = '-' then readFlags? flags (c :: seen) rest
    else
      match flags.set? (!seen.contains '-') c with
      | none => none
      | some flags => readFlags? flags (c :: seen) rest

def readGroupName? (cs : List Char) : Option (String × List Char) :=
  let name := cs.takeWhile (· != '>')
  let isStart := fun c => c == '_' || isLetter c
  let isRest := fun c => isAlphanumeric c || c == '_' || c == '.' || c == '[' || c == ']'
  match name, cs.drop name.length with
  | c :: more, _ :: rest =>
    if isStart c && more.all isRest then some (String.ofList name, rest) else none
  | _, _ => none

inductive GroupStart
  /-- A group with flags of its own. -/
  | group (flags : Flags) (name : Option String) (rest : List Char)
  /-- Flags for the rest of the group around. -/
  | flags (flags : Flags) (rest : List Char)

def readGroupStart? (flags : Flags) (cs : List Char) : Option GroupStart :=
  match cs with
  | '?' :: 'P' :: '<' :: rest =>
    (readGroupName? rest).map fun (name, rest) => .group flags (some name) rest
  | '?' :: '<' :: rest =>
    if rest.head? = some '=' ∨ rest.head? = some '!' then none
    else (readGroupName? rest).map fun (name, rest) => .group flags (some name) rest
  | '?' :: rest => do
    let (inner, isGroup, rest) ← readFlags? flags [] rest
    return if isGroup then .group inner none rest else .flags inner rest
  | rest => some (.group flags none rest)

/-! ### Expressions -/

/-- A class as a pattern.  Without the characters beyond ASCII, no class may hold any. -/
def ofSet? (flags : Flags) (s : CharSet) : Option Pattern :=
  if flags.ascii && (List.range 128).any fun i => s.contains (Char.ofNat (128 + i)) then none
  else some (.one s)

def ofAtom? (flags : Flags) : Atom → Option Pattern
  | .literal c => some (.one (folded flags (.single c)))
  | .set s => ofSet? flags s
  | .boundary b => some (.boundary b)

def dotSet (flags : Flags) : CharSet :=
  if flags.dotAll then .everything
  else if flags.carriage then .complement (.union (.single '\n') (.single '\r'))
  else .complement (.single '\n')

def lineStart (flags : Flags) : Boundary :=
  if flags.multiLine then .lineStart flags.carriage else .textStart

def lineEnd (flags : Flags) : Boundary :=
  if flags.multiLine then .lineEnd flags.carriage else .textEnd

/-- The last parts come first; flags stand for nothing. -/
def joinParts (parts : List (Option Pattern)) : Pattern :=
  parts.foldl (fun after part => match part with
    | none => after
    | some p => .seq p after) .empty

def joinAlternatives (before : List Pattern) (last : Pattern) : Pattern :=
  before.foldl (fun after p => .alt p after) last

/-- A repetition of the part read last.  The sign that prefers short parts may follow. -/
def repeatLast? (parts : List (Option Pattern)) (least : Nat) (most : Option Nat)
    (flags : Flags) (rest : List Char) : Option (List (Option Pattern) × List Char) :=
  match parts with
  | some p :: parts =>
    let rest := match skipSpaced flags false rest with
      | '?' :: rest => rest
      | rest => rest
    some (some (.repeated p least most) :: parts, rest)
  | _ => none

/-- An expression up to the end of its group or of the text, with what was read of it so far: the
names of groups, the alternatives before and the parts of this one.  The result comes with the
names and the rest of the text. -/
def readBody : (fuel : Nat) → (inGroup : Bool) → Flags → List String → List Pattern →
    List (Option Pattern) → List Char → Option (Pattern × List String × List Char)
  | 0, _, _, _, _, _, _ => none
  | fuel + 1, inGroup, flags, names, alternatives, parts, cs =>
    let done := joinAlternatives alternatives (joinParts parts)
    let goOn := fun parts rest => readBody fuel inGroup flags names alternatives parts rest
    let repeated := fun (least : Nat) (most : Option Nat) (rest : List Char) => do
      let (parts, rest) ← repeatLast? parts least most flags rest
      goOn parts rest
    match skipSpaced flags false cs with
    | [] => if inGroup then none else some (done, names, [])
    | ')' :: rest => if inGroup then some (done, names, rest) else none
    | '|' :: rest =>
      readBody fuel inGroup flags names (joinParts parts :: alternatives) [] rest
    | '?' :: rest => repeated 0 (some 1) rest
    | '*' :: rest => repeated 0 none rest
    | '+' :: rest => repeated 1 none rest
    | '\x7b' :: rest => do
      let ((least, most), rest) ← readBounds? rest
      repeated least most rest
    | '[' :: rest => do
      let (negated, start, rest) := readClassStart flags (skipSpaced flags false rest)
      let (s, rest) ← readClass flags (rest.length + 1) negated none start rest
      goOn (some (← ofSet? flags s) :: parts) rest
    | '(' :: rest => do
      match ← readGroupStart? flags (skipSpaced flags false rest) with
      | .flags flags rest => readBody fuel inGroup flags names alternatives (none :: parts) rest
      | .group inner name rest =>
        if name.any names.contains then none
        else
          let (p, names, rest) ← readBody fuel true inner (name.toList ++ names) [] [] rest
          readBody fuel inGroup flags names alternatives (some p :: parts) rest
    | '.' :: rest => do goOn (some (← ofSet? flags (dotSet flags)) :: parts) rest
    | '^' :: rest => goOn (some (.boundary (lineStart flags)) :: parts) rest
    | '$' :: rest => goOn (some (.boundary (lineEnd flags)) :: parts) rest
    | '\\' :: rest => do
      let (atom, rest) ← readEscape? flags rest
      goOn (some (← ofAtom? flags atom) :: parts) rest
    | c :: rest => do goOn (some (← ofAtom? flags (.literal c)) :: parts) rest

def sizeLimit : Nat := 300000

def read? (text : String) : Option Pattern := do
  let cs := text.toList
  let (p, _, _) ← readBody (cs.length + 1) false {} [] [] [] cs
  if sizeLimit < p.size then none else some p

end Pattern
end SelectionPlan
