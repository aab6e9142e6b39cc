import SelectionPlan.Pattern.Basic
import SelectionPlan.Text.Hexadecimal
/-!
# Escapes in patterns

An escape stands for a character, a class of characters or a condition on a position.  Flags
decide which characters belong to a class.
-/

namespace SelectionPlan
namespace Pattern

structure Flags where
  ignoreCase : Bool := false
  /-- Whether `^` and `$` stand for starts and ends of lines. -/
  multiLine : Bool := false
  /-- Whether `.` stands for line ends too. -/
  dotAll : Bool := false
  /-- Whether carriage returns end lines. -/
  carriage : Bool := false
  ascii : Bool := false
  /-- Whether blanks and comments do not count. -/
  spaced : Bool := false
  deriving DecidableEq, Repr

def skipSpaced (flags : Flags) (inComment : Bool) : List Char → List Char
  | [] => []
  | c :: rest =>
    if !flags.spaced then c :: rest
    else if inComment then skipSpaced flags (c != '\n') rest
    else if isWhiteSpace c then skipSpaced flags false rest
    else if c = '#' then skipSpaced flags true rest
    else c :: rest

inductive Atom
  | literal (c : Char)
  | set (s : CharSet)
  | boundary (b : Boundary)
  deriving Repr

def isEscapable (c : Char) : Bool :=
  decide (c.toNat < 128) && !c.isAlphanum && c != '<' && c != '>'

/-- A character by its number, in hexadecimal digits: so many of them, or in braces. -/
def readCoded? (width : Nat) (cs : List Char) : Option (Char × List Char) :=
  let coded := fun (digits : List Char) (rest : List Char) => do
    let n ← hexValue? digits
    if digits.isEmpty ∨ !n.isValidChar then none else some (Char.ofNat n, rest)
  match cs with
  | '\x7b' :: rest =>
    let digits := rest.takeWhile (· != '\x7d')
    if digits.length = rest.length then none else coded digits (rest.drop (digits.length + 1))
  | cs => if cs.length < width then none else coded (cs.take width) (cs.drop width)

def namedSet? : String → Option CharSet
  | "any" => some .everything
  | "ascii" => some (.range '\x00' '\x7f')
  | "l" | "letter" | "alphabetic" | "alpha" => some .letters
  | "lu" | "uppercaseletter" | "uppercase" | "upper" => some .uppercase
  | "ll" | "lowercaseletter" | "lowercase" | "lower" => some .lowercase
  | "n" | "number" => some .numbers
  | "nd" | "decimalnumber" | "digit" => some (.digits false)
  | "whitespace" | "space" => some (.spaces false)
  | "p" | "punctuation" | "punct" =>
    some (.union (.ofRanges [('!', '#'), ('%', '*'), (',', '/'), (':', ';'), ('?', '@'),
      ('[', ']'), ('_', '_'), ('\x7b', '\x7b'), ('\x7d', '\x7d')])
      (.ofRanges [('\u2010', '\u2027'), ('\u2030', '\u2043')]))
  | "s" | "symbol" =>
    some (.ofRanges [('$', '$'), ('+', '+'), ('<', '>'), ('^', '^'), ('\x60', '\x60'), ('|', '|'),
      ('~', '~'), ('\u20a0', '\u20c0'), ('\u2190', '\u23ff')])
  | "z" | "separator" | "zs" | "spaceseparator" =>
    some (.inter (.spaces false) (.complement (.range '\t' '\r')))
  | "c" | "other" | "cc" | "control" | "cntrl" => some (.ofRanges [('\x00', '\x1f'), ('\x7f', '\u009f')])
  | "m" | "mark" => some (.ofRanges [('\u0300', '\u036f'), ('\u20d0', '\u20f0')])
  | "latin" => some (.inter .letters (.ofRanges [('A', 'Z'), ('a', 'z'), ('\u00aa', '\u024f')]))
  | "greek" => some (.inter .letters (.range '\u0370' '\u03ff'))
  | "cyrillic" => some (.range '\u0400' '\u052f')
  | "hebrew" => some (.range '\u0591' '\u05f4')
  | "arabic" => some (.range '\u0600' '\u06ff')
  | "hiragana" => some (.range '\u3041' '\u309f')
  | "katakana" => some (.range '\u30a1' '\u30ff')
  | "han" => some (.range '\u4e00' '\u9fff')
  | _ => none

def readNamed? (cs : List Char) : Option (CharSet × List Char) := do
  let (name, rest) ← match cs with
    | '\x7b' :: rest =>
      let name := rest.takeWhile (· != '\x7d')
      if name.length = rest.length then none else some (name, rest.drop (name.length + 1))
    | c :: rest => some ([c], rest)
    | [] => none
  let plain := (name.map Char.toLower).filter fun c => c != ' ' && c != '_' && c != '-'
  return (← namedSet? (String.ofList plain), rest)

def readWordBoundary? (ascii : Bool) (cs : List Char) : Option (Boundary × List Char) :=
  match cs with
  | '\x7b' :: rest =>
    let name := rest.takeWhile fun c => c.isAlpha || c == '-'
    match rest.drop name.length with
    | '\x7d' :: after =>
      match String.ofList name with
      | "start" => some (.wordStart ascii, after)
      | "end" => some (.wordEnd ascii, after)
      | "start-half" => some (.wordStartHalf ascii, after)
      | "end-half" => some (.wordEndHalf ascii, after)
      | _ => none
    | [] => none
    | _ => if name.isEmpty then some (.word ascii, cs) else none
  | cs => some (.word ascii, cs)

def readEscape? (flags : Flags) : List Char → Option (Atom × List Char)
  | [] => none
  | c :: rest =>
    let set := fun s => some (Atom.set s, rest)
    let literal := fun d => some (Atom.literal d, rest)
    let boundary := fun b => some (Atom.boundary b, rest)
    let coded := fun width => do
      let (d, rest) ← readCoded? width rest
      if flags.ascii ∧ width = 2 ∧ 128 ≤ d.toNat then none else some (Atom.literal d, rest)
    match c with
    | 'd' => set (.digits flags.ascii)
    | 'D' => set (.complement (.digits flags.ascii))
    | 's' => set (.spaces flags.ascii)
    | 'S' => set (.complement (.spaces flags.ascii))
    | 'w' => set (.words flags.ascii)
    | 'W' => set (.complement (.words flags.ascii))
    | 'p' => if flags.ascii then none else (readNamed? rest).map fun (s, rest) => (.set s, rest)
    | 'P' =>
      if flags.ascii then none
      else (readNamed? rest).map fun (s, rest) => (.set (.complement s), rest)
    | 'x' => coded 2
    | 'u' => coded 4
    | 'U' => coded 8
    | 'a' => literal '\x07'
    | 'f' => literal '\x0c'
    | 't' => literal '\t'
    | 'n' => literal '\n'
    | 'r' => literal '\r'
    | 'v' => literal '\x0b'
    | 'A' => boundary .textStart
    | 'z' => boundary .textEnd
    | 'b' => (readWordBoundary? flags.ascii rest).map fun (b, rest) => (.boundary b, rest)
    | 'B' => boundary (.noWord flags.ascii)
    | '<' => boundary (.wordStart flags.ascii)
    | '>' => boundary (.wordEnd flags.ascii)
    | c => if isEscapable c then literal c else none

end Pattern
end SelectionPlan
