import SelectionPlan.Toml.Numeral
/-!
# Reading TOML

A document is read into its keys and headers first and then assembled into one table.
-/

namespace SelectionPlan
namespace Toml

def equals? (cs : List Char) : Option (List Char) :=
  match skipSpaces cs with
  | '=' :: rest => some (skipSpaces rest)
  | _ => none

def readAssignment (readValue : List Char → Option (Value × List Char)) (cs : List Char) :
    Option (Assignment × List Char) := do
  let ((path, key), rest) ← readKey cs
  let (value, rest) ← readValue (← equals? rest)
  return (⟨path, key, value⟩, rest)

/-- The values of a list up to its closing bracket.  The last one may be followed by a comma;
lines may end anywhere between values. -/
def readItems (readValue : List Char → Option (Value × List Char)) : (fuel : Nat) → List Char →
    Option (List Value × List Char)
  | 0, _ => none
  | fuel + 1, cs =>
    match skipLines false cs with
    | ']' :: rest => some ([], rest)
    | cs => do
      let (value, rest) ← readValue cs
      match skipLines false rest with
      | ']' :: rest => some ([value], rest)
      | ',' :: rest => do
        let (values, rest) ← readItems readValue fuel rest
        return (value :: values, rest)
      | _ => none

/-- The keys and values of a table in braces up to the closing one, all on one line and without a
comma at the end. -/
def readMembers (readValue : List Char → Option (Value × List Char)) : (fuel : Nat) → List Char →
    Option (List Assignment × List Char)
  | 0, _ => none
  | fuel + 1, cs => do
    let (a, rest) ← readAssignment readValue cs
    match skipSpaces rest with
    | '\x7d' :: rest => some ([a], rest)
    | ',' :: rest => do
      let (more, rest) ← readMembers readValue fuel rest
      return (a :: more, rest)
    | _ => none

def readValue : (depth : Nat) → List Char → Option (Value × List Char)
  | depth, '[' :: rest =>
    match depth with
    | 0 => none
    | depth + 1 => do
      let (items, rest) ← readItems (readValue depth) (rest.length + 1) rest
      return (.list items, rest)
  | depth, '\x7b' :: rest =>
    match depth with
    | 0 => none
    | depth + 1 =>
      match skipSpaces rest with
      | '\x7d' :: rest => some (.table .braces [], rest)
      | cs => do
        let (assignments, rest) ← readMembers (readValue depth) (cs.length + 1) cs
        return (.table .braces (← Members.insertAll? [] assignments), rest)
  | _, '"' :: rest => (readString ('"' :: rest)).map fun (s, rest) => (.text s, rest)
  | _, '\'' :: rest => (readString ('\'' :: rest)).map fun (s, rest) => (.text s, rest)
  | _, cs => readWord cs

inductive Line
  | assignment (a : Assignment)
  | header (isItem : Bool) (path : List String) (key : String)
  deriving Repr

def readHeader (isItem : Bool) (cs : List Char) : Option (Line × List Char) := do
  let ((path, key), rest) ← readKey cs
  let rest ← after? ']' rest
  let rest ← if isItem then after? ']' rest else some rest
  return (.header isItem path key, rest)

def readLine (cs : List Char) : Option (Line × List Char) := do
  let (line, rest) ← match cs with
    | '[' :: '[' :: rest => readHeader true rest
    | '[' :: rest => readHeader false rest
    | cs => (readAssignment (readValue depthLimit) cs).map fun (a, rest) => (.assignment a, rest)
  return (line, ← lineRest? rest)

def readLines : (fuel : Nat) → List Char → Option (List Line)
  | 0, _ => none
  | fuel + 1, cs =>
    match skipLines false cs with
    | [] => some []
    | cs => do
      let (line, rest) ← readLine cs
      return line :: (← readLines fuel rest)

def blocksOf : List Line → List Assignment × List Block
  | [] => ([], [])
  | .assignment a :: rest =>
    let (start, blocks) := blocksOf rest
    (a :: start, blocks)
  | .header isItem path key :: rest =>
    let (start, blocks) := blocksOf rest
    ([], ⟨isItem, path, key, start⟩ :: blocks)

/-- The table of a document, unless the text is not well formed.  A byte order mark at the start is
passed over. -/
def read? (text : String) : Option Members := do
  let cs := match text.toList with
    | '\ufeff' :: rest => rest
    | cs => cs
  let (start, blocks) := blocksOf (← readLines (cs.length + 1) cs)
  Members.assemble start blocks

end Toml
end SelectionPlan
