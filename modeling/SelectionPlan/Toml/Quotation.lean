import SelectionPlan.Text.Hexadecimal
import SelectionPlan.Toml.Document
/-!
# Reading blanks, keys and strings of TOML

A reader takes the start of a text and answers what it read with the rest of the text, or nothing
if the text is not well formed.
-/

namespace SelectionPlan
namespace Toml

def isSpace (c : Char) : Bool := c == ' ' || c == '\t'

def skipSpaces (cs : List Char) : List Char := cs.dropWhile isSpace

def isPlain (c : Char) : Bool := c == '\t' || !isControl c

def lineEnd? : List Char → Option (List Char)
  | [] => some []
  | '\n' :: rest => some rest
  | '\r' :: '\n' :: rest => some rest
  | _ => none

def skipComment : List Char → List Char
  | '#' :: rest => rest.dropWhile isPlain
  | rest => rest

def lineRest? (cs : List Char) : Option (List Char) := lineEnd? (skipComment (skipSpaces cs))

/-- The text after blanks, ends of lines and comments.  The comment state says whether the
characters up to the end of the line are skipped. -/
def skipLines (inComment : Bool) : List Char → List Char
  | [] => []
  | '\n' :: rest => skipLines false rest
  | '\r' :: rest =>
    match rest with
    | '\n' :: rest => skipLines false rest
    | _ => '\r' :: rest
  | c :: rest =>
    if inComment then if isPlain c then skipLines true rest else c :: rest
    else if isSpace c then skipLines false rest
    else if c = '#' then skipLines true rest
    else c :: rest

def codedChar? (width : Nat) (cs : List Char) : Option Char := do
  let digits := cs.take width
  if digits.length < width then none
  else
    let n ← hexValue? digits
    if n.isValidChar then some (Char.ofNat n) else none

/-- The character that an escape stands for, and how many characters the escape has after the
backslash. -/
def escaped? : List Char → Option (Char × Nat)
  | 'b' :: _ => some ('\x08', 1)
  | 't' :: _ => some ('\t', 1)
  | 'n' :: _ => some ('\n', 1)
  | 'f' :: _ => some ('\x0c', 1)
  | 'r' :: _ => some ('\r', 1)
  | '"' :: _ => some ('"', 1)
  | '\\' :: _ => some ('\\', 1)
  | 'u' :: rest => (codedChar? 4 rest).map (·, 5)
  | 'U' :: rest => (codedChar? 8 rest).map (·, 9)
  | _ => none

def textOf (reversed : List Char) : String := String.ofList reversed.reverse

/-- The inside of a basic string up to its closing quote, after `skip` characters that belong to an
escape. -/
def basicBody (done : List Char) : (skip : Nat) → List Char → Option (String × List Char)
  | _, [] => none
  | skip + 1, _ :: rest => basicBody done skip rest
  | 0, c :: rest =>
    if c = '"' then some (textOf done, rest)
    else if c = '\\' then
      match escaped? rest with
      | none => none
      | some (d, length) => basicBody (d :: done) length rest
    else if isPlain c then basicBody (c :: done) 0 rest
    else none

def literalBody (done : List Char) : List Char → Option (String × List Char)
  | [] => none
  | c :: rest =>
    if c = '\'' then some (textOf done, rest)
    else if isPlain c then literalBody (c :: done) rest
    else none

def countBlanks : List Char → Nat
  | [] => 0
  | '\n' :: rest => 1 + countBlanks rest
  | '\r' :: rest =>
    match rest with
    | '\n' :: rest => 2 + countBlanks rest
    | _ => 0
  | c :: rest => if isSpace c then 1 + countBlanks rest else 0

/-- How many characters after a backslash it joins to the next line: blanks with an end of line
among them, and nothing but blanks before it. -/
def joinedLength? (cs : List Char) : Option Nat :=
  match lineEnd? (skipSpaces cs) with
  | none => none
  | some _ => if (skipSpaces cs).isEmpty then none else some (countBlanks cs)

/-- The inside of a string between threefold quotes.  Up to two quotes may stand inside, also
directly before the closing ones.  Every end of line is read as a newline. -/
def multilineBody (quote : Char) (escapes : Bool) (done : List Char) :
    (skip : Nat) → List Char → Option (String × List Char)
  | _, [] => none
  | skip + 1, _ :: rest => multilineBody quote escapes done skip rest
  | 0, c :: rest =>
    if c = quote then
      let more := rest.takeWhile (· == quote)
      if more.length < 2 then multilineBody quote escapes (c :: done) 0 rest
      else
        let inner := min (more.length - 2) 2
        some (textOf (more.take inner ++ done), rest.drop (inner + 2))
    else if c = '\n' then multilineBody quote escapes (c :: done) 0 rest
    else if c = '\r' then
      if rest.head? = some '\n' then multilineBody quote escapes done 0 rest else none
    else if escapes && c = '\\' then
      match joinedLength? rest with
      | some length => multilineBody quote escapes done length rest
      | none =>
        match escaped? rest with
        | none => none
        | some (d, length) => multilineBody quote escapes (d :: done) length rest
    else if isPlain c then multilineBody quote escapes (c :: done) 0 rest
    else none

def skipFirstNewline : List Char → List Char
  | '\n' :: rest => rest
  | '\r' :: '\n' :: rest => rest
  | rest => rest

def readString : List Char → Option (String × List Char)
  | '"' :: '"' :: '"' :: rest => multilineBody '"' true [] 0 (skipFirstNewline rest)
  | '\'' :: '\'' :: '\'' :: rest => multilineBody '\'' false [] 0 (skipFirstNewline rest)
  | '"' :: rest => basicBody [] 0 rest
  | '\'' :: rest => literalBody [] rest
  | _ => none

def isKeyChar (c : Char) : Bool := c.isAlphanum || c == '-' || c == '_'

def readKeyPart : List Char → Option (String × List Char)
  | '"' :: rest => basicBody [] 0 rest
  | '\'' :: rest => literalBody [] rest
  | cs =>
    let name := cs.takeWhile isKeyChar
    if name.isEmpty then none else some (String.ofList name, cs.drop name.length)

def depthLimit : Nat := 79

def readKeyParts : (fuel : Nat) → List Char → Option (List String × List Char)
  | 0, _ => none
  | fuel + 1, cs => do
    let (part, rest) ← readKeyPart (skipSpaces cs)
    match skipSpaces rest with
    | '.' :: rest => do
      let (parts, rest) ← readKeyParts fuel rest
      return (part :: parts, rest)
    | rest => some ([part], rest)

/-- A key as the path before its last part, and that part. -/
def readKey (cs : List Char) : Option ((List String × String) × List Char) := do
  let (parts, rest) ← readKeyParts depthLimit cs
  return ((parts.dropLast, ← parts.getLast?), rest)

end Toml
end SelectionPlan
