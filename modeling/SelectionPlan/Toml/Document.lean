import SelectionPlan.Decimal.Text
import SelectionPlan.Text.Hexadecimal
/-!
# Writing TOML

A document is a list of keys with simple values, followed by tables of the same kind.  A blank line
comes before every table that is not at the very start.
-/

namespace SelectionPlan
namespace Toml

/-- Numbers are written positionally, and whole ones end in `.0`. -/
def numberStyle : NumberStyle := ⟨"nan", "inf", ".0"⟩

structure TextShape where
  /-- The longest run of single quotes. -/
  singles : Nat
  /-- The longest run of double quotes. -/
  doubles : Nat
  hasBackslash : Bool
  hasNewline : Bool
  /-- Whether there are control characters other than tabs and newlines. -/
  hasControl : Bool
  deriving DecidableEq, Repr

/-- The length of the longest run of a character, after a run of `current`. -/
def longestRun (c : Char) (current : Nat) : List Char → Nat
  | [] => current
  | d :: rest => if d = c then longestRun c (current + 1) rest else max current (longestRun c 0 rest)

def isControl (c : Char) : Bool := decide (c.toNat < 32) || c.toNat == 127

def TextShape.of (text : List Char) : TextShape where
  singles := longestRun '\'' 0 text
  doubles := longestRun '"' 0 text
  hasBackslash := text.contains '\\'
  hasNewline := text.contains '\n'
  hasControl := text.any fun c => isControl c && c != '\t' && c != '\n'

def escapeChar (multiline : Bool) (c : Char) : List Char :=
  if c = '\x08' then ['\\', 'b']
  else if c = '\t' then ['\\', 't']
  else if c = '\n' then if multiline then [c] else ['\\', 'n']
  else if c = '\x0c' then ['\\', 'f']
  else if c = '\r' then ['\\', 'r']
  else if c = '\\' then ['\\', '\\']
  else if isControl c then '\\' :: 'u' :: (hexDigits 4 c.toNat).map Char.toUpper
  else [c]

/-- The inside of a basic string.  A multi-line string may hold two double quotes in a row; every
further one is escaped. -/
def escapeBasic (multiline : Bool) (run : Nat) : List Char → List Char
  | [] => []
  | c :: rest =>
    if c = '"' then
      if run < (if multiline then 2 else 0) then c :: escapeBasic multiline (run + 1) rest
      else '\\' :: c :: escapeBasic multiline 0 rest
    else escapeChar multiline c ++ escapeBasic multiline 0 rest

/-- A quoted text in the first of these forms that needs no escapes: basic, literal, multi-line
basic, multi-line literal; and in a basic form with escapes if none does. -/
def quote (text : String) : String :=
  let chars := text.toList
  let shape := TextShape.of chars
  let start := if shape.hasNewline then "\n" else ""
  let basic := "\"" ++ String.ofList (escapeBasic false 0 chars) ++ "\""
  let multilineBasic := "\"\"\"" ++ start ++ String.ofList (escapeBasic true 0 chars) ++ "\"\"\""
  if shape.hasControl then if shape.hasNewline then multilineBasic else basic
  else if !shape.hasBackslash && shape.doubles == 0 && !shape.hasNewline then basic
  else if shape.singles == 0 && !shape.hasNewline then "'" ++ text ++ "'"
  else if !shape.hasBackslash && decide (shape.doubles ≤ 2) then multilineBasic
  else if shape.singles ≤ 2 then "'''" ++ start ++ text ++ "'''"
  else if shape.hasNewline then multilineBasic
  else basic

def isBareKey (key : String) : Bool :=
  key != "" && key.toList.all fun c => c.isAlphanum || c == '-' || c == '_'

def writeKey (key : String) : String :=
  let chars := key.toList
  let shape := TextShape.of chars
  let basic := "\"" ++ String.ofList (escapeBasic false 0 chars) ++ "\""
  if isBareKey key then key
  else if shape.hasControl || shape.hasNewline then basic
  else if !shape.hasBackslash && shape.doubles == 0 then basic
  else if shape.singles == 0 then "'" ++ key ++ "'"
  else basic

inductive Scalar
  | text (value : String)
  | natural (value : Nat)
  | number (value : Float)
  | boolean (value : Bool)
  | numbers (values : List Float)
  deriving Repr

def writeNumbers : List Float → String
  | [] => "[]"
  | [x] => "[" ++ numberStyle.write x ++ "]"
  | xs => "[\n" ++ String.join (xs.map fun x => "    " ++ numberStyle.write x ++ ",\n") ++ "]"

def Scalar.write : Scalar → String
  | text value => quote value
  | natural value => toString value
  | number value => numberStyle.write value
  | boolean value => if value then "true" else "false"
  | numbers values => writeNumbers values

abbrev Entries := List (String × Scalar)

def writeEntries (entries : Entries) : String :=
  String.join (entries.map fun (key, value) => writeKey key ++ " = " ++ value.write ++ "\n")

structure Section where
  name : String
  /-- Whether the table is one of a list of tables of that name. -/
  isItem : Bool
  entries : Entries
  deriving Repr

def Section.write (s : Section) : String :=
  let header := if s.isItem then "[[" ++ s.name ++ "]]\n" else "[" ++ s.name ++ "]\n"
  header ++ writeEntries s.entries

structure Document where
  entries : Entries
  sections : List Section
  deriving Repr

def Document.write (d : Document) : String :=
  let blocks := (if d.entries.isEmpty then [] else [writeEntries d.entries]) ++
    d.sections.map Section.write
  "\n".intercalate blocks

end Toml
end SelectionPlan
