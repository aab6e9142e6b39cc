import SelectionPlan.Naming.Systematic
import SelectionPlan.Expression.Lexer
/-!
# Physical column names

A column has one logical name and, for every systematic that changes it, one physical name.  A
tagged scheme joins the logical name and the variation's name with a separator.  Its policy on
names makes the split of a physical name unique.
-/

namespace SelectionPlan

inductive NameFault
  | empty
  | notIdentifier
  | containsSeparator (separator : String)
  | touchesSeparator (separator : String)
  /-- A policy of its own refuses the name. -/
  | refused (reason : String)
  deriving DecidableEq, Repr

def NameFault.message : NameFault → String
  | .empty => "name is empty"
  | .notIdentifier => "only ASCII letters, digits and '_' are allowed"
  | .containsSeparator s => "contains the separator '" ++ s ++ "'"
  | .touchesSeparator s => "starts or ends with a character of the separator '" ++ s ++ "'"
  | .refused reason => reason

inductive ColumnOwner
  | dataset (reader : String)
  | assigned (logical : String) (systematic : Systematic)
  deriving DecidableEq, Repr

def ColumnOwner.text : ColumnOwner → String
  | .dataset name => "dataset column of '" ++ name ++ "'"
  | .assigned logical systematic => "'" ++ logical ++ "' under '" ++ systematic.text ++ "'"

inductive NamingError
  | invalidSystematic (name : String) (fault : NameFault)
  | invalidColumn (name : String) (fault : NameFault)
  | collision (physical : String) (first second : ColumnOwner)
  | duplicateDefinition (name path : String)
  deriving DecidableEq, Repr

def NamingError.message : NamingError → String
  | .invalidSystematic name fault =>
    "systematic name '" ++ name ++ "' violates naming policy: " ++ fault.message
  | .invalidColumn name fault =>
    "column name '" ++ name ++ "' violates naming policy: " ++ fault.message
  | .collision physical first second =>
    "physical column '" ++ physical ++ "' assigned to both " ++ first.text ++ " and " ++ second.text
  | .duplicateDefinition name path =>
    "column '" ++ name ++ "' is already defined on the path to '" ++ path ++ "'"

/-- A letter or underscore, then letters, digits and underscores, all of them ASCII. -/
def isIdentifier (name : List Char) : Bool :=
  match name with
  | [] => false
  | c :: rest => isIdentifierStart c && rest.all isIdentifierRest

def splitOnce (separator : List Char) : List Char → Option (List Char × List Char)
  | [] => if separator.isEmpty then some ([], []) else none
  | c :: rest =>
    if separator.isPrefixOf (c :: rest) then some ([], (c :: rest).drop separator.length)
    else (splitOnce separator rest).map fun (head, tail) => (c :: head, tail)

/-- A separator between the logical name and the variation's name, and which of them comes
first. -/
structure NameTag where
  separator : String
  systematicFirst : Bool
  separator_ne_empty : separator ≠ ""
  deriving DecidableEq, Repr

namespace NameTag

/-- The tag with the given separator; an empty one is replaced by two underscores. -/
def make (separator : String) (systematicFirst : Bool) : NameTag :=
  if h : separator = "" then ⟨"__", systematicFirst, by decide⟩
  else ⟨separator, systematicFirst, h⟩

def fault? (tag : NameTag) (name : String) : Option NameFault :=
  let chars := name.toList
  let separator := tag.separator.toList
  let touches (c : Option Char) : Bool := (c.map separator.contains).getD false
  if chars.isEmpty then some .empty
  else if !isIdentifier chars then some .notIdentifier
  else if (splitOnce separator chars).isSome then some (.containsSeparator tag.separator)
  else if touches chars.head? || touches chars.getLast? then
    some (.touchesSeparator tag.separator)
  else none

end NameTag

structure NamingPolicy where
  physical : String → Systematic → String
  parse : String → Except NamingError (String × Systematic)
  checkSystematic : String → Except NamingError Unit
  checkLogical : String → Except NamingError Unit

inductive Namer
  /-- Every systematic uses the logical name. -/
  | plain
  /-- A variation's columns carry its name. -/
  | tagged (tag : NameTag)
  | custom (policy : NamingPolicy)

namespace Namer

def checkSystematic (namer : Namer) (name : String) : Except NamingError Unit :=
  match namer with
  | .plain => .ok ()
  | .tagged tag =>
    match tag.fault? name with
    | none => .ok ()
    | some fault => .error (.invalidSystematic name fault)
  | .custom policy => policy.checkSystematic name

def checkLogical (namer : Namer) (name : String) : Except NamingError Unit :=
  match namer with
  | .plain => .ok ()
  | .tagged tag =>
    match tag.fault? name with
    | none => .ok ()
    | some fault => .error (.invalidColumn name fault)
  | .custom policy => policy.checkLogical name

def physical (namer : Namer) (logical : String) (systematic : Systematic) : String :=
  match namer, systematic with
  | .tagged tag, .variation name =>
    if tag.systematicFirst then name ++ tag.separator ++ logical
    else logical ++ tag.separator ++ name
  | .custom policy, _ => policy.physical logical systematic
  | _, _ => logical

def parse (namer : Namer) (physical : String) : Except NamingError (String × Systematic) :=
  match namer with
  | .plain => .ok (physical, .nominal)
  | .tagged tag =>
    match splitOnce tag.separator.toList physical.toList with
    | none => do
      namer.checkLogical physical
      return (physical, .nominal)
    | some (head, tail) => do
      let (logical, systematic) := if tag.systematicFirst then (tail, head) else (head, tail)
      namer.checkLogical (String.ofList logical)
      namer.checkSystematic (String.ofList systematic)
      return (String.ofList logical, .variation (String.ofList systematic))
  | .custom policy => policy.parse physical

end Namer
end SelectionPlan
