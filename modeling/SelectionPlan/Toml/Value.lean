/-!
# TOML values

A document is a table.  Tables come about in several ways, and how a table came about decides what
may be added to it later in the document: a table is described in one place, but a longer header
may pass through it, and dotted keys with a common start add to the same table.
-/

namespace SelectionPlan
namespace Toml

inductive Origin
  | header
  /-- A longer header that passes through it. -/
  | implied
  /-- A dotted key that passes through it. -/
  | dotted
  | braces
  deriving DecidableEq, Repr

inductive Value
  | text (value : String)
  | integer (value : Int)
  | number (value : Float)
  | boolean (value : Bool)
  /-- A date, a time of day or both. -/
  | moment
  | list (items : List Value)
  | table (origin : Origin) (members : List (String × Value))
  | tables (items : List (List (String × Value)))
  deriving Inhabited, Repr

abbrev Members := List (String × Value)

namespace Members

def find? (key : String) : Members → Option Value
  | [] => none
  | (k, v) :: rest => if k = key then some v else find? key rest

def replace (key : String) (value : Value) : Members → Members
  | [] => []
  | (k, v) :: rest => if k = key then (k, value) :: rest else (k, v) :: replace key value rest

def add? (members : Members) (key : String) (value : Value) : Option Members :=
  match members.find? key with
  | none => some (members ++ [(key, value)])
  | some _ => none

/-- Changes the table at the end of a path, making the tables that are missing on the way.  A path
never leads into braces; it leads into the last table of a list of tables.  The path of a dotted
key does not lead into a table with a header of its own. -/
def modifyAt (dotted : Bool) (change : Origin → Members → Option Members) :
    List String → Origin → Members → Option Members
  | [], origin, members => change origin members
  | key :: path, _, members =>
    match members.find? key with
    | none => do
      let origin := if dotted then .dotted else .implied
      let inner ← modifyAt dotted change path origin []
      return members ++ [(key, .table origin inner)]
    | some (.table origin inner) =>
      if origin = .braces ∨ (dotted ∧ origin = .header) then none
      else do
        let inner ← modifyAt dotted change path origin inner
        return members.replace key (.table origin inner)
    | some (.tables items) => do
      let inner ← modifyAt dotted change path .header (← items.getLast?)
      return members.replace key (.tables (items.dropLast ++ [inner]))
    | some _ => none

/-- Adds a value under a dotted key, given as its last part and the path before it.  The last
table on the path must have come about by dotted keys too. -/
def insert? (members : Members) (path : List String) (key : String) (value : Value) :
    Option Members :=
  members.modifyAt true (fun origin inner =>
    if (origin = .dotted) = (path = []) then none else inner.add? key value) path .header

end Members

structure Assignment where
  path : List String
  key : String
  value : Value
  deriving Repr

def Members.insertAll? (members : Members) (assignments : List Assignment) : Option Members :=
  assignments.foldlM (fun m a => m.insert? a.path a.key a.value) members

structure Block where
  /-- Whether the header adds a table to a list of tables. -/
  isItem : Bool
  path : List String
  key : String
  assignments : List Assignment
  deriving Repr

/-- Adds a block to the document.  A table that longer headers passed through may get a header of
its own once. -/
def Members.open? (members : Members) (b : Block) : Option Members :=
  members.modifyAt false (fun _ inner =>
    match inner.find? b.key with
    | none => do
      let filled ← Members.insertAll? [] b.assignments
      return inner ++ [(b.key, if b.isItem then .tables [filled] else .table .header filled)]
    | some (.table .implied old) =>
      if b.isItem then none
      else do
        return inner.replace b.key (.table .header (← Members.insertAll? old b.assignments))
    | some (.tables items) =>
      if b.isItem then do
        return inner.replace b.key (.tables (items ++ [← Members.insertAll? [] b.assignments]))
      else none
    | some _ => none) b.path .header

def Members.assemble (start : List Assignment) (blocks : List Block) : Option Members := do
  blocks.foldlM Members.open? (← Members.insertAll? [] start)

end Toml
end SelectionPlan
