import SelectionPlan.Tree.Basic
/-!
# Scopes

The scope at a point of a selection tree lists the columns that can be read there, the newest
first.  A node sees the variables of its ancestors and all of its own; a variable sees those of the
ancestors and the ones declared before it.
-/

namespace SelectionPlan

structure ColumnRef where
  node : Nat
  slot : Nat
  deriving DecidableEq, Repr

structure Column where
  ref : ColumnRef
  declared : Variable
  path : String
  /-- The variations that change it, by itself or through what it reads, ascending. -/
  affects : List String

abbrev Scope := List Column

namespace Column

def name (c : Column) : String := c.declared.name

/-- The systematic a column is computed for when it is read under `s`: nominal unless `s` changes
it. -/
def effective (c : Column) (s : Systematic) : Systematic :=
  match s with
  | .variation name => if name ∈ c.affects then s else .nominal
  | .nominal => .nominal

def specUnder (c : Column) (s : Systematic) : Specification := c.declared.spec (c.effective s)

/-- Whether the column is computed, and not read from the dataset, when it is read under `s`. -/
def isComputed (c : Column) (s : Systematic) : Bool := !(c.specUnder s).isBranch

def physical (c : Column) (namer : Namer) (effective : Systematic) : String :=
  match c.declared.spec effective with
  | .branch column => column
  | _ => namer.physical c.name effective

end Column

namespace Scope

/-- What a variable sees: the scope without the variable itself and what its node declares after
it. -/
def before (scope : Scope) (ref : ColumnRef) : Scope :=
  scope.dropWhile fun c => c.ref.node == ref.node && decide (ref.slot ≤ c.ref.slot)

def lookup (scope : Scope) (name : String) : Option Column := scope.find? fun c => c.name == name

/-- The column that a name means to `reader` at a path; a name without one cannot be resolved. -/
def require (scope : Scope) (name reader path : String) : Except BuildError Column :=
  match scope.lookup name with
  | some c => .ok c
  | none => .error (.unresolved name reader .nominal path)

def reach (scope : Scope) (own inputs : List String) (reader path : String) :
    Except BuildError (List String) :=
  inputs.foldlM (fun reached input => do
    let c ← scope.require input reader path
    return unionDistinct c.affects reached) own

def declare (path : String) (node : Nat) (scope : Scope) (entry : Variable × Nat) :
    Except BuildError Scope := do
  let (v, slot) := entry
  let affects ← scope.reach v.overridden v.allInputs v.name path
  if (scope.lookup v.name).isSome then throw (.naming (.duplicateDefinition v.name path))
  return { ref := ⟨node, slot⟩, declared := v, path, affects } :: scope

end Scope

structure Place where
  node : Nat
  name : String
  path : String
  parent : Option Nat
  filter : Option Variable
  /-- What the node's filter and everything after it can read. -/
  scope : Scope
  /-- The variations that change a filter on the way to the node, ascending. -/
  chain : List String

namespace Place

/-- The selection that `s` runs on at a node: nominal unless `s` changes a filter on the way. -/
def chainUnder (p : Place) (s : Systematic) : Systematic :=
  match s with
  | .variation name => if name ∈ p.chain then s else .nominal
  | .nominal => .nominal

end Place

namespace SelectionTree

def placeBelow (t : SelectionTree) (scope : Scope) (chain : List String) (index : Nat) :
    Except BuildError Place := do
  let path := t.pathText index
  match t.nodes[index]? with
  | none => throw .foreignNode
  | some node =>
    let scope ← node.ownVariables.zipIdx.foldlM (Scope.declare path index) scope
    let own := (node.filter.map Variable.overridden).getD []
    let inputs := (node.filter.map Variable.allInputs).getD []
    let chain ← scope.reach (unionDistinct own chain) inputs node.name path
    return { node := index, name := node.name, path, parent := node.parent,
             filter := node.filter, scope, chain }

def placeAlong (t : SelectionTree) (scope : Scope) (chain : List String) :
    List Nat → Except BuildError Place
  | [] => .error .foreignNode
  | [index] => t.placeBelow scope chain index
  | index :: rest => do
    let p ← t.placeBelow scope chain index
    t.placeAlong p.scope p.chain rest

def place (t : SelectionTree) (index : Nat) : Except BuildError Place :=
  t.placeAlong [] [] (t.path index)

end SelectionTree

/-- A tree in which every name that is read means something. -/
structure ScopeIndex where
  tree : SelectionTree
  /-- The nodes in preorder. -/
  places : List Place

namespace ScopeIndex

/-- Resolves all names of a tree.  The error is that of the first node in preorder that has one. -/
def build (t : SelectionTree) : Except BuildError ScopeIndex := do
  let places ← t.preorder.mapM t.place
  return ⟨t, places⟩

def place? (index : ScopeIndex) (node : Nat) : Option Place :=
  index.places.find? fun p => p.node = node

def position? (index : ScopeIndex) (node : Nat) : Option Nat :=
  index.places.findIdx? fun p => p.node = node

/-- The variations that mean something at a place: the declared ones and those that change a
visible column or a filter on the way. -/
def known (index : ScopeIndex) (p : Place) : List String :=
  p.scope.foldr (fun c => unionDistinct c.affects) (unionDistinct p.chain index.tree.systematics)

def allSystematics (index : ScopeIndex) : List String :=
  let overridden (n : Node) : List String :=
    (n.filter.toList ++ n.ownVariables).flatMap Variable.overridden
  unionDistinct (index.tree.nodes.flatMap overridden) index.tree.systematics

end ScopeIndex
end SelectionPlan
