import SelectionPlan.Variable
import SelectionPlan.Text.Split
/-!
# Selection trees

A selection tree starts at a root that keeps every event.  Every other node adds a filter to its
parent's selection, and every node may define variables for itself and its descendants.  Nodes are
never removed, and a node's index is larger than its parent's.
-/

namespace SelectionPlan

def rootName : String := "ROOT"

structure Attachment where
  parent : Nat
  filter : Variable

structure Node where
  name : String
  /-- Absent at the root only. -/
  attachment : Option Attachment
  /-- The row label in cut flows, if it is not the name. -/
  label : Option String
  /-- The variables defined here in order of declaration. -/
  ownVariables : List Variable := []
  /-- The column that holds the event weight set here. -/
  weight : Option String := none

namespace Node

def filter (n : Node) : Option Variable := n.attachment.map Attachment.filter

def parent (n : Node) : Option Nat := n.attachment.map Attachment.parent

def defines (n : Node) (name : String) : Bool := n.ownVariables.any fun v => v.name == name

end Node

/-- A node of a particular tree. -/
structure NodeId where
  tree : Nat
  index : Nat
  deriving DecidableEq, Repr

structure SelectionTree where
  /-- Tells the handles of different trees apart. -/
  id : Nat
  /-- The root comes first. -/
  nodes : List Node
  /-- The variations declared to be known, ascending. -/
  systematics : List String := []

namespace SelectionTree

def new (id : Nat) (label : Option String) : SelectionTree :=
  { id, nodes := [{ name := rootName, attachment := none, label }] }

def root (t : SelectionTree) : NodeId := ⟨t.id, 0⟩

def size (t : SelectionTree) : Nat := t.nodes.length

def handle (t : SelectionTree) (index : Nat) : NodeId := ⟨t.id, index⟩

def contains (t : SelectionTree) (n : NodeId) : Bool :=
  n.tree == t.id && decide (n.index < t.size)

def node (t : SelectionTree) (n : NodeId) : Except BuildError Node :=
  if n.tree = t.id then
    match t.nodes[n.index]? with
    | some node => .ok node
    | none => .error .foreignNode
  else .error .foreignNode

def parent? (t : SelectionTree) (index : Nat) : Option Nat :=
  t.nodes[index]?.bind Node.parent

def nameOf (t : SelectionTree) (index : Nat) : String :=
  (t.nodes[index]?.map Node.name).getD ""

def pathWithin (t : SelectionTree) (bound index : Nat) : List Nat :=
  match bound with
  | 0 => [index]
  | bound + 1 =>
    match t.parent? index with
    | none => [index]
    | some parent => t.pathWithin bound parent ++ [index]

/-- The nodes from the root down to a node.  Indices grow along it, so the index bounds its
length. -/
def path (t : SelectionTree) (index : Nat) : List Nat := t.pathWithin index index

def pathText (t : SelectionTree) (index : Nat) : String :=
  "/".intercalate ((t.path index).map t.nameOf)

def depthOf (t : SelectionTree) (index : Nat) : Nat := (t.path index).length - 1

def children (t : SelectionTree) (index : Nat) : List Nat :=
  (List.range t.size).filter fun child => t.parent? child = some index

def preorderWithin (t : SelectionTree) (bound index : Nat) : List Nat :=
  match bound with
  | 0 => [index]
  | bound + 1 => index :: (t.children index).flatMap (t.preorderWithin bound)

/-- All nodes, every node before its descendants and the children of a node in order. -/
def preorder (t : SelectionTree) : List Nat := t.preorderWithin t.size 0

def leaves (t : SelectionTree) : List Nat :=
  t.preorder.filter fun index => (t.children index).isEmpty

def depth (t : SelectionTree) : Nat :=
  (t.preorder.map fun index => t.depthOf index + 1).foldl max 0

/-- The column that weighs events at a node: the one set there or at its nearest ancestor. -/
def weight (t : SelectionTree) (index : Nat) : Option String :=
  (t.path index).reverse.findSome? fun i => t.nodes[i]?.bind Node.weight

def pathFilters (t : SelectionTree) (index : Nat) : List (Nat × Variable) :=
  (t.path index).filterMap fun i => (t.nodes[i]?.bind Node.filter).map fun f => (i, f)

def child? (t : SelectionTree) (index : Nat) (name : String) : Option Nat :=
  (t.children index).find? fun child => t.nameOf child == name

/-- The node at a path of names below the root.  Empty names and a leading root are passed
over. -/
def find (t : SelectionTree) (path : String) : Option Nat :=
  let parts := (splitOnChar '/' path.toList).map String.ofList
  let below := (parts.filter fun part => part != "").dropWhile fun part => part == rootName
  below.foldlM t.child? 0

def findByName (t : SelectionTree) (name : String) : Option Nat :=
  t.preorder.find? fun index => t.nameOf index == name

end SelectionTree
end SelectionPlan
