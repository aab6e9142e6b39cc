import SelectionPlan.Tree.Basic
/-!
# Drawing a selection tree

Every node takes one line: its name, its filter in brackets if that is an expression, and its
variables in braces.
-/

namespace SelectionPlan

def Node.caption (n : Node) : String :=
  let filter := match n.filter.map Variable.nominal with
    | some (.expression e) => " [" ++ e.source ++ "]"
    | _ => ""
  let names :=
    if n.ownVariables.isEmpty then ""
    else " \x7b" ++ ", ".intercalate (n.ownVariables.map Variable.name) ++ "\x7d"
  n.name ++ filter ++ names

namespace SelectionTree

def drawSiblings (t : SelectionTree) (bound : Nat) (indent : String) : List Nat → String
  | [] => ""
  | index :: rest =>
    let isLast := rest.isEmpty
    let caption := (t.nodes[index]?.map Node.caption).getD ""
    let line := indent ++ (if isLast then "└── " else "├── ") ++ caption ++ "\n"
    let below := match bound with
      | 0 => ""
      | bound + 1 =>
        t.drawSiblings bound (indent ++ (if isLast then "    " else "│   ")) (t.children index)
    line ++ below ++ t.drawSiblings bound indent rest
  termination_by siblings => (bound, siblings.length)

def draw (t : SelectionTree) : String :=
  (t.nodes[0]?.map Node.caption).getD "" ++ "\n" ++ t.drawSiblings t.size "" (t.children 0)

end SelectionTree
end SelectionPlan
