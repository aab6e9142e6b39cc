import SelectionPlan.Graph.Action
/-!
# Graphs in DOT

Filters are diamonds, columns ovals and outputs boxes.  The edge from an action's input is solid
and every other dependency is dashed.
-/

namespace SelectionPlan
namespace Dot

def shape : ActionKind → String
  | .filter => "diamond"
  | .define => "oval"
  | .output => "box"

def escapeChar (c : Char) (text : List Char) : List Char :=
  text.flatMap fun d => if d = c then ['\\', d] else [d]

/-- A text as it stands in quotes.  Its backslashes are escaped first and then its quotes, which
come with backslashes of their own. -/
def escape (text : String) : String :=
  String.ofList (escapeChar '"' (escapeChar '\\' text.toList))

def nodeName (id : ActionId) : String := "a" ++ toString id

def nodeLabel (a : Action) : String :=
  let text := match a.operation with
    | .source => a.path
    | _ => escape a.label
  actionText a.id ++ "\\n" ++ text

def nodeStatement (a : Action) : String :=
  "    " ++ nodeName a.id ++ " [label=\"" ++ nodeLabel a ++ "\", shape=" ++ shape a.kind ++ "];\n"

def edgeStatement (a : Action) (dependency : ActionId) : String :=
  let style := if a.input = some dependency then "" else " [style=dashed]"
  "    " ++ nodeName dependency ++ " -> " ++ nodeName a.id ++ style ++ ";\n"

end Dot

def ActionGraph.toDot (g : ActionGraph) : String :=
  let nodes := g.actions.map Dot.nodeStatement
  let edges := g.actions.flatMap fun a => a.dependencies.map (Dot.edgeStatement a)
  "digraph cutgraph \x7b\n    rankdir=TB;\n" ++ String.join nodes ++ String.join edges ++ "\x7d\n"

end SelectionPlan
