import SelectionPlan.Proofs.Graph.Built
import SelectionPlan.Proofs.Graph.DotReader
import SelectionPlan.Proofs.Schedule.Greedy
import SelectionPlan.Proofs.Tree.Named

/-!
# Graphs drawn in DOT

What is read from the drawing of a graph is the graph: a node for each action, with its label as it
is and the shape of its kind, and an edge for each dependency.  No name or expression in a label can
end the label or add a statement.
-/

namespace SelectionPlan
namespace Dot

/-! ### What is drawn -/

def title (a : Action) : String :=
  actionText a.id ++ "\n" ++ match a.operation with
    | .source => a.path
    | _ => a.label

def drawnNode (a : Action) : Statement :=
  .node (nodeName a.id) [("label", title a), ("shape", shape a.kind)]

def drawnEdge (a : Action) (dependency : ActionId) : Statement :=
  .edge (nodeName dependency) (nodeName a.id)
    (if a.input = some dependency then [] else [("style", "dashed")])

private def nodeTokens (a : Action) : List Token :=
  [.word (nodeName a.id).toList, .mark '[', .word "label".toList, .mark '=',
    .quoted (title a).toList, .mark ',', .word "shape".toList, .mark '=',
    .word (shape a.kind).toList, .mark ']']

private def edgeTokens (a : Action) (dependency : ActionId) : List Token :=
  [.word (nodeName dependency).toList, .arrow, .word (nodeName a.id).toList] ++
    if a.input = some dependency then []
    else [.mark '[', .word "style".toList, .mark '=', .word "dashed".toList, .mark ']']

/-! ### Its tokens -/

theorem isDigit_of_mem_toString {n : Nat} {c : Char} (h : c ∈ (toString n).toList) :
    c.isDigit = true := by
  have hdigits : (toString n).toList = Nat.toDigits 10 n := Nat.toList_repr
  rw [hdigits] at h
  exact Nat.isDigit_of_mem_toDigits (by decide) (by decide) h

theorem scan_nodeName (id : ActionId) :
    scan .between (nodeName id).toList = ([], .word (nodeName id).toList) := by
  have hletter : scan .between "a".toList = ([], .word "a".toList) := rfl
  have hdigits : ∀ c ∈ (toString id).toList, isWordChar c = true := by
    intro c hc
    simp [isWordChar, Char.isAlphanum, isDigit_of_mem_toString hc]
  rw [nodeName, String.toList_append]
  exact scan_trans hletter (scan_word hdigits)

theorem scan_actionText (id : ActionId) :
    scan (.quoted []) (actionText id).toList = ([], .quoted (actionText id).toList) := by
  apply scan_plain
  intro c hc
  rw [actionText, String.toList_append, List.mem_append] at hc
  rcases hc with hc | hc
  · have hc : c = '#' := List.mem_singleton.mp hc
    rw [hc]
    decide
  · have hdigit := isDigit_of_mem_toString hc
    constructor <;> rintro rfl <;> exact absurd hdigit (by decide)

section Statements

variable {a : Action}
  (hsource : a.operation = .source → ∀ c ∈ a.path.toList, c ≠ '\\' ∧ c ≠ '"')
include hsource

theorem scan_nodeLabel :
    scan (.quoted []) (nodeLabel a).toList = ([], .quoted (title a).toList) := by
  have hbreak (text : List Char) :
      scan (.quoted text) "\\n".toList = ([], .quoted (text ++ "\n".toList)) := rfl
  have hescaped (text : List Char) (label : String) :
      scan (.quoted text) (escape label).toList = ([], .quoted (text ++ label.toList)) := by
    rw [escape, String.toList_ofList, escapeChar_escapeChar]
    exact scan_escapeChars text label.toList
  have hnumber := scan_trans (scan_actionText a.id) (hbreak _)
  cases hop : a.operation with
  | source =>
      simp only [nodeLabel, title, hop, String.toList_append]
      exact scan_trans hnumber (scan_plain (hsource hop))
  | filter _ | define _ _ _ _ | output _ _ _ _ | statistics _ _ _ _ =>
      simp only [nodeLabel, title, hop, String.toList_append]
      exact scan_trans hnumber (hescaped _ _)

theorem scan_nodeStatement :
    scan .between (nodeStatement a).toList = (nodeTokens a ++ [.mark ';'], .between) := by
  have hindent : scan .between "    ".toList = ([], .between) := rfl
  have hlabel (name : List Char) : scan (.word name) " [label=\"".toList =
      ([.word name, .mark '[', .word "label".toList, .mark '='], .quoted []) := rfl
  have hshape (text : List Char) : scan (.quoted text) "\", shape=".toList =
      ([.quoted text, .mark ',', .word "shape".toList, .mark '='], .between) := rfl
  have hkind : scan .between (shape a.kind).toList = ([], .word (shape a.kind).toList) := by
    cases a.kind <;> rfl
  have hend (text : List Char) : scan (.word text) "];\n".toList =
      ([.word text, .mark ']', .mark ';'], .between) := rfl
  have hstart := scan_trans (scan_trans hindent (scan_nodeName a.id)) (hlabel _)
  have hmiddle := scan_trans (scan_trans hstart (scan_nodeLabel hsource)) (hshape _)
  have hall := scan_trans (scan_trans hmiddle hkind) (hend _)
  simp only [nodeStatement, String.toList_append]
  exact hall

end Statements

theorem scan_edgeStatement (a : Action) (dependency : ActionId) :
    scan .between (edgeStatement a dependency).toList =
      (edgeTokens a dependency ++ [.mark ';'], .between) := by
  have hindent : scan .between "    ".toList = ([], .between) := rfl
  have harrow (name : List Char) :
      scan (.word name) " -> ".toList = ([.word name, .arrow], .between) := rfl
  have hsolid (name : List Char) :
      scan (.word name) ";\n".toList = ([.word name, .mark ';'], .between) := rfl
  have hdashed (name : List Char) : scan (.word name) (" [style=dashed]".toList ++ ";\n".toList) =
      ([.word name, .mark '[', .word "style".toList, .mark '=', .word "dashed".toList, .mark ']',
        .mark ';'], .between) := rfl
  have hstart := scan_trans (scan_trans hindent (scan_nodeName dependency)) (harrow _)
  have hends := scan_trans hstart (scan_nodeName a.id)
  by_cases hinput : a.input = some dependency
  · have hall := scan_trans hends (hsolid _)
    simpa [edgeStatement, edgeTokens, hinput, String.toList_append] using hall
  · have hall := scan_trans hends (hdashed _)
    simpa [edgeStatement, edgeTokens, hinput, String.toList_append] using hall

/-! ### Its statements -/

theorem statement?_nodeTokens (a : Action) : statement? (nodeTokens a) = some (drawnNode a) := by
  simp [nodeTokens, statement?, attributes?, attributesWithin, Token.value?, drawnNode]

theorem statement?_edgeTokens (a : Action) (dependency : ActionId) :
    statement? (edgeTokens a dependency) = some (drawnEdge a dependency) := by
  by_cases hinput : a.input = some dependency <;>
    simp [edgeTokens, hinput, statement?, attributes?, attributesWithin, Token.value?, drawnEdge]

theorem nodeTokens_inside (a : Action) :
    ∀ token ∈ nodeTokens a, token ≠ .mark ';' ∧ token ≠ .mark '\x7d' := by
  simp [nodeTokens]

theorem edgeTokens_inside (a : Action) (dependency : ActionId) :
    ∀ token ∈ edgeTokens a dependency, token ≠ .mark ';' ∧ token ≠ .mark '\x7d' := by
  by_cases hinput : a.input = some dependency <;> simp [edgeTokens, hinput]

def pairs (actions : List Action) : List (Action × ActionId) :=
  actions.flatMap fun a => a.dependencies.map fun d => (a, d)

theorem map_pairs {β : Type} (f : Action → ActionId → β) (actions : List Action) :
    (pairs actions).map (fun p => f p.1 p.2) = actions.flatMap fun a => a.dependencies.map (f a) := by
  rw [pairs, List.map_flatMap]
  simp only [List.map_map, Function.comp_def]

section Drawing

variable {g : ActionGraph}

def header : String := "digraph cutgraph \x7b\n    rankdir=TB;\n"

def headerTokens : List Token :=
  [.word "digraph".toList, .word "cutgraph".toList, .mark '\x7b', .word "rankdir".toList,
    .mark '=', .word "TB".toList, .mark ';']

theorem scan_header : scan .between header.toList = (headerTokens, .between) := by
  have hlines : header.toList = "digraph cutgraph \x7b".toList ++ "\n    rankdir=TB;\n".toList := rfl
  rw [hlines]
  exact scan_trans rfl rfl

theorem toList_toDot (g : ActionGraph) : g.toDot.toList = header.toList ++
    (g.actions.flatMap fun a => (nodeStatement a).toList) ++
    ((pairs g.actions).flatMap fun p => (edgeStatement p.1 p.2).toList) ++ ['\x7d', '\n'] := by
  have hparts : g.toDot = header ++ String.join (g.actions.map nodeStatement) ++
      String.join (g.actions.flatMap fun a => a.dependencies.map (edgeStatement a)) ++
      String.ofList ['\x7d', '\n'] := rfl
  rw [hparts, ← map_pairs edgeStatement]
  simp only [String.toList_append, String.toList_join, List.flatMap_map, String.toList_ofList]

theorem scan_toDot (hsource : ∀ a ∈ g.actions, a.operation = .source →
    ∀ c ∈ a.path.toList, c ≠ '\\' ∧ c ≠ '"') :
    scan .between g.toDot.toList = (headerTokens ++
      (g.actions.flatMap fun a => nodeTokens a ++ [.mark ';']) ++
      ((pairs g.actions).flatMap fun p => edgeTokens p.1 p.2 ++ [.mark ';']) ++ [.mark '\x7d'],
      .between) := by
  have hnodes : scan .between (g.actions.flatMap fun a => (nodeStatement a).toList) =
      (g.actions.flatMap fun a => nodeTokens a ++ [.mark ';'], .between) :=
    scan_flatMap fun a ha => scan_nodeStatement (hsource a ha)
  have hedges : scan .between ((pairs g.actions).flatMap fun p => (edgeStatement p.1 p.2).toList) =
      ((pairs g.actions).flatMap fun p => edgeTokens p.1 p.2 ++ [.mark ';'], .between) :=
    scan_flatMap fun p _ => scan_edgeStatement p.1 p.2
  have hclose : scan .between ['\x7d', '\n'] = ([.mark '\x7d'], .between) := rfl
  rw [toList_toDot]
  exact scan_trans (scan_trans (scan_trans scan_header hnodes) hedges) hclose

/-- What is read from the drawing of a graph whose source has a plain path. -/
theorem read_toDot (hsource : ∀ a ∈ g.actions, a.operation = .source →
    ∀ c ∈ a.path.toList, c ≠ '\\' ∧ c ≠ '"') :
    read g.toDot = some ("cutgraph", .setting "rankdir" "TB" :: (g.actions.map drawnNode ++
      g.actions.flatMap fun a => a.dependencies.map (drawnEdge a))) := by
  let setting : List Token := [.word "rankdir".toList, .mark '=', .word "TB".toList]
  let nodes : List Token := g.actions.flatMap fun a => nodeTokens a ++ [.mark ';']
  let edges : List Token := (pairs g.actions).flatMap fun p => edgeTokens p.1 p.2 ++ [.mark ';']
  have hlex : lex g.toDot.toList = some (.word "digraph".toList :: .word "cutgraph".toList ::
      .mark '\x7b' :: (setting ++ .mark ';' :: (nodes ++ (edges ++ [.mark '\x7d'])))) := by
    rw [lex, scan_toDot hsource]
    simp [setting, nodes, edges, headerTokens]
  have hsetting : statementsWithin [] (setting ++ .mark ';' :: (nodes ++ (edges ++ [.mark '\x7d']))) =
      (statementsWithin [] (nodes ++ (edges ++ [.mark '\x7d']))).map
        (.setting "rankdir" "TB" :: ·) :=
    statementsWithin_statement (by decide) rfl _
  have hnodes : statementsWithin [] (nodes ++ (edges ++ [.mark '\x7d'])) =
      (statementsWithin [] (edges ++ [.mark '\x7d'])).map (g.actions.map drawnNode ++ ·) :=
    statementsWithin_flatMap (fun a _ => nodeTokens_inside a)
      (fun a _ => statement?_nodeTokens a) _
  have hedges : statementsWithin [] (edges ++ [.mark '\x7d']) =
      (statementsWithin [] [.mark '\x7d']).map
        ((pairs g.actions).map (fun p => drawnEdge p.1 p.2) ++ ·) :=
    statementsWithin_flatMap (fun p _ => edgeTokens_inside p.1 p.2)
      (fun p _ => statement?_edgeTokens p.1 p.2) _
  have hclose : statementsWithin [] [.mark '\x7d'] = some [] := rfl
  rw [hclose, Option.map_some, List.append_nil, map_pairs] at hedges
  rw [hnodes, hedges, Option.map_some, Option.map_some] at hsetting
  simp only [read, hlex, Option.bind_eq_bind, Option.bind_some, hsetting]
  rfl

end Drawing

theorem nodeName_injective : Function.Injective nodeName := by
  intro i j h
  have hlist := congrArg String.toList h
  rw [nodeName, nodeName, String.toList_append, String.toList_append, List.append_cancel_left_eq]
    at hlist
  have hdigits : Nat.toDigits 10 i = Nat.toDigits 10 j := by
    rw [← Nat.toList_repr, ← Nat.toList_repr]
    exact hlist
  calc
    i = Nat.ofDigitChars 10 (Nat.toDigits 10 i) 0 := Nat.ofDigitChars_ten_toDigits.symm
    _ = Nat.ofDigitChars 10 (Nat.toDigits 10 j) 0 := by rw [hdigits]
    _ = j := Nat.ofDigitChars_ten_toDigits

end Dot

/-! ### Graphs that are built -/

theorem SelectionTree.WellNamed.pathText_root {t : SelectionTree} (h : t.WellNamed) :
    t.pathText 0 = rootName := by
  rw [pathText, path_root, List.map_singleton, h.root]
  rfl

theorem Made.dependencies_nodup {p : Planner} {regions : List AcceptedRegion}
    {actions : List Action} {a : Action} (h : Made p regions actions a) : a.dependencies.Nodup := by
  have hascending (tip : ActionId) {ids : List ActionId} (hids : ids.Pairwise (· < ·)) :
      (unionDistinct [tip] ids).Nodup := nodup_of_ascending (pairwise_unionDistinct hids)
  have hproducers (line : List Action) (scope : Scope) (s : Systematic) (wanted : List String) :
      (producersIn line scope s wanted).Pairwise (· < ·) := pairwise_unionDistinct .nil
  cases h with
  | source => exact List.nodup_nil
  | define => exact hascending _ (hproducers _ _ _ _)
  | filter => exact hascending _ (hproducers _ _ _ _)
  | statistics => exact hascending _ (pairwise_insertDistinct (hproducers _ _ _ _))
  | output => exact hascending _ (pairwise_insertDistinct (hproducers _ _ _ _))

namespace ActionGraph

variable {ω : Type} {t : SelectionTree} {namer : Namer} {options : BuildOptions}
  {regions : List (Region ω)} {g : ActionGraph}

theorem Built.source_path {p : Planner} {accepted : List AcceptedRegion} {d : Draft}
    (h : Built t p accepted d g) (hn : t.WellNamed) {a : Action} (ha : a ∈ g.actions)
    (hop : a.operation = .source) : a.path = rootName := by
  obtain ⟨-, b, hb, rfl⟩ := h.of_mem ha
  cases h.sound.made b (List.mem_of_getElem? hb) with
  | @source place _ hplace =>
      obtain ⟨q, hq, hextends⟩ := h.lawful.root
      rw [hplace, Option.some.injEq] at hq
      subst hq
      exact hextends.path_eq.trans hn.pathText_root
  | define | filter | statistics | output => cases hop

theorem nodup_flatMap_dependencies {actions : List Action}
    (hid : ∀ (i : Nat) (a : Action), actions[i]? = some a → a.id = i)
    (hdependencies : ∀ a ∈ actions, a.dependencies.Nodup) :
    (actions.flatMap fun a => a.dependencies.map fun d => (d, a.id)).Nodup := by
  have hids : (actions.map Action.id).Nodup := by
    rw [ids_eq_range hid]
    exact List.nodup_range
  rw [List.Nodup, List.pairwise_map] at hids
  apply List.nodup_flatMap.mpr
  constructor
  · intro a ha
    exact (hdependencies a ha).map fun d d' h => congrArg Prod.fst h
  · apply hids.imp
    intro a b hne pair ha hb
    obtain ⟨d, -, rfl⟩ := List.mem_map.mp ha
    obtain ⟨d', -, h⟩ := List.mem_map.mp hb
    exact hne (congrArg Prod.snd h).symm

/-- Reading the drawing of a graph gives its actions and then their dependencies, each once and with
the labels as they are, whatever characters the names and expressions in them have. -/
theorem drawn_of_build (ht : t.Reachable) (h : build t namer options regions = .ok g) :
    Dot.read g.toDot = some ("cutgraph", .setting "rankdir" "TB" ::
      ((g.actions.map fun a => .node (Dot.nodeName a.id)
        [("label", actionText a.id ++ "\n" ++
            match a.operation with | .source => a.path | _ => a.label),
          ("shape", Dot.shape a.kind)]) ++
      (g.actions.flatMap fun a => a.dependencies.map fun d =>
        .edge (Dot.nodeName d) (Dot.nodeName a.id)
          (if a.input = some d then [] else [("style", "dashed")])))) ∧
      (g.actions.map fun a => Dot.nodeName a.id).Nodup ∧
      (g.actions.flatMap fun a => a.dependencies.map fun d =>
        (Dot.nodeName d, Dot.nodeName a.id)).Nodup ∧
      ∀ a ∈ g.actions, ∀ d ∈ a.dependencies, ∃ b ∈ g.actions, b.id = d := by
  obtain ⟨p, accepted, d, -, -, -, -, -, hb⟩ := built_of_build ht h
  have hsource : ∀ a ∈ g.actions, a.operation = .source →
      ∀ c ∈ a.path.toList, c ≠ '\\' ∧ c ≠ '"' := by
    intro a ha hop
    rw [hb.source_path ht.wellNamed ha hop]
    have hbackslash : '\\' ∉ rootName.toList := by decide
    have hquote : '"' ∉ rootName.toList := by decide
    intro c hc
    exact ⟨fun h => hbackslash (h ▸ hc), fun h => hquote (h ▸ hc)⟩
  have hdependencies : ∀ a ∈ g.actions, a.dependencies.Nodup := by
    intro a ha
    obtain ⟨-, b, hbget, rfl⟩ := hb.of_mem ha
    exact (hb.sound.made b (List.mem_of_getElem? hbget)).dependencies_nodup
  have hids := hb.chained.id_eq
  refine ⟨Dot.read_toDot hsource, ?_, ?_, ?_⟩
  · have hnames : (g.actions.map fun a => Dot.nodeName a.id) =
        (List.range g.actions.length).map Dot.nodeName := by
      rw [← ids_eq_range hids, List.map_map]
      rfl
    rw [hnames]
    exact List.nodup_range.map Dot.nodeName_injective
  · have hedges := nodup_flatMap_dependencies hids hdependencies
    have hinjective : Function.Injective (Prod.map Dot.nodeName Dot.nodeName) :=
      Dot.nodeName_injective.prodMap Dot.nodeName_injective
    have hmapped := hedges.map hinjective
    rw [List.map_flatMap] at hmapped
    simpa only [List.map_map, Function.comp_def, Prod.map_apply] using hmapped
  · intro a ha j hj
    obtain ⟨b, hbget, hid, -⟩ := hb.chained.dependency_lt (hb.of_mem ha).1 hj
    exact ⟨b, List.mem_of_getElem? hbget, hid⟩

end ActionGraph

/-! A node, a dataset column, a region and a writer with quotes, backslashes and line breaks. -/

namespace Sample

def quoted : SelectionTree :=
  { id := 0
    nodes := [{ name := rootName, attachment := none, label := none },
      { name := "a\"b\\c\nd", attachment := some ⟨0, .ofBranch "cut" "p\"t\\"⟩, label := none }] }

theorem quoted_reachable : quoted.Reachable :=
  @SelectionTree.Reachable.addChild _ quoted ⟨0, 0⟩ ⟨0, 1⟩ "a\"b\\c\nd" (.ofBranch "cut" "p\"t\\")
    none (.new 0 none) rfl

def quotes : Region Nat :=
  (Region.new "\"\\" ⟨0, 1⟩).addWriter { keep with name := "\n", columns := [] }

end Sample

/-- The characters of a name come back as they are, and no statement is added. -/
theorem ActionGraph.drawn_of_build_sample : ∃ g,
    build Sample.quoted Sample.namer {} [Sample.quotes] = .ok g ∧
      Dot.read g.toDot = some ("cutgraph",
        [.setting "rankdir" "TB",
          .node "a0" [("label", "#0\nROOT"), ("shape", "diamond")],
          .node "a1" [("label", "#1\nfilter ROOT/a\"b\\c\nd [nominal] p\"t\\"),
            ("shape", "diamond")],
          .node "a2" [("label", "#2\noutput \"\\/\n [nominal]"), ("shape", "box")],
          .edge "a0" "a1" [], .edge "a1" "a2" []]) := by
  obtain ⟨g, hg⟩ : ∃ g, build Sample.quoted Sample.namer {} [Sample.quotes] = .ok g :=
    exists_ok_of_isOk (by decide)
  have hstatements : ∀ g ∈ (build Sample.quoted Sample.namer {} [Sample.quotes]).toOption,
      (g.actions.map Dot.drawnNode ++
        g.actions.flatMap fun a => a.dependencies.map (Dot.drawnEdge a)) =
      [.node "a0" [("label", "#0\nROOT"), ("shape", "diamond")],
        .node "a1" [("label", "#1\nfilter ROOT/a\"b\\c\nd [nominal] p\"t\\"),
          ("shape", "diamond")],
        .node "a2" [("label", "#2\noutput \"\\/\n [nominal]"), ("shape", "box")],
        .edge "a0" "a1" [], .edge "a1" "a2" []] := by decide
  obtain ⟨hread, -⟩ := drawn_of_build Sample.quoted_reachable hg
  have hdrawn := hstatements g (by rw [hg]; rfl)
  refine ⟨g, hg, hread.trans ?_⟩
  exact congrArg (fun statements => some ("cutgraph", .setting "rankdir" "TB" :: statements)) hdrawn

end SelectionPlan
