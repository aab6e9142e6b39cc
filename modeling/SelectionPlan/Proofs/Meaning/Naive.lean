import SelectionPlan.Backend.Memory
import SelectionPlan.Proofs.Execution.Delivery
import SelectionPlan.Proofs.Graph.Task

/-!
# The meaning of an analysis, event by event

Without any planning, an event has a value for every name that can be read at a node, found by
following the definitions, and is selected at a node if it passes every filter on the way there.  A
variation replaces the definitions that it overrides wherever they are read.
-/

namespace SelectionPlan

namespace EventTable

def value (table : EventTable) (row : Nat) (column : String) : Float :=
  ((table.column? column).getD []).getD row Binary64.notANumber

def evaluate (table : EventTable) (row : Nat) (read : String → Float) : Specification → Float
  | .branch column => table.value row column
  | .function f inputs => f (inputs.map read)
  | .expression e => e.eval (e.columns.map read)

/-- The value of a name where the given variables are visible, the newest first. -/
def read (table : EventTable) (s : Systematic) (row : Nat) : List Variable → String → Float
  | [], _ => Binary64.notANumber
  | v :: older, name =>
    if v.name = name then table.evaluate row (table.read s row older) (v.spec s)
    else table.read s row older name

end EventTable

/-- The sum of the weights of some events and that of their squares, added one after the other. -/
def sumsOver {α : Type} (weight : α → Float) (events : List α) : Float × Float :=
  (events.foldl (fun sum event => sum + weight event) 0,
    events.foldl (fun squares event => squares + weight event * weight event) 0)

/-- The result over some events, given the values of all names.  Without a weight every event
counts once. -/
def Materialized.ofRows (rows : List Nat) (read : String → Nat → Float) (columns : List String)
    (weight : Option String) : Materialized :=
  let sums := match weight with
    | none => (rows.length.toFloat, rows.length.toFloat)
    | some name => sumsOver (read name) rows
  { entries := rows.length
    sumWeights := sums.1
    sumWeights2 := sums.2
    columns := columns.foldl (fun result name => insertKey name (rows.map (read name)) result) [] }

namespace SelectionTree

variable (t : SelectionTree) (table : EventTable) (s : Systematic)

/-- Whether an event passes the filter of a node; the root has none. -/
def passes (row node : Nat) : Bool :=
  match t.nodes[node]?.bind Node.filter with
  | none => true
  | some v => truthy (table.evaluate row (table.read s row (t.visible node)) (v.spec s))

def selectedRows (node : Nat) : List Nat :=
  (List.range table.rows).filter fun row => (t.path node).all (t.passes table s row)

def resultAt (node : Nat) (columns : List String) (weight : Option String) : Materialized :=
  .ofRows (t.selectedRows table s node) (fun name row => table.read s row (t.visible node) name)
    columns weight

def cutflowAt (node : Nat) : CutflowStep :=
  let result := t.resultAt table s node [] (t.weight node)
  { node := t.nameOf node
    label := t.nodes[node]?.bind Node.label
    events := result.entries
    sumWeights := result.sumWeights
    sumWeights2 := result.sumWeights2 }

end SelectionTree

namespace Region

variable {ω : Type} (r : Region ω) (t : SelectionTree) (table : EventTable)

def handoverFor (s : Systematic) (w : Writer ω) : Handover ω :=
  let node := r.target.index
  { writer := w
    context :=
      { region := r.name
        systematic := s
        label := t.nodes[node]?.bind Node.label
        cutflow := (t.path node).map (t.cutflowAt table s) }
    result := t.resultAt table s node w.columns (w.weight.or (t.weight node)) }

/-- What the writers of a region have to be handed: each of them once under every requested
systematic. -/
def expected : List (Handover ω) :=
  r.systematics.flatMap fun s => r.writers.map (r.handoverFor t table s)

end Region

theorem weightSums_map {α : Type} (weight : α → Float) (events : List α) :
    weightSums (events.map weight) = sumsOver weight events := by
  have hsums (sums : Float × Float) :
      (events.map weight).foldl (fun sums w => (sums.1 + w, sums.2 + w * w)) sums =
        (events.foldl (fun sum event => sum + weight event) sums.1,
          events.foldl (fun squares event => squares + weight event * weight event) sums.2) := by
    induction events generalizing sums with
    | nil => rfl
    | cons event events ih =>
        rw [List.map_cons, List.foldl_cons, ih, List.foldl_cons, List.foldl_cons]
  exact hsums (0, 0)

theorem sumsOver_congr {α : Type} {weight weight' : α → Float} {events : List α}
    (h : events.map weight = events.map weight') :
    sumsOver weight events = sumsOver weight' events := by
  rw [← weightSums_map, h, weightSums_map]

theorem Materialized.ofRows_congr {rows : List Nat} {read read' : String → Nat → Float}
    {columns : List String} {weight : Option String}
    (h : ∀ name ∈ columns ++ weight.toList, ∀ row ∈ rows, read name row = read' name row) :
    ofRows rows read columns weight = ofRows rows read' columns weight := by
  have hvalues : ∀ name ∈ columns ++ weight.toList, rows.map (read name) = rows.map (read' name) :=
    fun name hname => List.map_congr_left (h name hname)
  have hcolumns : ∀ (names : List String) (result : List (String × List Float)),
      names ⊆ columns ++ weight.toList →
      names.foldl (fun result name => insertKey name (rows.map (read name)) result) result =
        names.foldl (fun result name => insertKey name (rows.map (read' name)) result) result := by
    intro names
    induction names with
    | nil => exact fun _ _ => rfl
    | cons name names ih =>
        intro result hnames
        rw [List.cons_subset] at hnames
        rw [List.foldl_cons, List.foldl_cons, hvalues name hnames.1, ih _ hnames.2]
  simp only [ofRows, hcolumns columns [] (List.subset_append_left _ _)]
  cases weight with
  | none => rfl
  | some name => simp only [sumsOver_congr (hvalues name (by simp))]

section Effect

variable {table : EventTable} {row : Nat} {s s' : Systematic}

theorem EventTable.evaluate_congr {read read' : String → Float} {spec : Specification}
    (h : ∀ i ∈ spec.inputs, read i = read' i) :
    table.evaluate row read spec = table.evaluate row read' spec := by
  cases spec with
  | branch column => rfl
  | function f inputs => exact congrArg f (List.map_congr_left h)
  | expression e => exact congrArg e.eval (List.map_congr_left h)

/-- A column has the same value under systematics that are in effect on it alike. -/
theorem Scope.Resolved.read_congr {scope : Scope} (h : scope.Resolved) {name : String}
    (heff : ∀ c, scope.lookup name = some c → c.effective s = c.effective s') :
    table.read s row (scope.map Column.declared) name =
      table.read s' row (scope.map Column.declared) name := by
  induction h generalizing name with
  | nil => rfl
  | @cons c older hold hfree hinputs haffects ih =>
      have hc : Scope.Resolved (c :: older) := .cons hold hfree hinputs haffects
      simp only [List.map_cons, EventTable.read]
      by_cases hname : c.declared.name = name
      · have hself : c.effective s = c.effective s' :=
          heff c (lookup_of_locate (by simp [locate, Column.name, hname]; rfl))
        have hspec : c.declared.spec s = c.declared.spec s' := by
          rw [← Column.specUnder_eq hc.overridden_subset, Column.specUnder, hself,
            ← Column.specUnder, Column.specUnder_eq hc.overridden_subset]
        rw [if_pos hname, if_pos hname, hspec]
        refine EventTable.evaluate_congr fun i hi => ih fun d hd => ?_
        rw [← hspec, ← Column.specUnder_eq hc.overridden_subset] at hi
        have hsub := hc.affects_input hi hd
        rw [← Column.effective_effective hsub s, hself, Column.effective_effective hsub s']
      · rw [if_neg hname, if_neg hname]
        refine ih fun d hd => heff d ?_
        have hne : (c.name == name) = false := beq_false_of_ne hname
        rw [Scope.lookup, List.find?_cons_of_neg (by simp [hne])]
        exact hd

theorem Scope.Resolved.read_effective {scope : Scope} (h : scope.Resolved) {name : String}
    {c : Column} (hc : scope.lookup name = some c) :
    table.read s row (scope.map Column.declared) name =
      table.read (c.effective s) row (scope.map Column.declared) name := by
  refine h.read_congr fun d hd => ?_
  rw [hc, Option.some.injEq] at hd
  rw [← hd, Column.effective_idem]

theorem Scope.read_located {scope older : Scope} {name : String} {c : Column}
    (hc : scope.locate name = some (c, older)) :
    table.read s row (scope.map Column.declared) name =
      table.evaluate row (table.read s row (older.map Column.declared)) (c.declared.spec s) := by
  induction scope with
  | nil => cases hc
  | cons d rest ih =>
      rw [locate] at hc
      simp only [List.map_cons, EventTable.read]
      split at hc
      · rename_i hname
        cases hc
        exact if_pos hname
      · rename_i hname
        exact (if_neg hname).trans (ih hc)

end Effect

namespace ScopeIndex.Lawful

variable {t : SelectionTree} {index : ScopeIndex} (h : Lawful t index) {table : EventTable}
  {row : Nat}
include h

/-- A systematic that is not in effect on a selection does not change which events pass. -/
theorem passes_chainUnder {i : Nat} {p : Place} (hp : index.place? i = some p) (s : Systematic) :
    t.passes table (p.chainUnder s) row i = t.passes table s row i := by
  obtain ⟨scope, chain, hext⟩ := h.extends_of_place hp
  obtain ⟨node, hnode, -, -, hfilter, -⟩ := hext.declaration
  cases s with
  | nominal => rfl
  | variation name =>
      by_cases hname : name ∈ p.chain
      · simp [Place.chainUnder, hname]
      · simp only [Place.chainUnder, hname, if_false, SelectionTree.passes, hnode,
          Option.bind_some]
        cases hv : node.filter with
        | none => rfl
        | some v =>
            have hpv : p.filter = some v := hfilter.trans hv
            have hspec : v.spec (.variation name) = v.nominal :=
              Variable.spec_of_not_overridden fun hmem =>
                hname ((hext.mem_chain name).mpr (.inr ⟨v, hpv, .inl hmem⟩))
            have hnominal : v.spec .nominal = v.nominal := rfl
            simp only [hspec, hnominal]
            refine congrArg truthy (EventTable.evaluate_congr fun i hi => ?_)
            rw [← h.scope_declared hp]
            refine hext.resolved.read_congr fun c hc => ?_
            have hinput : i ∈ v.allInputs := Variable.mem_allInputs (hnominal ▸ hi)
            have hc' : name ∉ c.affects := fun hmem =>
              hname ((hext.mem_chain name).mpr (.inr ⟨v, hpv, .inr ⟨i, hinput, c, hc, hmem⟩⟩))
            simp [Column.effective, hc']

end ScopeIndex.Lawful
end SelectionPlan
