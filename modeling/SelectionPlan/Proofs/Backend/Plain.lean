import SelectionPlan.Backend.Session
import SelectionPlan.Proofs.Meaning.Naive

/-!
# Frames row by row

A frame is a chain of steps over a table.  Without any engine, every row goes through the steps by
itself: a filter drops it or lets it pass, and a definition gives one more column a value, which
hides what the column was before.  Only which columns there are is a matter of the chain alone.
-/

namespace SelectionPlan

/-! ### The semantics of a chain -/

inductive FrameStep
  | filter (predicate : Definition)
  | define (column : String) (definition : Definition)

abbrev Row := String → Float

def Definition.valueOn (d : Definition) (row : Row) : Float := d.eval (d.inputs.map row)

namespace FrameStep

def inputs : FrameStep → List String
  | filter predicate => predicate.inputs
  | define _ definition => definition.inputs

def extend (known : List String) : FrameStep → List String
  | filter _ => known
  | define column _ => column :: known

def apply (row : Row) : FrameStep → Option Row
  | filter predicate => if truthy (predicate.valueOn row) then some row else none
  | define column definition => some (Function.update row column (definition.valueOn row))

end FrameStep

def unknown? (known names : List String) : Option String :=
  names.find? fun name => decide (name ∉ known)

/-- The first column that a step reads and that is not known by then. -/
def missing? (known : List String) : List FrameStep → Option String
  | [] => none
  | step :: rest => (unknown? known step.inputs).or (missing? (step.extend known) rest)

def unlessMissing {α : Type} (missing : Option String) (result : α) : Except BackendError α :=
  match missing with
  | some column => .error (.missingColumn column)
  | none => .ok result

def Frame.steps : Frame → List FrameStep
  | source _ => []
  | filter _ parent _ predicate => parent.steps ++ [.filter predicate]
  | define _ parent column definition => parent.steps ++ [.define column definition]

/-- The answer to a request for some rows.  Without a weight every row counts once. -/
def Request.over (request : Request) (rows : List Row) : Materialized :=
  let sums := match request.weight with
    | none => (rows.length.toFloat, rows.length.toFloat)
    | some weight => sumsOver (fun row : Row => row weight) rows
  { entries := rows.length
    sumWeights := sums.1
    sumWeights2 := sums.2
    columns := request.columns.foldl (fun columns (logical, physical) =>
      insertKey logical (rows.map fun row : Row => row physical) columns) [] }

namespace EventTable

variable (table : EventTable)

def names : List String := table.columns.map Prod.fst

def known (steps : List FrameStep) : List String := steps.foldl FrameStep.extend table.names

def walk (steps : List FrameStep) (row : Nat) : Option Row :=
  steps.foldlM FrameStep.apply (table.value row)

def selection (steps : List FrameStep) : List Row :=
  (List.range table.rows).filterMap (table.walk steps)

def plainCount (steps : List FrameStep) : Except BackendError Nat :=
  unlessMissing (missing? table.names steps) (table.selection steps).length

/-- Steps are checked for missing columns first, then the requested columns, then the weight. -/
def plainResult (steps : List FrameStep) (request : Request) : Except BackendError Materialized :=
  let wanted := request.columns.map Prod.snd ++ request.weight.toList
  unlessMissing ((missing? table.names steps).or (unknown? (table.known steps) wanted))
    (request.over (table.selection steps))

/-- The engine that goes through the table row by row for every pull, and remembers nothing. -/
def plain : LazyBackend (List FrameStep) Unit where
  source := fun state => ([], state)
  applyFilter := fun steps _ predicate state => (.ok (steps ++ [.filter predicate]), state)
  defineColumn := fun steps name definition state =>
    if (table.column? name).isSome then
      (.error (.construction name "a dataset column with this name exists"), state)
    else (.ok (steps ++ [.define name definition]), state)
  pullCount := fun steps state => (table.plainCount steps, state)
  pull := fun steps request state => (table.plainResult steps request, state)

/-! ### Tables -/

inductive Reachable : EventTable → Prop
  | empty : Reachable .empty
  | insert {t t' : EventTable} {name : String} {values : List Float} : Reachable t →
      t.insert name values = .ok t' → Reachable t'

theorem Reachable.rowCount {table : EventTable} (h : table.Reachable) {name : String}
    {values : List Float} (hvalues : table.column? name = some values) :
    table.rowCount = some values.length := by
  induction h generalizing name values with
  | empty => cases hvalues
  | @insert t t' name' values' _ hinsert ih =>
      have hcolumn (inserted : EventTable)
          (heq : inserted = ⟨some values'.length, insertKey name' values' t.columns⟩)
          (hfits : ∀ count, t.rowCount = some count → count = values'.length)
          (hvalues : inserted.column? name = some values) :
          inserted.rowCount = some values.length := by
        subst heq
        rw [column?, lookupKey_insertKey] at hvalues
        split at hvalues
        · cases hvalues
          rfl
        · exact congrArg some (hfits _ (ih hvalues)).symm
      cases hcount : t.rowCount with
      | none =>
          simp only [EventTable.insert, hcount, Except.ok.injEq] at hinsert
          exact hcolumn t' hinsert.symm (by simp [hcount]) hvalues
      | some count =>
          simp only [EventTable.insert, hcount] at hinsert
          split at hinsert
          · rename_i hfits
            rw [Except.ok.injEq] at hinsert
            exact hcolumn t' hinsert.symm (by simp [hcount, hfits]) hvalues
          · cases hinsert

theorem Reachable.length {table : EventTable} (h : table.Reachable) {name : String}
    {values : List Float} (hvalues : table.column? name = some values) :
    values.length = table.rows := by
  rw [rows, h.rowCount hvalues, Option.getD_some]

theorem mem_names {table : EventTable} {name : String} :
    name ∈ table.names ↔ ∃ values, table.column? name = some values := by
  rw [names, ← lookupKey_isSome_iff, Option.isSome_iff_exists]
  rfl

end EventTable

/-! ### Missing columns -/

section Missing

variable {α β : Type}

theorem unlessMissing_bind {missing : Option String} {a : α} {k : α → Except BackendError β}
    {later : Option String} {b : β} (hk : missing = none → k a = unlessMissing later b) :
    unlessMissing missing a >>= k = unlessMissing (missing.or later) b := by
  cases missing with
  | some column => rfl
  | none => exact hk rfl

theorem unlessMissing_bind_ok {missing : Option String} {a : α} {k : α → Except BackendError β}
    {b : β} (hk : missing = none → k a = .ok b) :
    unlessMissing missing a >>= k = unlessMissing missing b := by
  cases missing with
  | some column => rfl
  | none => exact hk rfl

theorem unknown?_append (known xs ys : List String) :
    unknown? known (xs ++ ys) = (unknown? known xs).or (unknown? known ys) :=
  List.find?_append

theorem unknown?_cons (known : List String) (name : String) (names : List String) :
    unknown? known (name :: names) = (unknown? known [name]).or (unknown? known names) :=
  unknown?_append known [name] names

theorem unknown?_eq_none {known names : List String} :
    unknown? known names = none ↔ ∀ name ∈ names, name ∈ known := by
  simp [unknown?]

theorem missing?_append (known : List String) (steps : List FrameStep) (step : FrameStep) :
    missing? known (steps ++ [step]) =
      (missing? known steps).or (unknown? (steps.foldl FrameStep.extend known) step.inputs) := by
  induction steps generalizing known with
  | nil => simp [missing?]
  | cons first rest ih => simp [missing?, ih, Option.or_assoc]

end Missing

/-! ### Evaluated frames -/

def FrameData.values (data : FrameData) (table : EventTable) (name : String) : List Float :=
  ((lookupKey name data.defined).or (table.column? name)).getD []

structure FrameData.After (table : EventTable) (steps : List FrameStep) (data : FrameData) :
    Prop where
  rows : data.rows = (List.range table.rows).filter fun i => (table.walk steps i).isSome
  known : ∀ name, name ∈ table.known steps ↔
    ((lookupKey name data.defined).or (table.column? name)).isSome
  length : ∀ name ∈ table.known steps, (data.values table name).length = table.rows
  value : ∀ name ∈ table.known steps, ∀ i row, i < table.rows → table.walk steps i = some row →
    (data.values table name).getD i Binary64.notANumber = row name

section Evaluate

variable {table : EventTable} {steps : List FrameStep} {data : FrameData}

@[simp] theorem EventTable.known_append (table : EventTable) (steps : List FrameStep)
    (step : FrameStep) : table.known (steps ++ [step]) = step.extend (table.known steps) := by
  simp [known]

@[simp] theorem EventTable.walk_append (table : EventTable) (steps : List FrameStep)
    (step : FrameStep) (i : Nat) :
    table.walk (steps ++ [step]) i = (table.walk steps i).bind fun row => step.apply row := by
  simp [walk]

namespace FrameData.After

variable (h : data.After table steps)
include h

theorem lt_rows {i : Nat} (hi : i ∈ data.rows) :
    i < table.rows ∧ ∃ row, table.walk steps i = some row := by
  rw [h.rows, List.mem_filter, List.mem_range] at hi
  exact ⟨hi.1, Option.isSome_iff_exists.mp hi.2⟩

theorem column_eq (name : String) : data.column table name =
    unlessMissing (unknown? (table.known steps) [name]) (data.values table name) := by
  have hknown := h.known name
  rw [FrameData.column, FrameData.values, unknown?, List.find?_singleton]
  cases hfound : (lookupKey name data.defined).or (table.column? name) with
  | none =>
      rw [hfound] at hknown
      simp [hknown, unlessMissing]
  | some values =>
      rw [hfound] at hknown
      simp [hknown, unlessMissing]

theorem columns_eq (names : List String) : names.mapM (data.column table) =
    unlessMissing (unknown? (table.known steps) names) (names.map (data.values table)) := by
  induction names with
  | nil => rfl
  | cons name names ih =>
      rw [List.mapM_cons, h.column_eq, ih, unknown?_cons _ name names]
      exact unlessMissing_bind fun _ => unlessMissing_bind_ok fun _ => rfl

theorem valueAt_eq {d : Definition} (hknown : unknown? (table.known steps) d.inputs = none)
    {i : Nat} {row : Row} (hi : i < table.rows) (hwalk : table.walk steps i = some row) :
    valueAt d (d.inputs.map (data.values table)) i = d.valueOn row := by
  rw [unknown?_eq_none] at hknown
  rw [valueAt, Definition.valueOn, List.map_map]
  exact congrArg d.eval (List.map_congr_left fun name hname =>
    h.value name (hknown name hname) i row hi hwalk)

theorem filter (predicate : Definition) : ∃ data', data.filter table predicate =
      unlessMissing (unknown? (table.known steps) predicate.inputs) data' ∧
    (unknown? (table.known steps) predicate.inputs = none →
      data'.After table (steps ++ [.filter predicate])) := by
  let inputs := predicate.inputs.map (data.values table)
  refine ⟨{ data with rows := data.rows.filter fun i => truthy (valueAt predicate inputs i) },
    ?_, fun hknown => ⟨?_, ?_, ?_, fun name hname i row hi hwalk => ?_⟩⟩
  · rw [FrameData.filter, FrameData.inputs, h.columns_eq]
    exact unlessMissing_bind_ok fun _ => rfl
  · simp only [h.rows, List.filter_filter]
    refine List.filter_congr fun i hi => ?_
    rw [List.mem_range] at hi
    rw [EventTable.walk_append]
    cases hwalk : table.walk steps i with
    | none => simp
    | some row =>
        rw [h.valueAt_eq hknown hi hwalk, Option.bind_some, FrameStep.apply]
        cases truthy (predicate.valueOn row) <;> rfl
  · rw [EventTable.known_append]
    exact h.known
  · rw [EventTable.known_append]
    exact h.length
  · rw [EventTable.known_append] at hname
    rw [EventTable.walk_append, Option.bind_eq_some_iff] at hwalk
    obtain ⟨before, hbefore, hstep⟩ := hwalk
    rw [FrameStep.apply, Option.ite_none_right_eq_some] at hstep
    obtain ⟨-, hsame⟩ := hstep
    rw [hsame] at hbefore
    exact h.value name hname i row hi hbefore

theorem define (column : String) (definition : Definition) :
    ∃ data', data.define table column definition =
      unlessMissing (unknown? (table.known steps) definition.inputs) data' ∧
    (unknown? (table.known steps) definition.inputs = none →
      data'.After table (steps ++ [.define column definition])) := by
  let inputs := definition.inputs.map (data.values table)
  let values := (List.range table.rows).map fun i =>
    if i ∈ data.rows then valueAt definition inputs i else Binary64.notANumber
  refine ⟨{ data with defined := insertKey column values data.defined }, ?_, fun hknown => ?_⟩
  · rw [FrameData.define, FrameData.inputs, h.columns_eq]
    exact unlessMissing_bind_ok fun _ => rfl
  · have hvalues (name : String) :
        FrameData.values { data with defined := insertKey column values data.defined } table name =
          if column = name then values else data.values table name := by
      rw [FrameData.values, FrameData.values, lookupKey_insertKey]
      split <;> rfl
    have hstep {i : Nat} {row : Row}
        (hwalk : table.walk (steps ++ [.define column definition]) i = some row) :
        ∃ before, table.walk steps i = some before ∧
          row = Function.update before column (definition.valueOn before) := by
      rw [EventTable.walk_append, Option.bind_eq_some_iff] at hwalk
      obtain ⟨before, hbefore, hsame⟩ := hwalk
      exact ⟨before, hbefore, (Option.some.inj hsame).symm⟩
    refine ⟨?_, fun name => ?_, fun name hname => ?_, fun name hname i row hi hwalk => ?_⟩
    · rw [h.rows]
      refine List.filter_congr fun i _ => ?_
      rw [EventTable.walk_append]
      cases table.walk steps i <;> rfl
    · rw [EventTable.known_append, FrameStep.extend, List.mem_cons, h.known, lookupKey_insertKey]
      by_cases hcolumn : column = name
      · simp [hcolumn]
      · simp [hcolumn, Ne.symm hcolumn]
    · rw [EventTable.known_append, FrameStep.extend, List.mem_cons] at hname
      rw [hvalues]
      split
      · rw [List.length_map, List.length_range]
      · rename_i hcolumn
        exact h.length name (hname.resolve_left (Ne.symm hcolumn))
    · rw [EventTable.known_append, FrameStep.extend, List.mem_cons] at hname
      obtain ⟨before, hbefore, rfl⟩ := hstep hwalk
      rw [hvalues]
      split
      · rename_i hcolumn
        subst hcolumn
        have hmem : i ∈ data.rows := by
          rw [h.rows, List.mem_filter, List.mem_range, hbefore]
          exact ⟨hi, rfl⟩
        rw [Function.update_self, List.getD_eq_getElem?_getD, List.getElem?_map,
          List.getElem?_range hi, Option.map_some, Option.getD_some, if_pos hmem,
          h.valueAt_eq hknown hi hbefore]
      · rename_i hcolumn
        rw [Function.update_of_ne (Ne.symm hcolumn)]
        exact h.value name (hname.resolve_left (Ne.symm hcolumn)) i before hi hbefore

theorem selected_eq {name : String} (hname : name ∈ table.known steps) :
    data.selected (data.values table name) =
      (table.selection steps).map fun row : Row => row name := by
  have hrows (is : List Nat) (his : ∀ i ∈ is, i < table.rows) :
      (is.filter fun i => (table.walk steps i).isSome).map
          (fun i => (data.values table name).getD i Binary64.notANumber) =
        (is.filterMap (table.walk steps)).map fun row : Row => row name := by
    induction is with
    | nil => rfl
    | cons i is ih =>
        rw [List.forall_mem_cons] at his
        cases hwalk : table.walk steps i with
        | none => simpa [hwalk] using ih his.2
        | some row =>
            have hvalue := h.value name hname i row his.1 hwalk
            rw [List.filter_cons_of_pos (by simp [hwalk]), List.map_cons, List.filterMap_cons,
              hwalk, List.map_cons, hvalue, ih his.2]
  rw [FrameData.selected, h.rows]
  exact hrows _ fun i hi => List.mem_range.mp hi

theorem length_rows : data.rows.length = (table.selection steps).length := by
  rw [h.rows, EventTable.selection]
  induction List.range table.rows with
  | nil => rfl
  | cons i is ih => cases hwalk : table.walk steps i <;> simp [hwalk, ih]

/-- Results fail on the first requested column that is missing, then on the weight. -/
theorem materialize_eq (request : Request) : data.materialize table request =
    unlessMissing (unknown? (table.known steps)
      (request.columns.map Prod.snd ++ request.weight.toList))
      (request.over (table.selection steps)) := by
  let rows := table.selection steps
  have hcolumns (pairs : List (String × String)) (columns : List (String × List Float)) :
      pairs.foldlM (fun columns (logical, physical) => do
          let values ← data.column table physical
          return insertKey logical (data.selected values) columns) columns =
        unlessMissing (unknown? (table.known steps) (pairs.map Prod.snd))
          (pairs.foldl (fun columns (logical, physical) =>
            insertKey logical (rows.map fun row : Row => row physical) columns) columns) := by
    induction pairs generalizing columns with
    | nil => rfl
    | cons pair pairs ih =>
        obtain ⟨logical, physical⟩ := pair
        have hfirst : (do
            let values ← data.column table physical
            return insertKey logical (data.selected values) columns) =
              unlessMissing (unknown? (table.known steps) [physical])
                (insertKey logical (data.selected (data.values table physical)) columns) := by
          rw [h.column_eq]
          exact unlessMissing_bind_ok fun _ => rfl
        rw [List.foldlM_cons, List.map_cons, unknown?_cons]
        simp only [hfirst]
        refine unlessMissing_bind fun hphysical => ?_
        have hknown : physical ∈ table.known steps :=
          unknown?_eq_none.mp hphysical physical List.mem_cons_self
        rw [h.selected_eq hknown, ih, List.foldl_cons]
  rw [FrameData.materialize, hcolumns, unknown?_append]
  refine unlessMissing_bind fun _ => ?_
  cases hweight : request.weight with
  | none =>
      simp only [Request.over, hweight, h.length_rows]
      rfl
  | some weight =>
      simp only [h.column_eq, Option.toList_some]
      refine unlessMissing_bind_ok fun hknown => ?_
      have hknown : weight ∈ table.known steps :=
        unknown?_eq_none.mp hknown weight List.mem_cons_self
      simp only [Request.over, hweight, h.length_rows, h.selected_eq hknown, weightSums_map]
      rfl

end FrameData.After

private theorem evaluate_step (step : FrameStep) {outcome : Except BackendError FrameData}
    {k : FrameData → Except BackendError FrameData}
    (hk : ∀ data, data.After table steps → ∃ data',
      k data = unlessMissing (unknown? (table.known steps) step.inputs) data' ∧
      (unknown? (table.known steps) step.inputs = none → data'.After table (steps ++ [step])))
    (h : ∃ data, outcome = unlessMissing (missing? table.names steps) data ∧
      (missing? table.names steps = none → data.After table steps)) :
    ∃ data', outcome >>= k = unlessMissing (missing? table.names (steps ++ [step])) data' ∧
      (missing? table.names (steps ++ [step]) = none → data'.After table (steps ++ [step])) := by
  obtain ⟨data, rfl, hafter⟩ := h
  rw [missing?_append]
  cases hmissing : missing? table.names steps with
  | some column => exact ⟨data, rfl, fun hnone => by cases hnone⟩
  | none =>
      obtain ⟨data', hdata', hafter'⟩ := hk data (hafter hmissing)
      exact ⟨data', hdata', hafter'⟩

/-- A frame comes to what its steps make of the rows, unless a step reads a column that is not
there. -/
theorem Frame.evaluate_eq (ht : table.Reachable) (frame : Frame) :
    ∃ data, frame.evaluate table = unlessMissing (missing? table.names frame.steps) data ∧
      (missing? table.names frame.steps = none → data.After table frame.steps) := by
  induction frame with
  | source id =>
      refine ⟨_, rfl, fun _ => ⟨?_, fun name => ?_, fun name hname => ?_, ?_⟩⟩
      · exact (List.filter_eq_self.mpr fun i _ => rfl).symm
      · exact EventTable.mem_names.trans Option.isSome_iff_exists.symm
      · obtain ⟨values, hvalues⟩ := EventTable.mem_names.mp hname
        exact (congrArg (fun found => (Option.getD found []).length) hvalues).trans
          (ht.length hvalues)
      · rintro name hname i row hi hwalk
        cases hwalk
        rfl
  | filter id parent name predicate ih =>
      exact evaluate_step (.filter predicate) (fun data hafter => hafter.filter predicate) ih
  | define id parent column definition ih =>
      exact evaluate_step (.define column definition)
        (fun data hafter => hafter.define column definition) ih

theorem Frame.count_eq (ht : table.Reachable) (frame : Frame) :
    frame.count table = table.plainCount frame.steps := by
  obtain ⟨data, hdata, hafter⟩ := frame.evaluate_eq ht
  rw [Frame.count, hdata]
  refine unlessMissing_bind_ok fun hmissing => ?_
  rw [(hafter hmissing).length_rows]
  rfl

theorem Frame.materialize_eq (ht : table.Reachable) (frame : Frame) (request : Request) :
    frame.materialize table request = table.plainResult frame.steps request := by
  obtain ⟨data, hdata, hafter⟩ := frame.evaluate_eq ht
  rw [Frame.materialize, hdata]
  exact unlessMissing_bind fun hmissing => (hafter hmissing).materialize_eq request

end Evaluate
end SelectionPlan
