import SelectionPlan.Proofs.Graph.Search
import SelectionPlan.Proofs.Graph.Lineage
import SelectionPlan.Proofs.Scope.Place
import SelectionPlan.Proofs.Scope.Reads
import Mathlib.Data.List.Nodup

/-!
# Tasks of a lineage

A frame selects the events of a node or adds a column.  The tasks along the lineage of a selection
can be told from the tree alone: on the way down every filter is preceded by the columns it reads
that are not there yet.
-/

namespace SelectionPlan

inductive Task
  | select (node : Nat) (s : Systematic)
  | define (column : ColumnRef) (s : Systematic)
  deriving DecidableEq, Repr

namespace Action

def task (a : Action) : Option Task :=
  match a.operation with
  | .source | .filter _ => some (.select a.node a.systematic)
  | .define slot .. => some (.define ⟨a.node, slot⟩ a.systematic)
  | .output .. | .statistics .. => none

theorem selects_iff {a : Action} {node : Nat} {s : Systematic} :
    a.selects node s = true ↔ a.task = some (.select node s) := by
  obtain ⟨id, n, path, systematic, input, dependencies, cost, operation, consumers⟩ := a
  cases operation <;> simp [selects, kind, Operation.kind, task]

theorem computes_iff {a : Action} {column : ColumnRef} {s : Systematic} :
    a.computes column s = true ↔ a.task = some (.define column s) := by
  obtain ⟨id, n, path, systematic, input, dependencies, cost, operation, consumers⟩ := a
  obtain ⟨node, slot⟩ := column
  cases operation <;> simp [computes, task, and_assoc]

end Action

def tasks (actions : List Action) (id : Nat) : List Task :=
  (lineage actions id).filterMap Action.task

theorem mem_tasks {actions : List Action} {id : Nat} {t : Task} :
    t ∈ tasks actions id ↔ ∃ a ∈ lineage actions id, a.task = some t := by
  simp [tasks]

theorem Linked.tasks_eq {actions : List Action} (h : Linked actions) {id : Nat} {a : Action}
    (ha : actions[id]? = some a) :
    tasks actions id = a.task.toList ++ a.input.elim [] (tasks actions) := by
  simp only [tasks, h.lineage_eq ha, List.filterMap_cons]
  cases a.task <;> cases a.input <;> rfl

def Operation.defined? : Operation → Option String
  | define _ column _ _ => some column
  | _ => none

def definedColumns (actions : List Action) : List String :=
  actions.filterMap fun a => a.operation.defined?

def producerIn (line : List Action) (column : ColumnRef) (s : Systematic) : Option ActionId :=
  (line.find? fun a => a.computes column s).map Action.id

theorem producerIn_eq_some {line : List Action} {column : ColumnRef} {s : Systematic}
    {id : Nat} (h : producerIn line column s = some id) :
    ∃ a ∈ line, a.id = id ∧ a.task = some (.define column s) := by
  obtain ⟨a, ha, rfl⟩ := Option.map_eq_some_iff.mp h
  have hcomputes := List.find?_some ha
  exact ⟨a, List.mem_of_find?_eq_some ha, rfl, Action.computes_iff.mp hcomputes⟩

theorem producerIn_isSome {line : List Action} {column : ColumnRef} {s : Systematic} :
    (producerIn line column s).isSome ↔ .define column s ∈ line.filterMap Action.task := by
  simp [producerIn, Action.computes_iff]

namespace Draft

theorem producer?_eq (d : Draft) (tip : ActionId) (column : ColumnRef) (s : Systematic) :
    d.producer? tip column s = producerIn (lineage d.actions tip) column s := rfl

theorem selection?_eq_some {d : Draft} {node : Nat} {s : Systematic} {id : Nat}
    (h : d.selection? node s = some id) :
    ∃ a, d.actions[id]? = some a ∧ a.task = some (.select node s) := by
  obtain ⟨hlt, hsel, -⟩ := List.findIdx?_eq_some_iff_getElem.mp h
  exact ⟨d.actions[id], List.getElem?_eq_getElem hlt, Action.selects_iff.mp hsel⟩

theorem exists_selection? {d : Draft} {node : Nat} {s : Systematic} {a : Action}
    (ha : a ∈ d.actions) (htask : a.task = some (.select node s)) :
    ∃ id, d.selection? node s = some id := by
  rw [← Option.isSome_iff_exists, selection?, List.findIdx?_isSome, List.any_eq_true]
  exact ⟨a, ha, Action.selects_iff.mpr htask⟩

end Draft

/-- The tasks of a frame once the columns in `needs` are added for `s`, those that are there
already left out. -/
def extended (s : Systematic) (done : List Task) (needs : List (Column × Scope)) : List Task :=
  needs.foldl (fun done need => done.insert (.define need.1.ref (need.1.effective s))) done

section Extended

variable {s : Systematic} {done : List Task} {needs : List (Column × Scope)} {t : Task}

theorem extended_append (more : List (Column × Scope)) :
    extended s done (needs ++ more) = extended s (extended s done needs) more :=
  List.foldl_append

theorem mem_extended : t ∈ extended s done needs ↔
    t ∈ done ∨ ∃ need ∈ needs, t = .define need.1.ref (need.1.effective s) := by
  induction needs generalizing done with
  | nil => simp [extended]
  | cons need rest ih =>
      simp only [extended, List.foldl_cons] at ih ⊢
      simp only [ih, List.mem_insert_iff, List.exists_mem_cons_iff]
      tauto

theorem nodup_extended (h : done.Nodup) : (extended s done needs).Nodup := by
  induction needs generalizing done with
  | nil => exact h
  | cons need rest ih => exact ih (List.Nodup.insert h)

theorem extended_congr {s' : Systematic}
    (h : ∀ need ∈ needs, need.1.effective s = need.1.effective s') :
    extended s done needs = extended s' done needs := by
  induction needs generalizing done with
  | nil => rfl
  | cons need rest ih =>
      simp only [extended, List.foldl_cons] at ih ⊢
      rw [h need (by simp), ih fun n hn => h n (List.mem_cons_of_mem _ hn)]

end Extended

namespace Place

def filterInputs (p : Place) (s : Systematic) : List String :=
  (p.filter.map fun v => (v.spec (p.chainUnder s)).inputs).getD []

def filterNeeds (p : Place) (s : Systematic) : List (Column × Scope) :=
  p.scope.needs (p.chainUnder s) (p.filterInputs s)

theorem filterNeeds_congr {p : Place} {s s' : Systematic} (h : p.chainUnder s = p.chainUnder s') :
    p.filterNeeds s = p.filterNeeds s' := by
  simp only [filterNeeds, filterInputs, h]

end Place

/-- The tasks of the selection of a node under `s`, where the places lead from the node up to the
root. -/
def selectionTasks (s : Systematic) : List Place → List Task
  | [] => []
  | p :: above =>
    .select p.node (p.chainUnder s) ::
      extended (p.chainUnder s) (selectionTasks s above) (p.filterNeeds s)

section SelectionTasks

variable {s s' : Systematic} {places : List Place}

theorem selectionTasks_congr (h : ∀ p ∈ places, p.chainUnder s = p.chainUnder s') :
    selectionTasks s places = selectionTasks s' places := by
  induction places with
  | nil => rfl
  | cons p above ih =>
      have hp := h p (by simp)
      simp only [selectionTasks, hp, Place.filterNeeds_congr hp,
        ih fun q hq => h q (List.mem_cons_of_mem _ hq)]

theorem mem_selectionTasks_define {c : ColumnRef} {e : Systematic} :
    .define c e ∈ selectionTasks s places ↔ ∃ p ∈ places, ∃ need ∈ p.filterNeeds s,
      c = need.1.ref ∧ e = need.1.effective (p.chainUnder s) := by
  induction places with
  | nil => simp [selectionTasks]
  | cons p above ih =>
      rw [List.exists_mem_cons_iff, ← ih]
      simp only [selectionTasks, List.mem_cons, reduceCtorEq, false_or, mem_extended,
        Task.define.injEq]
      exact or_comm

theorem mem_selectionTasks_select {node : Nat} {e : Systematic} :
    .select node e ∈ selectionTasks s places ↔
      ∃ p ∈ places, p.node = node ∧ p.chainUnder s = e := by
  induction places with
  | nil => simp [selectionTasks]
  | cons p above ih =>
      rw [List.exists_mem_cons_iff, ← ih]
      simp only [selectionTasks, List.mem_cons, mem_extended, reduceCtorEq, and_false, exists_false,
        or_false, Task.select.injEq, eq_comm]

theorem nodup_selectionTasks (h : (places.map Place.node).Nodup) :
    (selectionTasks s places).Nodup := by
  induction places with
  | nil => exact List.nodup_nil
  | cons p above ih =>
      rw [List.map_cons, List.nodup_cons] at h
      refine List.nodup_cons.mpr ⟨?_, nodup_extended (ih h.2)⟩
      rw [mem_extended, mem_selectionTasks_select]
      rintro (⟨q, hq, hnode, -⟩ | ⟨need, -, heq⟩)
      · exact h.1 (hnode ▸ List.mem_map_of_mem hq)
      · cases heq

end SelectionTasks

namespace ScopeIndex

def trail (index : ScopeIndex) (node : Nat) : List Place :=
  (index.tree.path node).reverse.filterMap index.place?

namespace Lawful

variable {t : SelectionTree} {index : ScopeIndex} (h : Lawful t index)
include h

theorem trail_root {p : Place} (hp : index.place? 0 = some p) : index.trail 0 = [p] := by
  simp [trail, h.tree_eq, SelectionTree.path_root, hp]

theorem trail_child {i parent : Nat} {p : Place} (hparent : t.parent? i = some parent)
    (hp : index.place? i = some p) : index.trail i = p :: index.trail parent := by
  simp [trail, h.tree_eq, h.wellFormed.path_child hparent, hp]

theorem mem_trail {i : Nat} {q : Place} :
    q ∈ index.trail i ↔ ∃ j ∈ t.path i, index.place? j = some q := by
  simp [trail, h.tree_eq]

theorem trail_eq {i : Nat} {p : Place} (hp : index.place? i = some p) :
    index.trail i = p :: p.parent.elim [] index.trail := by
  rw [h.parent_eq hp]
  cases hparent : t.parent? i with
  | some parent => rw [h.trail_child hparent hp, Option.elim_some]
  | none =>
      rcases Nat.eq_zero_or_pos i with rfl | hpos
      · rw [h.trail_root hp, Option.elim_none]
      · obtain ⟨parent, hsome⟩ := h.wellFormed.exists_parent hpos (h.place_lt hp).2
        rw [hparent] at hsome
        cases hsome

/-- A place above another one sees less, and a selection forks from the nominal one no earlier
below than there. -/
theorem above {i : Nat} {p q : Place} (hp : index.place? i = some p) (hq : q ∈ index.trail i) :
    q.scope <:+ p.scope ∧ q.chain ⊆ p.chain := by
  induction i, (h.place_lt hp).2 using h.wellFormed.induction generalizing p with
  | root =>
      rw [h.trail_root hp, List.mem_singleton] at hq
      subst hq
      exact ⟨List.suffix_refl _, List.Subset.refl _⟩
  | child i parent hparent ih =>
      rw [h.trail_child hparent hp, List.mem_cons] at hq
      rcases hq with rfl | hq
      · exact ⟨List.suffix_refl _, List.Subset.refl _⟩
      · obtain ⟨p', above, hp', habove, hext⟩ := h.child i parent hparent
        rw [hp, Option.some.injEq] at hp'
        subst hp'
        obtain ⟨hscope, hchain⟩ := ih habove hq
        exact ⟨hscope.trans hext.suffix, fun x hx => (hext.mem_chain x).mpr (.inl (hchain hx))⟩

theorem nodup_trail {i : Nat} (hi : i < t.size) : ((index.trail i).map Place.node).Nodup := by
  rw [trail, h.tree_eq, List.map_filterMap]
  refine (List.nodup_reverse.mpr (h.wellFormed.nodup_path hi)).filterMap fun j k node hj hk => ?_
  obtain ⟨p, hp, rfl⟩ := Option.map_eq_some_iff.mp hj
  obtain ⟨q, hq, hnode⟩ := Option.map_eq_some_iff.mp hk
  rw [← (h.place_lt hp).1, ← (h.place_lt hq).1, hnode]

theorem nodup_selectionTasks {i : Nat} (hi : i < t.size) (s : Systematic) :
    (selectionTasks s (index.trail i)).Nodup :=
  SelectionPlan.nodup_selectionTasks (h.nodup_trail hi)

/-- The selection of a node depends on the systematic in effect at the node only. -/
theorem selectionTasks_chainUnder {i : Nat} {p : Place} (hp : index.place? i = some p)
    (s : Systematic) :
    selectionTasks (p.chainUnder s) (index.trail i) = selectionTasks s (index.trail i) :=
  selectionTasks_congr fun _ hq => Place.chainUnder_chainUnder (h.above hp hq).2 s

end Lawful

end ScopeIndex

section Visible

variable {index : ScopeIndex} {scope : Scope}

structure Visible (index : ScopeIndex) (scope : Scope) (tasks : List Task) : Prop where
  column : ∀ c s, .define c s ∈ tasks → ∃ column older, column.ref = c ∧ column :: older <:+ scope
  filter : ∀ node s, .select node s ∈ tasks →
    ∃ q, index.place? node = some q ∧ q.scope <:+ scope

theorem Visible.suffix {tasks tasks' : List Task}
    (h : Visible index scope tasks) (hsub : tasks' <:+ tasks) : Visible index scope tasks' :=
  ⟨fun c s hc => h.column c s (hsub.subset hc), fun node s hn => h.filter node s (hsub.subset hn)⟩

theorem visible_extended {e : Systematic} {wanted : List String} {done : List Task}
    (h : Visible index scope done) :
    Visible index scope (extended e done (scope.needs e wanted)) := by
  constructor
  · intro c e' hmem
    rcases mem_extended.mp hmem with hmem | ⟨need, hneed, heq⟩
    · exact h.column c e' hmem
    · cases heq
      exact ⟨need.1, need.2, rfl, (Scope.mem_needs.mp hneed).1.suffix⟩
  · intro node e' hmem
    rcases mem_extended.mp hmem with hmem | ⟨need, -, heq⟩
    · exact h.filter node e' hmem
    · cases heq

theorem visible_selectionTasks {t : SelectionTree} (hlaw : ScopeIndex.Lawful t index) {i : Nat}
    {place : Place} (hp : index.place? i = some place) (s : Systematic) :
    Visible index place.scope (selectionTasks s (index.trail i)) := by
  constructor
  · intro c e hmem
    obtain ⟨q, hq, need, hneed, rfl, -⟩ := mem_selectionTasks_define.mp hmem
    have hsuffix := (Scope.mem_needs.mp hneed).1.suffix
    exact ⟨need.1, need.2, rfl, hsuffix.trans (hlaw.above hp hq).1⟩
  · intro node e hmem
    obtain ⟨q, hq, rfl, -⟩ := mem_selectionTasks_select.mp hmem
    obtain ⟨m, -, hplace⟩ := hlaw.mem_trail.mp hq
    exact ⟨q, by rwa [(hlaw.place_lt hplace).1], (hlaw.above hp hq).1⟩

end Visible

end SelectionPlan
