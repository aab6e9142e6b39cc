import SelectionPlan.Proofs.Graph.Unique
import SelectionPlan.Proofs.Schedule.Built

/-!
# The shape of a graph

A graph that planning builds starts with its source.  All that an action depends on lies on the one
chain of inputs that leads from it back to the source.
-/

namespace SelectionPlan

inductive InputChain (actions : List Action) : ActionId → List ActionId → Prop
  | start {id : ActionId} {a : Action} : actions[id]? = some a → a.input = none →
      InputChain actions id [id]
  | step {id input : ActionId} {a : Action} {ids : List ActionId} : actions[id]? = some a →
      a.input = some input → InputChain actions input ids → InputChain actions id (id :: ids)

/-- A graph in which actions depend on their own chains of inputs, down to the source. -/
structure ActionGraph.Linear (g : ActionGraph) : Prop where
  /-- Actions are numbered by position. -/
  id_eq : ∀ (i : ActionId) (a : Action), g.actions[i]? = some a → a.id = i
  exists_source : ∃ a, g.actions[0]? = some a ∧ a.operation = .source
  source_iff : ∀ a ∈ g.actions, a.operation = .source ↔ a.id = 0
  input_none_iff : ∀ a ∈ g.actions, a.input = none ↔ a.id = 0
  dependency_lt : ∀ a ∈ g.actions, ∀ j ∈ a.dependencies, j < a.id
  /-- What an action needs is its chain of inputs, which ends at the source, and it depends on
  actions of that chain only. -/
  chain : ∀ a ∈ g.actions, ∃ ids, InputChain g.actions a.id ids ∧ ids.getLast? = some 0 ∧
    closure g.actions a.id = ids.reverse ∧ a.dependencies ⊆ ids
  /-- Every input is the source, a filter or a definition. -/
  input_kind : ∀ a ∈ g.actions, ∀ j, a.input = some j →
    ∃ b, g.actions[j]? = some b ∧ b.kind ≠ .output

theorem Action.kind_ne_output {a : Action} (h : a.task.isSome) : a.kind ≠ .output := by
  cases hop : a.operation <;> simp_all [task, kind, Operation.kind]

theorem Linked.inputChain {actions : List Action} (h : Linked actions) {id : Nat} {a : Action}
    (ha : actions[id]? = some a) : InputChain actions id ((lineage actions id).map Action.id) := by
  induction id, a, ha using h.induction with
  | start id a ha hi =>
      simp only [h.lineage_eq ha, hi, Option.elim_none, List.map_cons, List.map_nil,
        h.id_eq id a ha]
      exact .start ha hi
  | step id a input b ha hi hb ih =>
      simp only [h.lineage_eq ha, hi, Option.elim_some, List.map_cons, h.id_eq id a ha]
      exact .step ha hi ih

theorem InputChain.getLast? {actions : List Action} {id : Nat} {ids : List Nat}
    (h : InputChain actions id ids) :
    ∃ last a, ids.getLast? = some last ∧ actions[last]? = some a ∧ a.input = none := by
  induction h with
  | @start id a ha hi => exact ⟨id, a, rfl, ha, hi⟩
  | @step id input a ids _ _ hchain ih =>
      obtain ⟨last, b, hlast, hb⟩ := ih
      refine ⟨last, b, ?_, hb⟩
      rw [List.getLast?_cons, hlast]
      rfl

namespace ActionGraph.Built

variable {t : SelectionTree} {p : Planner} {accepted : List AcceptedRegion} {d : Draft}
  {g : ActionGraph} (h : Built t p accepted d g) (hd : d.Planned p accepted)
include h

theorem operation_eq_source_iff {a : Action} (ha : a ∈ d.actions) :
    a.operation = .source ↔ a.input = none := by
  cases h.sound.made a ha with
  | source => exact ⟨fun _ => rfl, fun _ => rfl⟩
  | _ =>
      constructor
      · intro hop
        cases hop
      · intro hinput
        cases hinput

include hd

theorem exists_first : ∃ a, d.actions[0]? = some a := by
  -- The place of the root has a selection in the ledger.
  obtain ⟨root, hroot, hext⟩ := h.lawful.root
  obtain ⟨sums, -, hconsumers⟩ := hd.consumers
  have hmem : root ∈ p.index.places := List.mem_of_find?_eq_some hroot
  have hparent : root.parent = none := by
    rw [h.lawful.parent_eq hroot, h.lawful.wellFormed.parent_root]
  have hselection :
      Consumer.selection root.node .nominal ∈ d.actions.filterMap Action.consumer? := by
    rw [hconsumers, List.append_assoc, List.mem_append]
    refine .inl (List.mem_flatMap.mpr ⟨root, hmem, ?_⟩)
    simp [Planner.selectionsAt, hparent]
  obtain ⟨a, ha, -⟩ := List.mem_filterMap.mp hselection
  exact ⟨_, List.getElem?_eq_getElem (List.length_pos_of_mem ha)⟩

theorem linear : g.Linear := by
  have hinput {a : Action} (ha : a ∈ g.actions) : a.input = none ↔ a.id = 0 := by
    obtain ⟨-, b, hb, rfl⟩ := h.of_mem ha
    exact h.input_eq_none_iff hd (a := b) (List.mem_of_getElem? hb)
  have hsource {a : Action} (ha : a ∈ g.actions) : a.operation = .source ↔ a.id = 0 := by
    rw [← hinput ha]
    obtain ⟨-, b, hb, rfl⟩ := h.of_mem ha
    exact h.operation_eq_source_iff (a := b) (List.mem_of_getElem? hb)
  have hchained := h.chained
  constructor
  case id_eq => exact hchained.id_eq
  case exists_source =>
    obtain ⟨b, hb⟩ := h.exists_first hd
    have hget := h.getElem?_actions 0
    rw [hb, Option.map_some] at hget
    exact ⟨_, hget, (hsource (List.mem_of_getElem? hget)).mpr (hchained.id_eq 0 _ hget)⟩
  case source_iff => exact fun a ha => hsource ha
  case input_none_iff => exact fun a ha => hinput ha
  case dependency_lt =>
    intro a ha j hj
    obtain ⟨-, -, -, hlt, -⟩ := hchained.dependency_lt (h.of_mem ha).1 hj
    exact hlt
  case chain =>
    intro a ha
    have hget := (h.of_mem ha).1
    have hids := hchained.toLinked.inputChain hget
    obtain ⟨last, b, hlast, hb, hnone⟩ := hids.getLast?
    have hzero := (hinput (List.mem_of_getElem? hb)).mp hnone
    rw [hchained.id_eq last b hb] at hzero
    refine ⟨_, hids, hzero ▸ hlast, hchained.closure_eq hget, fun j hj => ?_⟩
    obtain ⟨input, hi, hmem⟩ := hchained.dependency _ a j hget hj
    obtain ⟨c, hc, rfl⟩ := mem_lineageIds.mp hmem
    exact List.mem_map_of_mem (hchained.toLinked.mem_lineage_of_input hget hi hc)
  case input_kind =>
    intro a ha j hj
    obtain ⟨b, hb, htask⟩ := h.wired.input_frame _ a j (h.of_mem ha).1 hj
    exact ⟨b, hb, Action.kind_ne_output htask⟩

end ActionGraph.Built
end SelectionPlan
