import SelectionPlan.Schedule.Order
import SelectionPlan.Proofs.Graph.Lineage

/-!
# Complete construction orders

The actions that wait after some have been placed are determined by what has been placed.  In a
chained graph the oldest of them is ready, so every action is placed after its dependencies.
-/

namespace SelectionPlan

/-- An order of actions, each new and with all dependencies placed when its turn comes. -/
def ReadyOrder (actions : List Action) : (placed : List Nat) → List Nat → Prop
  | _, [] => True
  | placed, id :: rest => id ∉ placed ∧
      (∃ a, actions[id]? = some a ∧ a.dependencies ⊆ placed) ∧
      ReadyOrder actions (placed ++ [id]) rest

section Place

variable {actions : List Action} {placed : List Nat}

def Action.awaiting (placed : List Nat) (a : Action) : Waiting :=
  ⟨a, a.dependencies.filter fun d => decide (d ∉ placed)⟩

def waitingAfter (actions : List Action) (placed : List Nat) : List Waiting :=
  (actions.filter fun a => decide (a.id ∉ placed)).map (Action.awaiting placed)

theorem Action.isReady_awaiting {a : Action} :
    (a.awaiting placed).isReady = true ↔ a.dependencies ⊆ placed := by
  simp [Waiting.isReady, Action.awaiting, List.filter_eq_nil_iff, List.subset_def]

theorem waitingAfter_nil : waitingAfter actions [] = actions.map fun a => ⟨a, a.dependencies⟩ := by
  simp [waitingAfter, Action.awaiting]

theorem waitingAfter_place (id : Nat) :
    ((waitingAfter actions placed).filter fun w => w.action.id != id).map (Waiting.place id) =
      waitingAfter actions (placed ++ [id]) := by
  have hplace (a : Action) :
      (a.awaiting placed).place id = a.awaiting (placed ++ [id]) := by
    simp only [Waiting.place, Action.awaiting, List.filter_filter, List.mem_append,
      List.mem_singleton, not_or, Waiting.mk.injEq, true_and]
    refine List.filter_congr fun d _ => ?_
    by_cases hd : d = id <;> simp [hd]
  simp only [waitingAfter, List.filter_map, List.map_map, List.filter_filter]
  have hfun : Waiting.place id ∘ Action.awaiting placed = Action.awaiting (placed ++ [id]) :=
    funext hplace
  rw [hfun]
  refine congrArg _ (List.filter_congr fun a _ => ?_)
  by_cases ha : a.id = id <;> simp [Action.awaiting, ha]

theorem length_waitingAfter_place {a : Action} (ha : a ∈ actions) (hid : a.id ∉ placed) :
    (waitingAfter actions (placed ++ [a.id])).length < (waitingAfter actions placed).length := by
  rw [← waitingAfter_place, List.length_map, List.length_filter_lt_length_iff_exists]
  refine ⟨a.awaiting placed, ?_, by simp [Action.awaiting]⟩
  exact List.mem_map.mpr ⟨a, List.mem_filter.mpr ⟨ha, by simpa using hid⟩, rfl⟩

end Place

namespace Waiting

private theorem foldl_next_mem {actions : List Action} {best : Option Action} {a : Action}
    (h : actions.foldl (fun best a =>
      match best with
      | none => some a
      | some b => if a.precedes b then some a else some b) best = some a) :
    a ∈ actions ∨ best = some a := by
  induction actions generalizing best with
  | nil => exact .inr h
  | cons b actions ih =>
      rcases ih h with hmem | hbest
      · exact .inl (List.mem_cons_of_mem b hmem)
      · cases best with
        | none => simp_all
        | some c =>
            simp only at hbest
            split at hbest <;> simp_all

private theorem foldl_next_isSome {actions : List Action} {best : Option Action}
    (h : actions ≠ [] ∨ best.isSome) : (actions.foldl (fun best a =>
      match best with
      | none => some a
      | some b => if a.precedes b then some a else some b) best).isSome := by
  induction actions generalizing best with
  | nil => simpa using h
  | cons b actions ih =>
      refine ih (.inr ?_)
      cases best with
      | none => rfl
      | some c =>
          simp only
          split <;> rfl

theorem next?_eq_some {waiting : List Waiting} {a : Action} (h : next? waiting = some a) :
    ∃ w ∈ waiting, w.isReady = true ∧ w.action = a := by
  have hmem := (foldl_next_mem h).resolve_right (by simp)
  obtain ⟨w, hw, rfl⟩ := List.mem_map.mp hmem
  rw [List.mem_filter] at hw
  exact ⟨w, hw.1, hw.2, rfl⟩

theorem exists_next {waiting : List Waiting} {w : Waiting} (hw : w ∈ waiting)
    (hready : w.isReady = true) : ∃ a, next? waiting = some a := by
  refine Option.isSome_iff_exists.mp (foldl_next_isSome (.inl ?_))
  have hmem : w.action ∈ (waiting.filter isReady).map action :=
    List.mem_map_of_mem (List.mem_filter.mpr ⟨hw, hready⟩)
  exact List.ne_nil_of_mem hmem

end Waiting

namespace Chained

variable {actions : List Action} (h : Chained actions)
include h

theorem dependency_lt {id : Nat} {a : Action} (ha : actions[id]? = some a) {j : Nat}
    (hj : j ∈ a.dependencies) : ∃ b, actions[j]? = some b ∧ b.id = j ∧ j < id ∧
      lineage actions j <:+ a.input.elim [] (lineage actions) := by
  obtain ⟨input, hinput, hmem⟩ := h.dependency id a j ha hj
  have hlt := h.input_lt id a input ha hinput
  have hb := List.getElem?_eq_getElem (h.input_mem id a input ha hinput).1
  obtain ⟨b, hline, rfl⟩ := mem_lineageIds.mp hmem
  obtain ⟨hget, hle, hsuffix⟩ := h.lineage_suffix hb hline
  exact ⟨b, hget, rfl, Nat.lt_of_le_of_lt hle hlt, by rwa [hinput]⟩

theorem lineageIds_dependency {id : Nat} {a : Action} (ha : actions[id]? = some a) {j : Nat}
    (hj : j ∈ a.dependencies) : lineageIds actions j ⊆ lineageIds actions id := by
  obtain ⟨b, -, -, -, hsuffix⟩ := h.dependency_lt ha hj
  have hself : lineage actions j <:+ lineage actions id := by
    rw [h.lineage_eq ha]
    exact hsuffix.trans (List.suffix_cons _ _)
  intro i hi
  obtain ⟨c, hc, rfl⟩ := mem_lineageIds.mp hi
  exact mem_lineageIds.mpr ⟨c, hself.subset hc, rfl⟩

theorem not_mem_lineageIds_dependency {id : Nat} {a : Action} (ha : actions[id]? = some a) {j : Nat}
    (hj : j ∈ a.dependencies) : id ∉ lineageIds actions j := by
  obtain ⟨b, hb, -, hlt, -⟩ := h.dependency_lt ha hj
  intro hmem
  obtain ⟨c, hc, rfl⟩ := mem_lineageIds.mp hmem
  exact absurd (h.lineage_suffix hb hc).2.1 (Nat.not_le_of_lt hlt)

private theorem exists_ready {placed : List Nat} {a : Action} (ha : a ∈ actions)
    (hid : a.id ∉ placed) : ∃ w ∈ waitingAfter actions placed, w.isReady = true := by
  obtain ⟨i, hi⟩ := List.getElem?_of_mem ha
  rw [h.id_eq i a hi] at hid
  induction i using Nat.strongRecOn generalizing a with
  | _ i ih =>
      by_cases hdeps : a.dependencies ⊆ placed
      · refine ⟨a.awaiting placed, List.mem_map_of_mem (List.mem_filter.mpr ⟨ha, ?_⟩),
          Action.isReady_awaiting.mpr hdeps⟩
        simpa [h.id_eq i a hi] using hid
      · simp only [List.subset_def, not_forall] at hdeps
        obtain ⟨j, hj, hnot⟩ := hdeps
        obtain ⟨b, hb, -, hlt, -⟩ := h.dependency_lt hi hj
        exact ih j hlt (List.mem_of_getElem? hb) hnot hb

private theorem placeReady_spec (bound : Nat) (placed : List Nat)
    (hbound : (waitingAfter actions placed).length ≤ bound) :
    ∃ order, placeReady bound (waitingAfter actions placed) = (order, []) ∧
      ReadyOrder actions placed order ∧ ∀ a ∈ actions, a.id ∈ placed ∨ a.id ∈ order := by
  induction bound generalizing placed with
  | zero =>
      have hempty := List.length_eq_zero_iff.mp (Nat.le_zero.mp hbound)
      refine ⟨[], by rw [hempty, placeReady], trivial, fun a ha => .inl ?_⟩
      simp only [waitingAfter, List.map_eq_nil_iff, List.filter_eq_nil_iff] at hempty
      simpa using hempty a ha
  | succ bound ih =>
      cases hnext : Waiting.next? (waitingAfter actions placed) with
      | none =>
          have hall : ∀ a ∈ actions, a.id ∈ placed := by
            intro a ha
            by_contra hid
            obtain ⟨w, hw, hready⟩ := h.exists_ready ha hid
            obtain ⟨b, hb⟩ := Waiting.exists_next hw hready
            rw [hnext] at hb
            cases hb
          have hempty : waitingAfter actions placed = [] := by
            simp only [waitingAfter, List.map_eq_nil_iff, List.filter_eq_nil_iff]
            intro a ha
            simpa using hall a ha
          refine ⟨[], ?_, trivial, fun a ha => .inl (hall a ha)⟩
          rw [placeReady]
          simp only [hnext]
          rw [hempty]
      | some a =>
          obtain ⟨w, hw, hready, haction⟩ := Waiting.next?_eq_some hnext
          obtain ⟨b, hb, rfl⟩ := List.mem_map.mp hw
          have hsame : b = a := haction
          subst hsame
          obtain ⟨hmem, hid⟩ := List.mem_filter.mp hb
          have hid : b.id ∉ placed := by simpa using hid
          have hlt := length_waitingAfter_place hmem hid
          obtain ⟨order, hplaced, horder, hall⟩ := ih (placed ++ [b.id]) (by omega)
          obtain ⟨i, hi⟩ := List.getElem?_of_mem hmem
          have hget : actions[b.id]? = some b := by rw [h.id_eq i b hi, hi]
          refine ⟨b.id :: order, ?_, ⟨hid, ⟨b, hget, Action.isReady_awaiting.mp hready⟩, horder⟩,
            fun a ha => ?_⟩
          · rw [placeReady]
            simp only [hnext, waitingAfter_place, hplaced]
          · have hcases := hall a ha
            simp only [List.mem_append, List.mem_singleton] at hcases
            simp only [List.mem_cons]
            tauto

/-- Every action of a chained graph is constructed, after everything that it depends on. -/
theorem constructionOrder_ready : ∃ order, constructionOrder actions = .ok order ∧
    ReadyOrder actions [] order ∧ ∀ a ∈ actions, a.id ∈ order := by
  have hlen : (waitingAfter actions []).length ≤ actions.length := by
    simp [waitingAfter_nil]
  obtain ⟨order, hplaced, hready, hall⟩ := h.placeReady_spec actions.length [] hlen
  refine ⟨order, ?_, hready, fun a ha => (hall a ha).resolve_left (by simp)⟩
  rw [constructionOrder]
  simp only [← waitingAfter_nil, hplaced]

end Chained
end SelectionPlan
