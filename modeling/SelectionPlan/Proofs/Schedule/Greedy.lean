import SelectionPlan.Proofs.Schedule.Order
import Mathlib.Data.Fintype.Order
import Mathlib.Data.Prod.Lex
import Mathlib.Data.Set.Card
import Mathlib.Logic.Relation
import Mathlib.Order.WellFounded

/-!
# Construction orders of arbitrary graphs

The dependencies of actions may form cycles and may name actions that do not exist.  What depends on
these is never constructed, and everything else is: each time the least of the actions that are
ready.
-/

namespace SelectionPlan

/-! ### Ready actions -/

/-- Ready actions are constructed by ascending key: filters first, then by cost, then by age. -/
def Action.readyKey (a : Action) : ℕ ×ₗ ℤ ×ₗ ℕ :=
  toLex (a.kind.rank, toLex (totalRank a.cost, a.id))

theorem Action.precedes_iff {a b : Action} : a.precedes b = true ↔ a.readyKey < b.readyKey := by
  simp only [precedes, readyKey, Prod.Lex.toLex_lt_toLex, Bool.or_eq_true, Bool.and_eq_true,
    decide_eq_true_eq, beq_iff_eq]

structure ReadyAfter (actions : List Action) (placed : List Nat) (a : Action) : Prop where
  mem : a ∈ actions
  waits : a.id ∉ placed
  dependencies : a.dependencies ⊆ placed

structure NextAfter (actions : List Action) (placed : List Nat) (a : Action) : Prop where
  ready : ReadyAfter actions placed a
  least : ∀ b, ReadyAfter actions placed b → a.readyKey ≤ b.readyKey

section Next

variable {actions : List Action} {placed : List Nat} {a b : Action}

theorem mem_waitingAfter {w : Waiting} : w ∈ waitingAfter actions placed ↔
    ∃ a ∈ actions, a.id ∉ placed ∧ a.awaiting placed = w := by
  simp [waitingAfter, and_assoc]

theorem readyAfter_iff : ReadyAfter actions placed a ↔
    ∃ w ∈ waitingAfter actions placed, w.isReady = true ∧ w.action = a := by
  constructor
  · intro h
    have hw : a.awaiting placed ∈ waitingAfter actions placed :=
      mem_waitingAfter.mpr ⟨a, h.mem, h.waits, rfl⟩
    exact ⟨_, hw, Action.isReady_awaiting.mpr h.dependencies, rfl⟩
  · rintro ⟨w, hw, hready, rfl⟩
    obtain ⟨a, hmem, hwaits, rfl⟩ := mem_waitingAfter.mp hw
    exact ⟨hmem, hwaits, Action.isReady_awaiting.mp hready⟩

private theorem foldl_next_least {best : Option Action}
    (h : actions.foldl (fun best a =>
      match best with
      | none => some a
      | some b => if a.precedes b then some a else some b) best = some a) :
    (∀ b ∈ best, a.readyKey ≤ b.readyKey) ∧ ∀ b ∈ actions, a.readyKey ≤ b.readyKey := by
  induction actions generalizing best with
  | nil =>
      have hbest : best = some a := h
      simp [hbest]
  | cons b actions ih =>
      obtain ⟨hbest, hothers⟩ := ih h
      cases best with
      | none =>
          have hb := hbest b rfl
          exact ⟨by simp, List.forall_mem_cons.mpr ⟨hb, hothers⟩⟩
      | some c =>
          by_cases hprecedes : b.precedes c = true
          · have hb := hbest b (by simp [hprecedes])
            have hc := hb.trans (Action.precedes_iff.mp hprecedes).le
            exact ⟨by simpa using hc, List.forall_mem_cons.mpr ⟨hb, hothers⟩⟩
          · have hc := hbest c (by simp [hprecedes])
            have hb := hc.trans (not_lt.mp fun hlt => hprecedes (Action.precedes_iff.mpr hlt))
            exact ⟨by simpa using hc, List.forall_mem_cons.mpr ⟨hb, hothers⟩⟩

theorem nextAfter_of_next? (h : Waiting.next? (waitingAfter actions placed) = some a) :
    NextAfter actions placed a := by
  refine ⟨readyAfter_iff.mpr (Waiting.next?_eq_some h), fun b hb => (foldl_next_least h).2 b ?_⟩
  obtain ⟨w, hw, hready, rfl⟩ := readyAfter_iff.mp hb
  exact List.mem_map_of_mem (List.mem_filter.mpr ⟨hw, hready⟩)

theorem not_readyAfter_of_next? (h : Waiting.next? (waitingAfter actions placed) = none) :
    ¬ ReadyAfter actions placed a := by
  intro hready
  obtain ⟨w, hw, hready, -⟩ := readyAfter_iff.mp hready
  obtain ⟨b, hb⟩ := Waiting.exists_next hw hready
  rw [h] at hb
  cases hb

theorem NextAfter.id_eq (ha : NextAfter actions placed a) (hb : NextAfter actions placed b) :
    a.id = b.id := by
  have hkey := (ha.least b hb.ready).antisymm (hb.least a ha.ready)
  simp only [Action.readyKey, toLex_inj, Prod.mk.injEq] at hkey
  exact hkey.2.2

end Next

/-! ### Greedy orders -/

/-- Positions of actions each of which is the next one when its turn comes. -/
def GreedyOrder (actions : List Action) : (placed : List Nat) → List Nat → Prop
  | _, [] => True
  | placed, id :: rest =>
    (∃ a, NextAfter actions placed a ∧ a.id = id) ∧ GreedyOrder actions (placed ++ [id]) rest

section Greedy

variable {actions : List Action} {placed order : List Nat}

/-- What is placed is a greedy order, and when it ends nothing is ready. -/
theorem placeReady_greedy (bound : Nat) (placed : List Nat)
    (hbound : (waitingAfter actions placed).length ≤ bound) :
    ∃ order, placeReady bound (waitingAfter actions placed) =
        (order, waitingAfter actions (placed ++ order)) ∧
      GreedyOrder actions placed order ∧ ∀ a, ¬ ReadyAfter actions (placed ++ order) a := by
  induction bound generalizing placed with
  | zero =>
      have hempty := List.length_eq_zero_iff.mp (Nat.le_zero.mp hbound)
      refine ⟨[], by rw [placeReady, List.append_nil], trivial, fun a ha => ?_⟩
      obtain ⟨w, hw, -⟩ := readyAfter_iff.mp ha
      rw [List.append_nil, hempty] at hw
      cases hw
  | succ bound ih =>
      cases hnext : Waiting.next? (waitingAfter actions placed) with
      | none =>
          refine ⟨[], ?_, trivial, fun a ha => ?_⟩
          · rw [placeReady, hnext, List.append_nil]
          · rw [List.append_nil] at ha
            exact not_readyAfter_of_next? hnext ha
      | some a =>
          have ha := nextAfter_of_next? hnext
          have hlt := length_waitingAfter_place ha.ready.mem ha.ready.waits
          obtain ⟨order, hplaced, hgreedy, hstuck⟩ := ih (placed ++ [a.id]) (by omega)
          rw [List.append_assoc] at hplaced hstuck
          refine ⟨a.id :: order, ?_, ⟨⟨a, ha, rfl⟩, hgreedy⟩, hstuck⟩
          simp only [placeReady, hnext, waitingAfter_place, hplaced, List.singleton_append]

theorem greedyOrder_iff : GreedyOrder actions placed order ↔ ∀ before id after,
    order = before ++ id :: after → ∃ a, NextAfter actions (placed ++ before) a ∧ a.id = id := by
  induction order generalizing placed with
  | nil => simp [GreedyOrder]
  | cons id rest ih =>
      rw [GreedyOrder, ih]
      constructor
      · rintro ⟨hnext, hrest⟩ before id' after h
        cases before with
        | nil =>
            cases h
            rwa [List.append_nil]
        | cons id'' before =>
            cases h
            simpa using hrest before id' after rfl
      · intro h
        refine ⟨by simpa using h [] id rest rfl, fun before id' after hrest => ?_⟩
        simpa [hrest] using h (id :: before) id' after

theorem GreedyOrder.nodup (h : GreedyOrder actions placed order) (hplaced : placed.Nodup) :
    (placed ++ order).Nodup := by
  induction order generalizing placed with
  | nil => simpa using hplaced
  | cons id rest ih =>
      obtain ⟨⟨a, ha, rfl⟩, hrest⟩ := h
      have hnew : (placed ++ [a.id]).Nodup :=
        List.nodup_append.mpr ⟨hplaced, by simp, by
          intro i hi j hj
          rw [List.mem_singleton.mp hj]
          rintro rfl
          exact ha.ready.waits hi⟩
      simpa using ih hrest hnew

/-- There is one greedy order that leaves nothing to place. -/
theorem GreedyOrder.unique {order' : List Nat} (h : GreedyOrder actions placed order)
    (h' : GreedyOrder actions placed order') (hall : ∀ a ∈ actions, a.id ∈ placed ++ order)
    (hall' : ∀ a ∈ actions, a.id ∈ placed ++ order') : order = order' := by
  induction order generalizing placed order' with
  | nil =>
      cases order' with
      | nil => rfl
      | cons id rest =>
          obtain ⟨⟨a, ha, rfl⟩, -⟩ := h'
          exact absurd (by simpa using hall a ha.ready.mem) ha.ready.waits
  | cons id rest ih =>
      obtain ⟨⟨a, ha, rfl⟩, hrest⟩ := h
      cases order' with
      | nil => exact absurd (by simpa using hall' a ha.ready.mem) ha.ready.waits
      | cons id' rest' =>
          obtain ⟨⟨b, hb, rfl⟩, hrest'⟩ := h'
          have hid := ha.id_eq hb
          rw [hid] at hrest hall ⊢
          rw [ih hrest hrest' (by simpa using hall) (by simpa using hall')]

end Greedy

/-! ### Blocked actions -/

def DependsOn (actions : List Action) (i j : Nat) : Prop :=
  ∃ a, actions[i]? = some a ∧ j ∈ a.dependencies

/-- An action that depends, directly or not, on a cycle that it may be part of or on a position
without an action. -/
def Blocked (actions : List Action) (i : Nat) : Prop :=
  i < actions.length ∧ ∃ j, Relation.ReflTransGen (DependsOn actions) i j ∧
    (Relation.TransGen (DependsOn actions) j j ∨ actions.length ≤ j)

section Blocked

variable {actions : List Action} {placed order : List Nat} {i j : Nat}

theorem blocked_of_dependency (hi : i < actions.length) (hij : DependsOn actions i j)
    (hj : actions.length ≤ j ∨ Blocked actions j) : Blocked actions i := by
  rcases hj with hmissing | ⟨-, k, hpath, hend⟩
  · exact ⟨hi, j, .single hij, .inr hmissing⟩
  · exact ⟨hi, k, .head hij hpath, hend⟩

theorem Blocked.exists_dependency (h : Blocked actions i) :
    ∃ j, DependsOn actions i j ∧ (actions.length ≤ j ∨ Blocked actions j) := by
  obtain ⟨hi, k, hpath, hend⟩ := h
  have hstep : ∃ j, DependsOn actions i j ∧ Relation.ReflTransGen (DependsOn actions) j k := by
    rcases hpath.cases_head with rfl | hstep
    · have hcycle := hend.resolve_right (Nat.not_le_of_lt hi)
      exact Relation.TransGen.head'_iff.mp hcycle
    · exact hstep
  obtain ⟨j, hij, hpath⟩ := hstep
  refine ⟨j, hij, ?_⟩
  by_cases hj : actions.length ≤ j
  · exact .inl hj
  · exact .inr ⟨by omega, k, hpath, hend⟩

theorem GreedyOrder.not_blocked (hid : ∀ (i : Nat) (a : Action), actions[i]? = some a → a.id = i)
    (h : GreedyOrder actions placed order)
    (hplaced : ∀ i ∈ placed, i < actions.length ∧ ¬ Blocked actions i) :
    ∀ i ∈ placed ++ order, i < actions.length ∧ ¬ Blocked actions i := by
  induction order generalizing placed with
  | nil => simpa using hplaced
  | cons id rest ih =>
      obtain ⟨⟨a, ha, rfl⟩, hrest⟩ := h
      obtain ⟨i, hi⟩ := List.getElem?_of_mem ha.ready.mem
      have hget : actions[a.id]? = some a := by rw [hid i a hi, hi]
      have hlt : a.id < actions.length := (List.getElem?_eq_some_iff.mp hget).1
      have hfree : ¬ Blocked actions a.id := by
        intro hblocked
        obtain ⟨j, ⟨b, hb, hj⟩, hend⟩ := hblocked.exists_dependency
        rw [hget] at hb
        cases hb
        obtain ⟨hjlt, hjfree⟩ := hplaced j (ha.ready.dependencies hj)
        exact hend.elim (fun hle => absurd hjlt (Nat.not_lt_of_le hle)) hjfree
      have hnew : ∀ i ∈ placed ++ [a.id], i < actions.length ∧ ¬ Blocked actions i := by
        intro i hi
        rcases List.mem_append.mp hi with hi | hi
        · exact hplaced i hi
        · rw [List.mem_singleton.mp hi]
          exact ⟨hlt, hfree⟩
      simpa using ih hrest hnew

theorem wellFounded_dependency : WellFounded
    fun j i : { i // i < actions.length ∧ ¬ Blocked actions i } =>
      Relation.TransGen (DependsOn actions) i.1 j.1 := by
  have hfinite : Finite { i // i < actions.length ∧ ¬ Blocked actions i } :=
    Set.Finite.subset (Set.finite_lt_nat actions.length) fun _ hi => hi.1
  refine @Finite.wellFounded_of_trans_of_irrefl _ hfinite _ ⟨fun _ _ _ hjk hij => ?_⟩ ⟨?_⟩
  · exact hij.trans hjk
  · intro i hcycle
    exact i.2.2 ⟨i.2.1, i.1, .refl, .inl hcycle⟩

theorem blocked_of_stuck (hid : ∀ (i : Nat) (a : Action), actions[i]? = some a → a.id = i)
    (hstuck : ∀ a, ¬ ReadyAfter actions placed a) (hi : i < actions.length) (hwaits : i ∉ placed) :
    Blocked actions i := by
  have hplaced (i : { i // i < actions.length ∧ ¬ Blocked actions i }) : i.1 ∈ placed := by
    induction i using wellFounded_dependency.induction with
    | _ i ih =>
        obtain ⟨i, hi, hfree⟩ := i
        have hget := List.getElem?_eq_getElem hi
        by_contra hwaits
        refine hstuck actions[i] ⟨List.getElem_mem hi, by rwa [hid i _ hget], fun j hj => ?_⟩
        have hij : DependsOn actions i j := ⟨_, hget, hj⟩
        have hjlt : j < actions.length := by
          by_contra hle
          exact hfree (blocked_of_dependency hi hij (.inl (Nat.le_of_not_lt hle)))
        have hjfree : ¬ Blocked actions j := fun hj =>
          hfree (blocked_of_dependency hi hij (.inr hj))
        exact ih ⟨j, hjlt, hjfree⟩ (.single hij)
  by_contra hfree
  exact hwaits (hplaced ⟨i, hi, hfree⟩)

end Blocked

/-! ### Construction orders -/

/-- An order of all positions in which every dependency comes before what depends on it, and in
which each action is the least of those that could come next. -/
structure IsConstructionOrder (actions : List Action) (order : List Nat) : Prop where
  perm : order.Perm (List.range actions.length)
  dependency : ∀ before i after, order = before ++ i :: after →
    ∀ j, DependsOn actions i j → j ∈ before
  least : ∀ before i after a, order = before ++ i :: after → actions[i]? = some a →
    ∀ b ∈ actions, b.id ∉ before → b.dependencies ⊆ before → a.readyKey ≤ b.readyKey

section Construction

variable {actions : List Action} {placed order : List Nat}
  (hid : ∀ (i : Nat) (a : Action), actions[i]? = some a → a.id = i)
include hid

theorem getElem?_of_ids {a : Action} (ha : a ∈ actions) : actions[a.id]? = some a := by
  obtain ⟨i, hi⟩ := List.getElem?_of_mem ha
  rw [hid i a hi, hi]

theorem ids_eq_range : actions.map Action.id = List.range actions.length := by
  refine List.ext_getElem? fun i => ?_
  rw [List.getElem?_map]
  by_cases hi : i < actions.length
  · have hget := List.getElem?_eq_getElem hi
    rw [hget, Option.map_some, hid i _ hget, List.getElem?_range hi]
  · have hle : actions.length ≤ i := Nat.le_of_not_lt hi
    rw [List.getElem?_eq_none hle, List.getElem?_eq_none (by simpa using hle), Option.map_none]

theorem ids_waitingAfter : (waitingAfter actions placed).map (fun w => w.action.id) =
    (List.range actions.length).filter fun i => decide (i ∉ placed) := by
  rw [← ids_eq_range hid, List.filter_map, waitingAfter, List.map_map]
  rfl

theorem isConstructionOrder_iff : IsConstructionOrder actions order ↔
    GreedyOrder actions [] order ∧ ∀ a ∈ actions, a.id ∈ order := by
  constructor
  · intro h
    refine ⟨greedyOrder_iff.mpr fun before i after horder => ?_, fun a ha => ?_⟩
    · have hlt : i < actions.length := by
        have hmem : i ∈ order := by simp [horder]
        simpa using h.perm.mem_iff.mp hmem
      have hget := List.getElem?_eq_getElem hlt
      have hi := hid i _ hget
      have hwaits : i ∉ before := by
        have hnodup := h.perm.nodup_iff.mpr List.nodup_range
        rw [horder, List.nodup_middle, List.nodup_cons, List.mem_append] at hnodup
        exact fun hmem => hnodup.1 (.inl hmem)
      refine ⟨actions[i], ⟨⟨List.getElem_mem hlt, by rwa [hi], fun j hj => ?_⟩, fun b hb => ?_⟩, hi⟩
      · exact h.dependency before i after horder j ⟨_, hget, hj⟩
      · exact h.least before i after _ horder hget b hb.mem hb.waits hb.dependencies
    · have hlt := (List.getElem?_eq_some_iff.mp (getElem?_of_ids hid ha)).1
      exact h.perm.mem_iff.mpr (List.mem_range.mpr hlt)
  · rintro ⟨hgreedy, hall⟩
    have hnext {before after : List Nat} {i : Nat} {a : Action}
        (horder : order = before ++ i :: after) (ha : actions[i]? = some a) :
        NextAfter actions before a := by
      obtain ⟨b, hb, rfl⟩ := greedyOrder_iff.mp hgreedy before i after horder
      rw [getElem?_of_ids hid hb.ready.mem] at ha
      cases ha
      exact hb
    refine ⟨?_, fun before i after horder j hij => ?_, fun before i after a horder ha b hb hwaits
      hdependencies => (hnext horder ha).least b ⟨hb, hwaits, hdependencies⟩⟩
    · refine (List.perm_ext_iff_of_nodup (hgreedy.nodup List.nodup_nil) List.nodup_range).mpr ?_
      intro i
      rw [List.mem_range]
      refine ⟨fun hi => (hgreedy.not_blocked hid (by simp) i hi).1, fun hi => ?_⟩
      have hmem := hall _ (List.getElem_mem hi)
      rwa [hid i _ (List.getElem?_eq_getElem hi)] at hmem
    · obtain ⟨a, ha, hj⟩ := hij
      exact (hnext horder ha).ready.dependencies hj

theorem exists_greedyOrder : ∃ order,
    placeReady actions.length (actions.map fun a => ⟨a, a.dependencies⟩) =
      (order, waitingAfter actions order) ∧
    GreedyOrder actions [] order ∧
    ∀ i, Blocked actions i ↔ i ∈ (waitingAfter actions order).map fun w => w.action.id := by
  have hbound : (waitingAfter actions []).length ≤ actions.length := by simp [waitingAfter_nil]
  obtain ⟨order, hplaced, hgreedy, hstuck⟩ := placeReady_greedy actions.length [] hbound
  rw [waitingAfter_nil] at hplaced
  refine ⟨order, hplaced, hgreedy, fun i => ?_⟩
  rw [ids_waitingAfter hid, List.mem_filter, List.mem_range, decide_eq_true_eq]
  constructor
  · intro hi
    exact ⟨hi.1, fun hmem => (hgreedy.not_blocked hid (by simp) i hmem).2 hi⟩
  · rintro ⟨hlt, hwaits⟩
    exact blocked_of_stuck hid hstuck hlt hwaits

end Construction

end SelectionPlan
