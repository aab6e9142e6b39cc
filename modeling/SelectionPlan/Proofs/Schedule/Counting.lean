import SelectionPlan.Proofs.Schedule.Greedy
import SelectionPlan.Proofs.Ordered
import Mathlib.Data.List.Induction

/-!
# Construction orders by counting

An order can be found without going through all dependencies again whenever an action is placed.
Each action has the number of its dependencies that are missing.  An action that is placed counts
down those that wait for it, and one with nothing left to count joins a queue, in which the least
key comes first.
-/

namespace SelectionPlan

abbrev ReadyKey := ℕ ×ₗ ℤ ×ₗ ℕ

def ReadyKey.id (key : ReadyKey) : ActionId := (ofLex (ofLex key).2).2

namespace Counting

structure Counts where
  missing : List Nat
  ready : List ReadyKey

def Counts.left (state : Counts) (i : Nat) : Nat := state.missing.getD i 0

def enter (table : List (List Nat)) (a : Action) (i : Nat) : List (List Nat) :=
  a.dependencies.foldl (fun table d => table.modify d fun waiting => waiting ++ [i]) table

def dependents (actions : List Action) : List (List Nat) :=
  actions.zipIdx.foldl (fun table entry => enter table entry.1 entry.2)
    (List.replicate actions.length [])

/-- Counts down one of the actions, which must have something left to count. -/
def countDown (actions : List Action) (state : Counts) (i : Nat) : Option Counts :=
  match state.left i, actions[i]? with
  | count + 1, some a =>
    some { missing := state.missing.set i count
           ready := if count = 0 then insertDistinct a.readyKey state.ready else state.ready }
  | _, _ => none

/-- Places ready actions until there are none.  There must not be more than `bound` of them. -/
def place (actions : List Action) (table : List (List Nat)) :
    (bound : Nat) → Counts → Option (List ActionId)
  | _, ⟨_, []⟩ => some []
  | 0, ⟨_, _ :: _⟩ => none
  | bound + 1, ⟨missing, key :: ready⟩ => do
    let state ← (table.getD key.id []).foldlM (countDown actions) ⟨missing, ready⟩
    let order ← place actions table bound state
    return key.id :: order

/-- The construction order, or nothing if a count would fall below zero. -/
def countedOrder (actions : List Action) : Option (Except ScheduleError (List ActionId)) := do
  let missing := actions.map fun a => a.dependencies.length
  let ready := ((actions.zip missing).filter fun entry => entry.2 == 0).map fun entry =>
    entry.1.readyKey
  let order ← place actions (dependents actions) actions.length ⟨missing, sortDistinct ready⟩
  if order.length < actions.length then
    let first := (actions.find? fun a => decide (a.id ∉ order)).map fun a =>
      actionText a.id ++ " " ++ a.label
    return .error (.deadlock (actions.length - order.length) (first.getD ""))
  return .ok order

/-! ### The table of dependents -/

section Dependents

variable {actions : List Action} {table : List (List Nat)} {i j : Nat}

def dependenciesAt (actions : List Action) (i : Nat) : List Nat :=
  (actions[i]?.map Action.dependencies).getD []

theorem length_enter (a : Action) : (enter table a i).length = table.length := by
  rw [enter]
  induction a.dependencies generalizing table with
  | nil => rfl
  | cons d deps ih => rw [List.foldl_cons, ih, List.length_modify]

theorem count_enter (a : Action) (hj : j < table.length) (k : Nat) :
    ((enter table a i).getD j []).count k =
      (table.getD j []).count k + if k = i then a.dependencies.count j else 0 := by
  rw [enter]
  induction a.dependencies generalizing table with
  | nil => simp
  | cons d deps ih =>
      rw [List.foldl_cons, ih (by rwa [List.length_modify])]
      by_cases hd : d = j
      · subst hd
        by_cases hk : k = i
        · simp [List.getD, hj, hk]
          omega
        · simp [List.getD, hj, hk, Ne.symm hk]
      · simp [List.getD, hd]

theorem length_foldl_enter (entries : List (Action × Nat)) :
    (entries.foldl (fun table entry => enter table entry.1 entry.2) table).length =
      table.length := by
  induction entries generalizing table with
  | nil => rfl
  | cons entry entries ih => rw [List.foldl_cons, ih, length_enter]

theorem count_foldl_enter (hj : j < table.length) :
    ((actions.zipIdx.foldl (fun table entry => enter table entry.1 entry.2) table).getD j []).count
        i = (table.getD j []).count i + (dependenciesAt actions i).count j := by
  induction actions using List.reverseRecOn with
  | nil => simp [dependenciesAt]
  | append_singleton actions a ih =>
      rw [List.zipIdx_append, List.foldl_append, List.zipIdx_singleton, List.foldl_cons,
        List.foldl_nil, count_enter a (by rwa [length_foldl_enter]), ih, Nat.zero_add,
        Nat.add_assoc, Nat.add_left_cancel_iff, dependenciesAt, dependenciesAt]
      rcases Nat.lt_trichotomy i actions.length with hi | hi | hi
      · rw [if_neg hi.ne, List.getElem?_append_left hi, Nat.add_zero]
      · simp [hi]
      · rw [if_neg hi.ne', List.getElem?_eq_none hi.le, List.getElem?_eq_none (by simpa using hi),
          Nat.add_zero]

theorem count_dependents (hj : j < actions.length) :
    ((dependents actions).getD j []).count i = (dependenciesAt actions i).count j := by
  rw [dependents, count_foldl_enter (by rwa [List.length_replicate])]
  simp [List.getD, hj]

end Dependents

/-! ### Counting down -/

/-- What is queued are the actions that are not placed and have nothing left to count. -/
structure Counted (actions : List Action) (placed : List Nat) (state : Counts) : Prop where
  length : state.missing.length = actions.length
  zero : ∀ i ∈ placed, state.left i = 0
  ready : ∀ key, key ∈ state.ready ↔
    ∃ i a, actions[i]? = some a ∧ i ∉ placed ∧ state.left i = 0 ∧ a.readyKey = key
  ascending : state.ready.Pairwise (· < ·)

section CountDown

variable {actions : List Action} {placed : List Nat} {state : Counts} {i : Nat}

theorem left_set {ready : List ReadyKey} (hi : i < state.missing.length) (count j : Nat) :
    Counts.left ⟨state.missing.set i count, ready⟩ j = if i = j then count else state.left j := by
  rw [Counts.left, List.getD, List.getElem?_set]
  by_cases hij : i = j
  · simp [hij, hij ▸ hi]
  · simp [hij, Counts.left, List.getD]

theorem Counted.countDown (h : Counted actions placed state) (hpos : 0 < state.left i) :
    ∃ state', countDown actions state i = some state' ∧ Counted actions placed state' ∧
      ∀ j, state'.left j = state.left j - if i = j then 1 else 0 := by
  have hi : i < state.missing.length := by
    by_contra hle
    simp [Counts.left, List.getD, List.getElem?_eq_none (Nat.le_of_not_lt hle)] at hpos
  have hactions : i < actions.length := h.length ▸ hi
  have hget : actions[i]? = some actions[i] := List.getElem?_eq_getElem hactions
  obtain ⟨count, hcount⟩ : ∃ count, state.left i = count + 1 := ⟨state.left i - 1, by omega⟩
  -- What is placed has nothing left to count, so this action still waits.
  have hwaits : i ∉ placed := by
    intro hmem
    rw [h.zero i hmem] at hcount
    cases hcount
  have hdown : Counting.countDown actions state i = some ⟨state.missing.set i count,
      if count = 0 then insertDistinct actions[i].readyKey state.ready else state.ready⟩ := by
    simp only [Counting.countDown, hcount, hget]
  refine ⟨_, hdown, ⟨?_, fun j hj => ?_, fun key => ?_, ?_⟩, fun j => ?_⟩
  · rw [List.length_set, h.length]
  · have hij : i ≠ j := fun hij => hwaits (hij ▸ hj)
    rw [left_set hi, if_neg hij, h.zero j hj]
  · constructor
    · intro hkey
      have hcases : (count = 0 ∧ key = actions[i].readyKey) ∨ key ∈ state.ready := by
        by_cases hzero : count = 0
        · simpa [hzero] using hkey
        · rw [if_neg hzero] at hkey
          exact .inr hkey
      rcases hcases with ⟨hzero, rfl⟩ | hkey
      · exact ⟨i, _, hget, hwaits, by rw [left_set hi, if_pos rfl, hzero], rfl⟩
      · obtain ⟨j, a, ha, hj, hleft, rfl⟩ := (h.ready key).mp hkey
        have hij : i ≠ j := by
          rintro rfl
          omega
        exact ⟨j, a, ha, hj, by rw [left_set hi, if_neg hij, hleft], rfl⟩
    · rintro ⟨j, a, ha, hj, hleft, rfl⟩
      rw [left_set hi] at hleft
      by_cases hij : i = j
      · subst hij
        rw [hget] at ha
        cases ha
        rw [if_pos rfl] at hleft
        simp [hleft]
      · rw [if_neg hij] at hleft
        have hkey := (h.ready a.readyKey).mpr ⟨j, a, ha, hj, hleft, rfl⟩
        split
        · exact mem_insertDistinct.mpr (.inr hkey)
        · exact hkey
  · split
    · exact pairwise_insertDistinct h.ascending
    · exact h.ascending
  · rw [left_set hi]
    by_cases hij : i = j
    · subst hij
      simp [hcount]
    · simp [hij]

theorem Counted.foldlM_countDown (h : Counted actions placed state) {waiting : List Nat}
    (hcount : ∀ i, waiting.count i ≤ state.left i) :
    ∃ state', waiting.foldlM (Counting.countDown actions) state = some state' ∧
      Counted actions placed state' ∧ ∀ j, state'.left j = state.left j - waiting.count j := by
  induction waiting generalizing state with
  | nil => exact ⟨state, rfl, h, fun j => by simp⟩
  | cons i waiting ih =>
      have hpos : 0 < state.left i := by
        have hself := hcount i
        rw [List.count_cons_self] at hself
        omega
      obtain ⟨state', hdown, hcounted, hleft⟩ := h.countDown hpos
      have hrest : ∀ j, waiting.count j ≤ state'.left j := by
        intro j
        have hj := hcount j
        rw [List.count_cons] at hj
        rw [hleft]
        simp only [beq_iff_eq] at hj
        omega
      obtain ⟨state'', hdowns, hcounted', hleft'⟩ := ih hcounted hrest
      refine ⟨state'', ?_, hcounted', fun j => ?_⟩
      · rw [List.foldlM_cons, hdown]
        exact hdowns
      · rw [hleft', hleft, List.count_cons]
        simp only [beq_iff_eq]
        omega

end CountDown

/-! ### Placing -/

theorem id_readyKey (a : Action) : ReadyKey.id a.readyKey = a.id := rfl

structure CountedAfter (actions : List Action) (placed : List Nat) (state : Counts) : Prop extends
    Counted actions placed state where
  left : ∀ i, state.left i =
    (dependenciesAt actions i).countP fun d => decide (d ∉ placed)

theorem countP_place {deps placed : List Nat} {id : Nat} (hid : id ∉ placed) :
    (deps.countP fun d => decide (d ∉ placed)) =
      (deps.countP fun d => decide (d ∉ placed ++ [id])) + deps.count id := by
  induction deps with
  | nil => rfl
  | cons d deps ih =>
      rw [List.countP_cons, List.countP_cons, List.count_cons, ih]
      by_cases hd : d = id
      · simp [hd, hid]
        omega
      · simp [hd]
        omega

section Placing

variable {actions : List Action} {placed : List Nat} {state : Counts}
  (hid : ∀ (i : Nat) (a : Action), actions[i]? = some a → a.id = i)
include hid

omit hid in
theorem CountedAfter.left_eq_zero (h : CountedAfter actions placed state) {i : Nat} {a : Action}
    (ha : actions[i]? = some a) : state.left i = 0 ↔ a.dependencies ⊆ placed := by
  rw [h.left, dependenciesAt, ha, Option.map_some, Option.getD_some, List.countP_eq_zero]
  simp [List.subset_def]

theorem CountedAfter.mem_ready (h : CountedAfter actions placed state) {key : ReadyKey} :
    key ∈ state.ready ↔ ∃ a, ReadyAfter actions placed a ∧ a.readyKey = key := by
  rw [h.ready]
  constructor
  · rintro ⟨i, a, ha, hi, hleft, rfl⟩
    exact ⟨a, ⟨List.mem_of_getElem? ha, by rwa [hid i a ha], (h.left_eq_zero ha).mp hleft⟩, rfl⟩
  · rintro ⟨a, hready, rfl⟩
    have ha := getElem?_of_ids hid hready.mem
    exact ⟨a.id, a, ha, hready.waits, (h.left_eq_zero ha).mpr hready.dependencies, rfl⟩

theorem CountedAfter.next (h : CountedAfter actions placed state) {key : ReadyKey}
    {ready : List ReadyKey} (hready : state.ready = key :: ready) :
    ∃ a, NextAfter actions placed a ∧ a.readyKey = key := by
  have hfirst : key ∈ state.ready := by simp [hready]
  obtain ⟨a, ha, rfl⟩ := (h.mem_ready hid).mp hfirst
  refine ⟨a, ⟨ha, fun b hb => ?_⟩, rfl⟩
  have hmem := (h.mem_ready hid).mpr ⟨b, hb, rfl⟩
  have hascending := h.ascending
  rw [hready] at hmem hascending
  rcases List.mem_cons.mp hmem with heq | hmem
  · exact heq.ge
  · exact ((List.pairwise_cons.mp hascending).1 _ hmem).le

theorem CountedAfter.pop (h : CountedAfter actions placed state) {a : Action}
    {ready : List ReadyKey} (hready : state.ready = a.readyKey :: ready)
    (ha : ReadyAfter actions placed a) :
    Counted actions (placed ++ [a.id]) ⟨state.missing, ready⟩ := by
  have hget := getElem?_of_ids hid ha.mem
  have hascending := h.ascending
  rw [hready] at hascending
  refine ⟨h.length, fun i hi => ?_, fun key => ?_, hascending.tail⟩
  · rcases List.mem_append.mp hi with hi | hi
    · exact h.zero i hi
    · rw [List.mem_singleton.mp hi]
      exact (h.left_eq_zero hget).mpr ha.dependencies
  · have hrest : key ∈ ready ↔ key ∈ state.ready ∧ key ≠ a.readyKey := by
      have hne : a.readyKey ∉ ready := fun hmem =>
        lt_irrefl _ ((List.pairwise_cons.mp hascending).1 _ hmem)
      rw [hready, List.mem_cons]
      constructor
      · intro hmem
        exact ⟨.inr hmem, fun heq => hne (heq ▸ hmem)⟩
      · rintro ⟨hmem, hother⟩
        exact hmem.resolve_left hother
    rw [hrest, h.ready]
    constructor
    · rintro ⟨⟨i, b, hb, hi, hleft, rfl⟩, hother⟩
      refine ⟨i, b, hb, ?_, hleft, rfl⟩
      simp only [List.mem_append, List.mem_singleton, not_or]
      refine ⟨hi, fun heq => hother ?_⟩
      rw [heq, hget] at hb
      cases hb
      rfl
    · rintro ⟨i, b, hb, hi, hleft, rfl⟩
      simp only [List.mem_append, List.mem_singleton, not_or] at hi
      refine ⟨⟨i, b, hb, hi.1, hleft, rfl⟩, fun heq => hi.2 ?_⟩
      rw [← hid i b hb]
      exact congrArg ReadyKey.id heq

/-- Placing the next action counts down what waits for it. -/
theorem CountedAfter.place (h : CountedAfter actions placed state) {a : Action}
    {ready : List ReadyKey} (hready : state.ready = a.readyKey :: ready)
    (ha : ReadyAfter actions placed a) :
    ∃ state', ((dependents actions).getD a.id []).foldlM (countDown actions)
        ⟨state.missing, ready⟩ = some state' ∧ CountedAfter actions (placed ++ [a.id]) state' := by
  have hlt := (List.getElem?_eq_some_iff.mp (getElem?_of_ids hid ha.mem)).1
  have hleft (i : Nat) : state.left i =
      ((dependenciesAt actions i).countP fun d => decide (d ∉ placed ++ [a.id])) +
        ((dependents actions).getD a.id []).count i := by
    rw [h.left, countP_place ha.waits, count_dependents hlt]
  have hcount (i : Nat) : ((dependents actions).getD a.id []).count i ≤ state.left i := by
    rw [hleft]
    exact Nat.le_add_left _ _
  obtain ⟨state', hdown, hcounted, hleft'⟩ :=
    (h.pop hid hready ha).foldlM_countDown hcount
  refine ⟨state', hdown, hcounted, fun i => ?_⟩
  rw [hleft']
  change state.left i - _ = _
  rw [hleft, Nat.add_sub_cancel]

omit hid in
theorem placeReady_of_stuck (h : ∀ a, ¬ ReadyAfter actions placed a) (bound : Nat) :
    (placeReady bound (waitingAfter actions placed)).1 = [] := by
  cases bound with
  | zero => rfl
  | succ bound =>
      cases hnext : Waiting.next? (waitingAfter actions placed) with
      | none => rw [placeReady, hnext]
      | some a => exact absurd (nextAfter_of_next? hnext).ready (h a)

theorem CountedAfter.place_eq (h : CountedAfter actions placed state) {bound : Nat}
    (hbound : (waitingAfter actions placed).length ≤ bound) :
    Counting.place actions (dependents actions) bound state =
      some (placeReady bound (waitingAfter actions placed)).1 := by
  induction bound generalizing placed state with
  | zero =>
      have hstuck (a : Action) : ¬ ReadyAfter actions placed a := by
        intro ha
        obtain ⟨w, hw, -⟩ := readyAfter_iff.mp ha
        rw [List.length_eq_zero_iff.mp (Nat.le_zero.mp hbound)] at hw
        cases hw
      obtain ⟨missing, queue⟩ := state
      cases queue with
      | nil => rfl
      | cons key ready =>
          obtain ⟨a, ha, -⟩ := h.next hid rfl
          exact absurd ha.ready (hstuck a)
  | succ bound ih =>
      obtain ⟨missing, queue⟩ := state
      cases queue with
      | nil =>
          have hstuck (a : Action) : ¬ ReadyAfter actions placed a := by
            intro ha
            cases (h.mem_ready hid).mpr ⟨a, ha, rfl⟩
          rw [placeReady_of_stuck hstuck]
          rfl
      | cons key ready =>
          obtain ⟨a, ha, rfl⟩ := h.next hid rfl
          obtain ⟨w, hw, hready, -⟩ := readyAfter_iff.mp ha.ready
          obtain ⟨b, hb⟩ := Waiting.exists_next hw hready
          -- The keys tell actions apart, so the least of the ready ones is the first of the queue.
          have hsame : b = a := by
            have hget := getElem?_of_ids hid ha.ready.mem
            have hget' := getElem?_of_ids hid (nextAfter_of_next? hb).ready.mem
            rw [(nextAfter_of_next? hb).id_eq ha, hget] at hget'
            exact (Option.some.inj hget').symm
          subst hsame
          have hlt := length_waitingAfter_place ha.ready.mem ha.ready.waits
          obtain ⟨state', hdown, hcounted⟩ := h.place hid rfl ha.ready
          simp only [placeReady, hb, waitingAfter_place]
          rw [Counting.place, id_readyKey, hdown, Option.bind_eq_bind, Option.bind_some,
            ih hcounted (by omega)]
          rfl

omit hid in
theorem countedAfter_nil : CountedAfter actions []
    ⟨actions.map fun a => a.dependencies.length,
      sortDistinct (((actions.zip (actions.map fun a => a.dependencies.length)).filter
        fun entry => entry.2 == 0).map fun entry => entry.1.readyKey)⟩ := by
  have hleft {ready : List ReadyKey} (i : Nat) :
      Counts.left ⟨actions.map fun a => a.dependencies.length, ready⟩ i =
        (dependenciesAt actions i).length := by
    cases h : actions[i]? <;> simp [Counts.left, List.getD, dependenciesAt, h]
  refine ⟨⟨by simp, by simp, fun key => ?_, pairwise_unionDistinct .nil⟩, fun i => ?_⟩
  · rw [← List.map_prod_left_eq_zip, mem_sortDistinct]
    constructor
    · intro hkey
      simp only [List.mem_map, List.mem_filter] at hkey
      obtain ⟨-, ⟨⟨a, ha, rfl⟩, hzero⟩, rfl⟩ := hkey
      obtain ⟨i, hi⟩ := List.getElem?_of_mem ha
      refine ⟨i, a, hi, by simp, ?_, rfl⟩
      rw [hleft, dependenciesAt, hi]
      exact beq_iff_eq.mp hzero
    · rintro ⟨i, a, ha, -, hzero, rfl⟩
      rw [hleft, dependenciesAt, ha] at hzero
      refine List.mem_map.mpr ⟨(a, a.dependencies.length), List.mem_filter.mpr ⟨?_, ?_⟩, rfl⟩
      · exact List.mem_map.mpr ⟨a, List.mem_of_getElem? ha, rfl⟩
      · exact beq_iff_eq.mpr hzero
  · simp [hleft]

theorem length_waitingAfter {order : List Nat} (hgreedy : GreedyOrder actions [] order) :
    (waitingAfter actions order).length + order.length = actions.length := by
  have hnodup : order.Nodup := hgreedy.nodup List.nodup_nil
  have hplaced : order.Perm ((List.range actions.length).filter fun i => decide (i ∈ order)) := by
    refine (List.perm_ext_iff_of_nodup hnodup (List.nodup_range.filter _)).mpr fun i => ?_
    rw [List.mem_filter, List.mem_range, decide_eq_true_eq]
    exact ⟨fun hi => ⟨(hgreedy.not_blocked hid (by simp) i hi).1, hi⟩, And.right⟩
  have hwaiting : (waitingAfter actions order).length =
      ((List.range actions.length).filter fun i => !decide (i ∈ order)).length := by
    rw [← List.length_map fun w : Waiting => w.action.id, ids_waitingAfter hid]
    simp
  have hsplit := (List.range actions.length).length_eq_length_filter_add fun i => decide (i ∈ order)
  have hlength := hplaced.length_eq
  rw [List.length_range] at hsplit
  omega

/-- With counts that never fall below zero the same order is found. -/
theorem countedOrder_eq : countedOrder actions = some (constructionOrder actions) := by
  obtain ⟨order, hplaced, hgreedy, -⟩ := exists_greedyOrder hid
  have hbound : (waitingAfter actions []).length ≤ actions.length := by simp [waitingAfter_nil]
  have hplace := countedAfter_nil.place_eq hid hbound
  rw [waitingAfter_nil, hplaced] at hplace
  have hlength := length_waitingAfter hid hgreedy
  have hfirst : (actions.find? fun a => decide (a.id ∉ order)) =
      (waitingAfter actions order).head?.map Waiting.action := by
    rw [waitingAfter, List.head?_map, Option.map_map, List.head?_filter]
    exact Option.map_id'.symm
  simp only [countedOrder, hplace, Option.bind_eq_bind, Option.bind_some, hfirst, constructionOrder,
    hplaced]
  cases hstuck : waitingAfter actions order with
  | nil =>
      rw [hstuck, List.length_nil] at hlength
      rw [if_neg (by omega)]
      rfl
  | cons w rest =>
      rw [hstuck, List.length_cons] at hlength
      have hpending : actions.length - order.length = (w :: rest).length := by
        rw [List.length_cons]
        omega
      rw [if_pos (by omega), hpending]
      rfl

end Placing

end Counting

section Construction

variable {actions : List Action} {order : List Nat}
  (hid : ∀ (i : Nat) (a : Action), actions[i]? = some a → a.id = i)
include hid

section Stuck

variable (hblocked : ∀ i, Blocked actions i ↔
  i ∈ (waitingAfter actions order).map fun w => w.action.id)
include hblocked

theorem ncard_blocked :
    { i | Blocked actions i }.ncard = (waitingAfter actions order).length := by
  have hset : { i | Blocked actions i } =
      ((waitingAfter actions order).map fun w => w.action.id).toFinset := by
    ext i
    simpa using hblocked i
  have hnodup : ((waitingAfter actions order).map fun w => w.action.id).Nodup := by
    rw [ids_waitingAfter hid]
    exact List.nodup_range.filter _
  rw [hset, Set.ncard_coe_finset, List.toFinset_card_of_nodup hnodup, List.length_map]

theorem isLeast_blocked {w : Waiting} {rest : List Waiting}
    (hstuck : waitingAfter actions order = w :: rest) :
    IsLeast { i | Blocked actions i } w.action.id := by
  have hids : ((waitingAfter actions order).map fun w => w.action.id).Pairwise (· < ·) := by
    rw [ids_waitingAfter hid]
    exact List.pairwise_lt_range.filter _
  rw [hstuck, List.map_cons] at hids hblocked
  refine ⟨(hblocked w.action.id).mpr List.mem_cons_self, fun i hi => ?_⟩
  rcases List.mem_cons.mp ((hblocked i).mp hi) with rfl | hmem
  · exact le_rfl
  · exact ((List.pairwise_cons.mp hids).1 i hmem).le

end Stuck

end Construction


/-- An action that is ready, one that waits for it and for a third, and the third, which waits for
itself. -/
def waitingForItself : List Action :=
  let source : Action :=
    { id := 0, node := 0, path := "root", systematic := .nominal, input := none
      dependencies := [], cost := 0, operation := .source }
  [source, { source with id := 1, dependencies := [0, 2] },
    { source with id := 2, dependencies := [2] }]

end SelectionPlan
