import SelectionPlan.Proofs.Graph.Required

/-!
# Planning from tables

A builder finds in its tables what a search among its actions finds.  In particular the computed
columns noted for a frame are those of the lineage of the frame, whether its last column was there
or has just been defined.  Planning from tables therefore ends as planning by search does.
-/

namespace SelectionPlan

/-! ### Tables and searches -/

/-- A table knows under every key the first action that the key describes. -/
def Finds {κ : Type} [DecidableEq κ] (table : List (κ × ActionId)) (actions : List Action)
    (describes : κ → Action → Bool) : Prop :=
  ∀ key, lookupKey key table = actions.findIdx? (describes key)

namespace Finds

variable {κ : Type} [DecidableEq κ] {table : List (κ × ActionId)} {actions : List Action}
  {describes : κ → Action → Bool} {a : Action}

theorem keep (h : Finds table actions describes) (ha : ∀ key, ¬ describes key a = true) :
    Finds table (actions ++ [a]) describes := by
  intro key
  rw [h key, List.findIdx?_append]
  simp [ha key]

theorem enter {key : κ} (h : Finds table actions describes) (hnew : lookupKey key table = none)
    (ha : ∀ k, describes k a = true ↔ k = key) :
    Finds ((key, actions.length) :: table) (actions ++ [a]) describes := by
  intro k
  rw [List.findIdx?_append, ← h k, lookupKey]
  by_cases hk : key = k
  · subst hk
    simp [hnew, (ha key).mpr rfl]
  · have hother : describes k a = false := by
      rw [← Bool.not_eq_true, ha]
      exact Ne.symm hk
    simp [hk, hother]

end Finds

/-! ### Appended actions -/

def Action.summed (a : Action) : Option (ActionId × ColumnRef × Systematic) :=
  match a.operation with
  | .statistics filter weight effective _ => some (filter, weight, effective)
  | _ => none

def Action.hasKey (index : ScopeIndex) (key : SelectionKey) (a : Action) : Bool :=
  match a.task with
  | some (.select node s) => index.position? node == some key.position && s == key.chain
  | _ => false

def Action.adds (key : ActionId × ColumnRef × Systematic) (a : Action) : Bool :=
  a.input == some key.1 && a.computes key.2.1 key.2.2

def Action.sumsAt (key : ActionId × ColumnRef × Systematic) (a : Action) : Bool :=
  a.sums key.1 key.2.1 key.2.2

section Described

variable {index : ScopeIndex} {a : Action}

theorem hasKey_iff {key : SelectionKey} : a.hasKey index key = true ↔
    ∃ node, a.task = some (.select node key.chain) ∧ index.position? node = some key.position := by
  unfold Action.hasKey
  split <;> simp_all [and_comm]

theorem adds_iff {key : ActionId × ColumnRef × Systematic} : a.adds key = true ↔
    a.input = some key.1 ∧ a.task = some (.define key.2.1 key.2.2) := by
  rw [Action.adds, Bool.and_eq_true, beq_iff_eq, Action.computes_iff]

theorem sumsAt_iff {key : ActionId × ColumnRef × Systematic} :
    a.sumsAt key = true ↔ a.summed = some key := by
  obtain ⟨filter, weight, s⟩ := key
  unfold Action.sumsAt Action.sums Action.summed
  cases a.operation <;> simp [and_assoc]

end Described

structure Draft.Pushed (d : Draft) (input : Option ActionId) (r : ActionId × Draft)
    (a : Action) : Prop where
  id_eq : r.1 = d.actions.length
  actions_eq : r.2.actions = d.actions ++ [a]
  action_id : a.id = d.actions.length
  input_eq : a.input = input

namespace Planner

variable {p : Planner} {producer? : ColumnRef → Systematic → Option ActionId} {d : Draft}
  {tip : ActionId} {r : ActionId × Draft}

theorem createDefine_pushed {c : Column} {older : Scope} {s : Systematic}
    (h : p.createDefine producer? d tip c older s = .ok r) :
    ∃ a, d.Pushed (some tip) r a ∧ a.task = some (.define c.ref s) ∧ a.summed = none := by
  simp only [createDefine, bind_eq_ok] at h
  obtain ⟨bindings, -, definition, -, h⟩ := h
  split at h
  · cases h
  · cases h
    exact ⟨_, ⟨rfl, rfl, rfl, rfl⟩, rfl, rfl⟩

theorem pushFilter_pushed {place : Place} {v : Variable} {chain : Systematic}
    (h : p.pushFilter producer? d tip place v chain = .ok r) :
    ∃ a, d.Pushed (some tip) r a ∧ a.task = some (.select place.node chain) ∧ a.summed = none := by
  simp only [pushFilter, bind_eq_ok] at h
  obtain ⟨bindings, -, predicate, -, h⟩ := h
  cases h
  exact ⟨_, ⟨rfl, rfl, rfl, rfl⟩, rfl, rfl⟩

theorem pushStatistics_pushed {place : Place} {filter : ActionId} {s : Systematic}
    {weight : String} {c : Column}
    (h : p.pushStatistics producer? d tip place filter s weight c = .ok r) :
    ∃ a, d.Pushed (some tip) r a ∧ a.task = none ∧
      a.summed = some (filter, c.ref, c.effective s) := by
  simp only [pushStatistics, bind_eq_ok] at h
  obtain ⟨bindings, -, h⟩ := h
  cases h
  exact ⟨_, ⟨rfl, rfl, rfl, rfl⟩, rfl, rfl⟩

theorem pushOutput_pushed {base : ActionId} {region : String} {place : Place} {s : Systematic}
    {writer : Nat} {spec : OutputSpec} {weight : Option String}
    (h : p.pushOutput producer? d tip base region place s writer spec weight = .ok r) :
    ∃ a, d.Pushed (some tip) r a ∧ a.task = none ∧ a.summed = none := by
  simp only [pushOutput, bind_eq_ok] at h
  obtain ⟨bindings, -, h⟩ := h
  cases h
  exact ⟨_, ⟨rfl, rfl, rfl, rfl⟩, rfl, rfl⟩

end Planner

namespace Draft

variable {d : Draft} {input : Option ActionId} {r : ActionId × Draft} {a : Action}

theorem Pushed.get (h : d.Pushed input r a) : r.2.actions[r.1]? = some a := by
  rw [h.actions_eq, h.id_eq, List.getElem?_concat_length]

theorem Pushed.linked (h : d.Pushed input r a) (hl : Linked d.actions)
    (hinput : ∀ i ∈ input, i < d.actions.length) : Linked r.2.actions := by
  rw [h.actions_eq]
  refine hl.push h.action_id fun j hj => ?_
  rw [h.action_id]
  exact hinput j (h.input_eq ▸ hj)

theorem Pushed.keeps {κ : Type} [DecidableEq κ] {table : List (κ × ActionId)}
    {describes : κ → Action → Bool} (h : d.Pushed input r a)
    (hfinds : Finds table d.actions describes) (ha : ∀ key, ¬ describes key a = true) :
    Finds table r.2.actions describes := by
  rw [h.actions_eq]
  exact hfinds.keep ha

theorem Pushed.enters {κ : Type} [DecidableEq κ] {table : List (κ × ActionId)}
    {describes : κ → Action → Bool} {key : κ} (h : d.Pushed input r a)
    (hfinds : Finds table d.actions describes) (hnew : lookupKey key table = none)
    (ha : ∀ k, describes k a = true ↔ k = key) :
    Finds ((key, r.1) :: table) r.2.actions describes := by
  rw [h.actions_eq, h.id_eq]
  exact hfinds.enter hnew ha

theorem producer?_behind (hl : Linked d.actions) {id tip : ActionId} (ha : d.actions[id]? = some a)
    (hinput : a.input = some tip) (column : ColumnRef) (s : Systematic) :
    d.producer? id column s =
      if a.computes column s then some id else d.producer? tip column s := by
  rw [producer?, hl.lineage_eq ha, hinput, Option.elim_some, List.find?_cons, producer?]
  cases a.computes column s with
  | true => simp [hl.id_eq id a ha]
  | false => rfl

theorem producer?_kept (hl : Linked r.2.actions) (h : d.Pushed input r a) {tip : ActionId}
    (htip : tip < d.actions.length) : r.2.producer? tip = d.producer? tip := by
  funext column s
  rw [producer?, producer?, h.actions_eq] at *
  rw [Linked.lineage_append hl (List.getElem?_eq_getElem htip)]

end Draft

/-! ### Lineages -/

/-- A lineage has noted which actions compute which columns on the way to its frame. -/
structure Lineage.Tells (line : Lineage) (d : Draft) : Prop where
  frame : line.tip < d.actions.length
  producer_eq : line.producer? = d.producer? line.tip

namespace Lineage.Tells

variable {line : Lineage} {d : Draft} (h : line.Tells d)
include h

theorem input_lt : ∀ i ∈ some line.tip, i < d.actions.length := by
  simpa using h.frame

theorem keep {input : Option ActionId} {r : ActionId × Draft} {a : Action}
    (hl : Linked r.2.actions) (hpush : d.Pushed input r a) : line.Tells r.2 where
  frame := by
    rw [hpush.actions_eq, List.length_append]
    exact Nat.lt_add_right _ h.frame
  producer_eq := h.producer_eq.trans (Draft.producer?_kept hl hpush h.frame).symm

variable (hl : Linked d.actions) {id : ActionId} {a : Action} (ha : d.actions[id]? = some a)
  (hinput : a.input = some line.tip)
include hl ha hinput

/-- A definition right behind the frame continues the lineage, whoever made it. -/
theorem extend {column : ColumnRef} {s : Systematic} (htask : a.task = some (.define column s)) :
    (line.extend column s id).Tells d where
  frame := (List.getElem?_eq_some_iff.mp ha).1
  producer_eq := by
    funext c s'
    have hcomputes : a.computes c s' = true ↔ (column, s) = (c, s') := by
      simp [Action.computes_iff, htask]
    change _ = d.producer? id c s'
    rw [Draft.producer?_behind hl ha hinput, ← h.producer_eq, Lineage.producer?, Lineage.extend,
      lookupKey, Lineage.producer?]
    exact if_congr hcomputes.symm rfl rfl

theorem select {node : Nat} {s : Systematic} (htask : a.task = some (.select node s)) :
    Lineage.Tells ⟨id, line.produced⟩ d where
  frame := (List.getElem?_eq_some_iff.mp ha).1
  producer_eq := by
    funext c s'
    have hcomputes : ¬ a.computes c s' = true := by simp [Action.computes_iff, htask]
    change _ = d.producer? id c s'
    rw [Draft.producer?_behind hl ha hinput, if_neg hcomputes, ← h.producer_eq]
    rfl

end Lineage.Tells

/-! ### Builders -/

/-- The tables of a builder find what is among its actions, and the lineages of its selections tell
what has been computed on the way to them. -/
structure Builder.Consistent (b : Builder) (index : ScopeIndex) : Prop where
  linked : Linked b.actions
  filters : Finds b.filters b.actions (Action.hasKey index)
  defines : Finds b.defines b.actions Action.adds
  statistics : Finds b.statistics b.actions Action.sumsAt
  frames : ∀ key id, lookupKey key b.filters = some id →
    (b.frameOf id).tip = id ∧ (b.frameOf id).Tells b.toDraft

namespace Builder.Consistent

variable {index : ScopeIndex} {b : Builder} (h : b.Consistent index) {input : Option ActionId}
  {r : ActionId × Draft} {a : Action} (hpush : b.toDraft.Pushed input r a)
  (hinput : ∀ i ∈ input, i < b.actions.length)
include h

theorem id_lt {key : SelectionKey} {id : ActionId} (hid : lookupKey key b.filters = some id) :
    id < b.actions.length := by
  rw [h.filters key] at hid
  obtain ⟨hlt, -⟩ := List.findIdx?_eq_some_iff_getElem.mp hid
  exact hlt

theorem extension_eq {tip : ActionId} {column : ColumnRef} {s : Systematic} :
    lookupKey (tip, column, s) b.defines = b.toDraft.extension? tip column s := h.defines _

theorem statistics_eq {filter : ActionId} {weight : ColumnRef} {s : Systematic} :
    lookupKey (filter, weight, s) b.statistics = b.toDraft.statistics? filter weight s :=
  h.statistics _

include hpush hinput

/-- The noted lineages stay right when an action comes to the end. -/
theorem push_frames (key : SelectionKey) (id : ActionId) (hid : lookupKey key b.filters = some id) :
    (b.frameOf id).tip = id ∧ (b.frameOf id).Tells r.2 :=
  ⟨(h.frames key id hid).1,
    (h.frames key id hid).2.keep (hpush.linked h.linked hinput) hpush⟩

theorem push_define {tip : ActionId} {column : ColumnRef} {s : Systematic}
    (htip : input = some tip) (htask : a.task = some (.define column s)) (hsum : a.summed = none)
    (hnew : lookupKey (tip, column, s) b.defines = none) :
    Builder.Consistent { b with
      toDraft := r.2, defines := ((tip, column, s), r.1) :: b.defines } index where
  linked := hpush.linked h.linked hinput
  filters := hpush.keeps h.filters fun key => by simp [hasKey_iff, htask]
  defines := by
    refine hpush.enters h.defines hnew fun key => ?_
    rw [adds_iff, hpush.input_eq, htip, htask, Option.some.injEq, Option.some.injEq,
      Task.define.injEq]
    exact ⟨fun ⟨htip, hcolumn, hs⟩ => by rw [htip, hcolumn, hs], fun hkey => by simp [hkey]⟩
  statistics := hpush.keeps h.statistics fun key => by simp [sumsAt_iff, hsum]
  frames := h.push_frames hpush hinput

theorem push_select {key : SelectionKey} {node : Nat} {line : Lineage}
    (hposition : index.position? node = some key.position)
    (htask : a.task = some (.select node key.chain)) (hsum : a.summed = none)
    (hnew : lookupKey key b.filters = none) (htip : line.tip = r.1) (hline : line.Tells r.2) :
    Builder.Consistent (Builder.enter { b with toDraft := r.2 } key line) index where
  linked := hpush.linked h.linked hinput
  filters := by
    have hfilters : Finds ((key, r.1) :: b.filters) r.2.actions (Action.hasKey index) := by
      refine hpush.enters h.filters hnew fun k => ?_
      obtain ⟨position, chain⟩ := k
      rw [hasKey_iff, htask]
      constructor
      · rintro ⟨_, ⟨⟩, hk⟩
        rw [hposition, Option.some.injEq] at hk
        exact congrArg (SelectionKey.mk · key.chain) hk.symm
      · rintro rfl
        exact ⟨node, rfl, hposition⟩
    rw [← htip] at hfilters
    exact hfilters
  defines := hpush.keeps h.defines fun key' => by simp [adds_iff, htask]
  statistics := hpush.keeps h.statistics fun key' => by simp [sumsAt_iff, hsum]
  frames := by
    intro k id hid
    simp only [Builder.enter, lookupKey] at hid
    simp only [Builder.enter, Builder.frameOf, lookupKey]
    split at hid
    · cases hid
      simp [hline]
    · -- The selection is newer than those that were there.
      have hne : line.tip ≠ id := by
        rw [htip, hpush.id_eq]
        exact (Nat.ne_of_lt (h.id_lt hid)).symm
      rw [if_neg hne]
      exact h.push_frames hpush hinput k id hid

theorem push_statistics {key : ActionId × ColumnRef × Systematic} (htask : a.task = none)
    (hsum : a.summed = some key) (hnew : lookupKey key b.statistics = none) :
    Builder.Consistent { b with
      toDraft := r.2, statistics := (key, r.1) :: b.statistics } index where
  linked := hpush.linked h.linked hinput
  filters := hpush.keeps h.filters fun key' => by simp [hasKey_iff, htask]
  defines := hpush.keeps h.defines fun key' => by simp [adds_iff, htask]
  statistics := by
    refine hpush.enters h.statistics hnew fun key' => ?_
    rw [sumsAt_iff, hsum, Option.some.injEq, eq_comm]
  frames := h.push_frames hpush hinput

theorem push_output (htask : a.task = none) (hsum : a.summed = none) :
    Builder.Consistent { b with toDraft := r.2 } index where
  linked := hpush.linked h.linked hinput
  filters := hpush.keeps h.filters fun key => by simp [hasKey_iff, htask]
  defines := hpush.keeps h.defines fun key => by simp [adds_iff, htask]
  statistics := hpush.keeps h.statistics fun key => by simp [sumsAt_iff, hsum]
  frames := h.push_frames hpush hinput

end Builder.Consistent
end SelectionPlan
