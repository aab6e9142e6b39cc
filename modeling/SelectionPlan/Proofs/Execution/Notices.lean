import SelectionPlan.Execution.Progress
import SelectionPlan.Proofs.Execution.Journal
import Mathlib.Algebra.BigOperators.Group.Finset.Piecewise

/-!
# How often a failure is told

Progress counts the failures that it is told of.  A construction tells of every action that could
not be constructed.  A realization tells of every action that a dependency blocks, those that could
not be constructed among them, and of every pull that fails.  So it is told twice of an action that
could not be constructed and is then realized with a failed dependency, and once of any other action
that has failed.
-/

namespace SelectionPlan

variable {H ω : Type}

def Event.failed? : Event H → Option ActionId
  | .constructed a (some _) => some a.id
  | .realized a (some _) => some a.id
  | _ => none

def Event.Starts : Event H → Prop
  | .started _ => True
  | _ => False

namespace Progress

theorem failed_observe (p : Progress) {e : Event H} (he : ¬ e.Starts) :
    (p.observe e).failed = p.failed + e.failed?.toList.length := by
  cases e with
  | started => exact absurd trivial he
  | constructed a error => cases error <;> rfl
  | realized a error =>
      simp only [observe]
      split <;> cases error <;> rfl
  | pulled => rfl
  | wrote => rfl
  | finished => rfl

theorem failed_foldl {events : List (Event H)} (hevents : ∀ e ∈ events, ¬ e.Starts)
    (p : Progress) : (events.foldl observe p).failed =
      p.failed + (events.filterMap Event.failed?).length := by
  induction events generalizing p with
  | nil => rfl
  | cons e events ih =>
      rw [List.forall_mem_cons] at hevents
      rw [List.foldl_cons, ih hevents.2, failed_observe p hevents.1, List.filterMap_cons]
      cases e.failed? with
      | none => rfl
      | some id =>
          simp only [Option.toList_some, List.length_cons, List.length_nil]
          omega

end Progress

theorem Backend.context_of_constructAlong {b : Backend H} {a : Action} {older : List Action}
    {parent : Option (Built H)} {f : Failure} (hparent : b.constructAlong older = .ok parent)
    (hf : b.constructAlong (a :: older) = .error f) : f.context = a.context := by
  rw [constructAlong, hparent, ok_bind] at hf
  cases hcall : b.constructCall a (parent.map Built.handle) with
  | ok built =>
      rw [hcall] at hf
      cases hf
  | error e =>
      rw [hcall] at hf
      cases hf
      rfl

namespace Execution

/-- The actions whose failure has been told of, as often as it was. -/
def notices (x : Execution H ω) : List ActionId := x.journal.filterMap Event.failed?

def constructionFailed (x : Execution H ω) (id : ActionId) : Bool :=
  match x.builtOf id with
  | some (.error _) => true
  | _ => false

def realizationFailed (x : Execution H ω) (id : ActionId) : Bool :=
  match x.slotOf id with
  | some (.error _) => true
  | _ => false

/-- Something that an action depends on has been realized with an error. -/
def dependencyFailed (x : Execution H ω) (id : ActionId) : Bool :=
  (x.schedule.graph.action? id).any fun a => a.dependencies.any x.realizationFailed

/-- An action could not be constructed, and its realization was blocked by a dependency. -/
def failedTwice (x : Execution H ω) (id : ActionId) : Bool :=
  x.constructionFailed id && x.realizationFailed id && x.dependencyFailed id

variable {s : Schedule ω} {b : Backend H} {x y : Execution H ω} {a : Action} {id : ActionId}

theorem constructionFailed_iff :
    x.constructionFailed id = true ↔ ∃ e, x.builtOf id = some (.error e) := by
  rw [constructionFailed]
  rcases x.builtOf id with _ | (_ | _) <;> simp

theorem realizationFailed_iff :
    x.realizationFailed id = true ↔ ∃ e, x.slotOf id = some (.error e) := by
  rw [realizationFailed]
  rcases x.slotOf id with _ | (_ | _) <;> simp

theorem lt_length_of_slotOf {r : Outcome Realized} (hr : x.slotOf id = some r) :
    id < x.slots.length := by
  by_contra hlt
  rw [slotOf, List.getElem?_eq_none (Nat.le_of_not_lt hlt)] at hr
  cases hr

theorem dependencyFailed_iff (ha : x.schedule.graph.action? id = some a) :
    x.dependencyFailed id = true ↔
      ∃ d ∈ a.dependencies, ∃ e, x.slotOf d = some (.error e) := by
  simp only [dependencyFailed, ha, Option.any_some, List.any_eq_true, realizationFailed_iff]

theorem dependencyFailed_eq_false (ha : x.schedule.graph.action? id = some a)
    (hdeps : ∀ d ∈ a.dependencies, ∃ v, x.slotOf d = some (.ok v)) :
    x.dependencyFailed id = false := by
  rw [← Bool.not_eq_true, dependencyFailed_iff ha]
  intro ⟨d, hd, e, he⟩
  obtain ⟨v, hv⟩ := hdeps d hd
  rw [hv] at he
  cases he

private theorem count_append_told (ids : List ActionId) (id i : ActionId) (told : Bool) :
    (ids ++ if told then [id] else []).count i =
      ids.count i + if i = id then told.toNat else 0 := by
  cases told with
  | false => simp
  | true =>
      by_cases hi : i = id
      · simp [hi]
      · simp [hi, Ne.symm hi]

/-! ### Construction -/

private theorem notices_constructOne (hget : x.schedule.graph.action? id = some a)
    (hid : a.id = id) (hlt : id < x.built.length) (hfresh : x.builtOf id = none)
    (hx : ∀ i, x.notices.count i = (x.constructionFailed i).toNat) (i : ActionId) :
    (x.constructOne id).notices.count i = ((x.constructOne id).constructionFailed i).toNat := by
  have hnotices : (x.constructOne id).notices =
      x.notices ++ if (errorOf? (x.buildAction a)).isSome then [id] else [] := by
    rw [constructOne, hget]
    simp only [notices, record, List.filterMap_append, ← hid]
    cases x.buildAction a <;> rfl
  have hmade := builtOf_constructOne hget i
  rw [hnotices, count_append_told, hx i]
  by_cases hi : i = id
  · subst hi
    rw [if_pos ⟨rfl, hlt⟩] at hmade
    simp only [constructionFailed, hfresh, hmade]
    cases x.buildAction a <;> rfl
  · rw [if_neg fun h => hi h.1] at hmade
    simp only [constructionFailed, hmade, if_neg hi, Nat.add_zero]

theorem notices_foldl {order : List ActionId} (h : Wired x.schedule.graph.actions)
    (hlength : x.built.length = x.schedule.graph.size) (hnodup : order.Nodup)
    (horder : ∀ id ∈ order, id < x.schedule.graph.size ∧ x.builtOf id = none)
    (hx : ∀ i, x.notices.count i = (x.constructionFailed i).toNat) (i : ActionId) :
    (order.foldl constructOne x).notices.count i =
      ((order.foldl constructOne x).constructionFailed i).toNat := by
  induction order generalizing x with
  | nil => exact hx i
  | cons id order ih =>
      rw [List.nodup_cons] at hnodup
      rw [List.forall_mem_cons] at horder
      obtain ⟨⟨hid, hfresh⟩, hrest⟩ := horder
      have hget : x.schedule.graph.action? id = some x.schedule.graph.actions[id] :=
        List.getElem?_eq_getElem hid
      have hmade := builtOf_constructOne hget
      have hstep := notices_constructOne hget (h.id_eq id _ hget) (hlength ▸ hid) hfresh hx
      have hsame : (x.constructOne id).schedule = x.schedule ∧
          (x.constructOne id).built.length = x.built.length := by
        rw [constructOne, hget]
        exact ⟨rfl, List.length_set⟩
      rw [List.foldl_cons]
      apply ih
      · rwa [hsame.1]
      · rw [hsame.2, hlength, hsame.1]
      · exact hnodup.2
      · intro d hd
        have hne : d ≠ id := fun heq => hnodup.1 (heq ▸ hd)
        rw [hsame.1, hmade, if_neg fun h => hne h.1]
        exact hrest d hd
      · exact hstep

/-! ### Realization -/

/-- Either a dependency of an action has failed, or all of them have succeeded. -/
def Decided (x : Execution H ω) (id : ActionId) : Prop :=
  x.dependencyFailed id = true ∨ ∀ a, x.schedule.graph.action? id = some a →
    ∀ d ∈ a.dependencies, ∃ v, x.slotOf d = some (.ok v)

theorem Extends.decided (h : Extends x y) (hx : x.Decided id) :
    y.Decided id ∧ y.dependencyFailed id = x.dependencyFailed id := by
  cases hget : x.schedule.graph.action? id with
  | none =>
      have hget' : y.schedule.graph.action? id = none := by rw [h.schedule, hget]
      refine ⟨.inr fun a ha => ?_, ?_⟩
      · rw [hget'] at ha
        cases ha
      · simp only [dependencyFailed, hget, hget', Option.any_none]
  | some a =>
      have hget' : y.schedule.graph.action? id = some a := by rw [h.schedule, hget]
      rcases hx with hfailed | hok
      · obtain ⟨d, hd, e, he⟩ := (dependencyFailed_iff hget).mp hfailed
        have hfailed' : y.dependencyFailed id = true :=
          (dependencyFailed_iff hget').mpr ⟨d, hd, e, h.kept d _ he⟩
        exact ⟨.inl hfailed', hfailed'.trans hfailed.symm⟩
      · have hok' : ∀ d ∈ a.dependencies, ∃ v, y.slotOf d = some (.ok v) := by
          intro d hd
          obtain ⟨v, hv⟩ := hok a hget d hd
          exact ⟨v, h.kept d _ hv⟩
        refine ⟨.inr fun c hc => ?_, ?_⟩
        · rw [hget', Option.some.injEq] at hc
          exact hc ▸ hok'
        · rw [dependencyFailed_eq_false hget' hok', dependencyFailed_eq_false hget (hok a hget)]

/-- Settling an action tells of its failure, unless it could not be constructed and nothing blocks
it. -/
private theorem Settles.told {r : Outcome Realized} {events : List (Event H)}
    (h : Settles x a r events) (hget : x.schedule.graph.action? a.id = some a) :
    x.Decided a.id ∧ (∀ e ∈ events, ¬ e.Starts) ∧ events.filterMap Event.failed? =
      if (errorOf? r).isSome && (!x.constructionFailed a.id || x.dependencyFailed a.id)
      then [a.id] else [] := by
  have hdecided (hdeps : ∀ d ∈ a.dependencies, ∃ v, x.slotOf d = some (.ok v)) :
      x.Decided a.id := by
    refine .inr fun c hc => ?_
    rw [hget, Option.some.injEq] at hc
    exact hc ▸ hdeps
  cases h with
  | @blocked d cause hd hcause =>
      have hfailed : x.dependencyFailed a.id = true :=
        (dependencyFailed_iff hget).mpr ⟨d, hd, cause, hcause⟩
      refine ⟨.inl hfailed, List.forall_mem_singleton.mpr fun h => h, ?_⟩
      rw [hfailed, Bool.or_true]
      rfl
  | @refused e hdeps hbuilt =>
      have hfailed : x.constructionFailed a.id = true := constructionFailed_iff.mpr ⟨e, hbuilt⟩
      refine ⟨hdecided hdeps, List.forall_mem_nil _, ?_⟩
      rw [dependencyFailed_eq_false hget hdeps, hfailed]
      rfl
  | @pulled built r hdeps hbuilt hpull =>
      have hmade : x.constructionFailed a.id = false := by rw [constructionFailed, hbuilt]
      have hsilent : ∀ e ∈ built.pulls a.id, ¬ e.Starts ∧ e.failed? = none := by
        rcases built with ⟨handle, _ | _⟩ | ⟨handle, request⟩
        · exact List.forall_mem_nil _
        · exact List.forall_mem_singleton.mpr ⟨fun h => h, rfl⟩
        · exact List.forall_mem_singleton.mpr ⟨fun h => h, rfl⟩
      refine ⟨hdecided hdeps, ?_, ?_⟩
      · exact List.forall_mem_append.mpr
          ⟨fun e he => (hsilent e he).1, List.forall_mem_singleton.mpr fun h => h⟩
      · rw [hmade, dependencyFailed_eq_false hget hdeps, List.filterMap_append,
          List.filterMap_eq_nil_iff.mpr fun e he => (hsilent e he).2]
        cases r <;> rfl

structure Tally (x : Execution H ω) : Prop where
  length : x.slots.length = x.schedule.graph.size
  counted : ∀ p : Progress, (x.journal.foldl Progress.observe p).failed = x.notices.length
  decided : ∀ id r, x.slotOf id = some r → x.Decided id
  told : ∀ id, x.notices.count id = (x.constructionFailed id).toNat +
    (x.realizationFailed id && (!x.constructionFailed id || x.dependencyFailed id)).toNat

private theorem Tally.counted_append (hx : x.Tally) {events : List (Event H)}
    (hevents : ∀ e ∈ events, ¬ e.Starts) (p : Progress) :
    ((x.journal ++ events).foldl Progress.observe p).failed =
      ((x.journal ++ events).filterMap Event.failed?).length := by
  rw [List.foldl_append, Progress.failed_foldl hevents, hx.counted p, List.filterMap_append,
    List.length_append, notices]

/-- An action that is settled is the only one of which more is told. -/
private theorem Tally.told_settle (hx : x.Tally) (hlater : Extends x y) {r : Outcome Realized}
    (hslot : x.slotOf id = none) (hdecided : x.Decided id)
    (hslots : ∀ i, y.slotOf i = if i = id then some r else x.slotOf i)
    (hnotices : y.notices = x.notices ++
      if (errorOf? r).isSome && (!x.constructionFailed id || x.dependencyFailed id) then [id]
      else [])
    (i : ActionId) : y.notices.count i = (y.constructionFailed i).toNat +
      (y.realizationFailed i && (!y.constructionFailed i || y.dependencyFailed i)).toNat := by
  have hconstruction : y.constructionFailed i = x.constructionFailed i := by
    rw [constructionFailed, constructionFailed, hlater.builtOf]
  rw [hnotices, count_append_told, hx.told i, hconstruction]
  by_cases hi : i = id
  · subst hi
    have hbefore : x.realizationFailed i = false := by rw [realizationFailed, hslot]
    have hafter : y.realizationFailed i = (errorOf? r).isSome := by
      rw [realizationFailed, hslots, if_pos rfl]
      cases r <;> rfl
    rw [hbefore, hafter, (hlater.decided hdecided).2]
    simp
  · have hsame : y.slotOf i = x.slotOf i := by rw [hslots, if_neg hi]
    have hrealization : y.realizationFailed i = x.realizationFailed i := by
      rw [realizationFailed, realizationFailed, hsame]
    rw [hrealization, if_neg hi]
    -- Another action with a result was decided before, so the new result cannot block it any more.
    cases hr : x.slotOf i with
    | none => simp [realizationFailed, hr]
    | some r' => rw [(hlater.decided (hx.decided i r' hr)).2, Nat.add_zero]

theorem Step.tally (hstep : Step x y) (h : Wired x.schedule.graph.actions) (hx : x.Tally) :
    y.Tally := by
  have hlater := hstep.extends
  have hlength : y.slots.length = y.schedule.graph.size := by
    rw [hlater.length, hlater.schedule, hx.length]
  cases hstep with
  | write w context result =>
      refine ⟨hlength, hx.counted_append (List.forall_mem_singleton.mpr fun h => h), hx.decided,
        fun i => ?_⟩
      rw [notices, List.filterMap_append]
      exact (congrArg (List.count i) (List.append_nil _)).trans (hx.told i)
  | @settle id a r events hget hslot hsettles =>
      have hid : a.id = id := h.id_eq id a hget
      subst hid
      have hlt : a.id < x.slots.length := hx.length ▸ (List.getElem?_eq_some_iff.mp hget).1
      obtain ⟨hdecided, hevents, hfailed⟩ := hsettles.told hget
      have hslots (i : ActionId) : slotOf { x with
          journal := x.journal ++ events, slots := x.slots.set a.id (some r) } i =
          if i = a.id then some r else x.slotOf i := by
        rw [slotOf_set]
        simp only [hlt, and_true]
      refine ⟨hlength, hx.counted_append hevents, fun i r' hr' => (hlater.decided ?_).1,
        hx.told_settle hlater hslot hdecided hslots ?_⟩
      · rw [hslots] at hr'
        split at hr'
        · rename_i hi
          exact hi ▸ hdecided
        · exact hx.decided i r' hr'
      · rw [notices, List.filterMap_append, hfailed, notices]

theorem Steps.tally (hsteps : Steps x y) (h : Wired x.schedule.graph.actions) (hx : x.Tally) :
    y.Tally :=
  hsteps.invariant h (fun _ _ hstep hwired hy => hstep.tally hwired hy) hx

/-! ### The whole execution -/

section Reached

variable {t : SelectionTree} {namer : Namer} {options : BuildOptions} {regions : List (Region ω)}
  (ht : t.Reachable) (hs : Schedule.build t namer options regions = .ok s)
include ht hs

theorem tally_construct (b : Backend H) (output : ω) : (construct s b output).Tally := by
  obtain ⟨hwired, hready, -⟩ := Schedule.order_of_build ht hs
  have hslotted := slotted_construct ht hs b output
  have hnone (id : ActionId) : (construct s b output).slotOf id = none := by
    rw [slotOf, (constructed hwired hready b output).slots, List.getElem?_replicate]
    split <;> rfl
  refine ⟨?_, fun p => ?_, fun id r hr => ?_, fun id => ?_⟩
  · rw [hslotted.length, hslotted.schedule]
  · obtain ⟨notes, hjournal, hnotes⟩ := journal_construct ht hs b output
    have hevents : ∀ e ∈ notes, ¬ e.Starts := by
      intro e he
      obtain ⟨id, -, a, error, -, rfl⟩ := exists_aligned hnotes.flip he
      exact fun h => h
    rw [notices, hjournal, List.foldl_cons, Progress.failed_foldl hevents]
    exact Nat.zero_add _
  · rw [hnone] at hr
    cases hr
  · have hsequenced := Schedule.sequenced ht hs
    have hstart (i : ActionId) : (constructing s b output []).builtOf i = none := by
      rw [builtOf, constructing, List.foldl_nil, List.getElem?_replicate]
      split <;> rfl
    have hconstruction := notices_foldl (x := constructing s b output []) hwired
      List.length_replicate hsequenced.nodup
      (fun i hi => ⟨(hsequenced.mem_iff i).mp hi, hstart i⟩)
      (fun i => by rw [constructionFailed, hstart]; rfl) id
    rw [realizationFailed, hnone]
    exact hconstruction

theorem Reached.tally (hx : Reached s b x) : x.Tally := by
  obtain ⟨hwired, -⟩ := Schedule.order_of_build ht hs
  obtain ⟨output, hgoes⟩ := hx.steps ht hs
  refine hgoes.steps.tally ?_ (tally_construct ht hs b output)
  rw [(slotted_construct ht hs b output).schedule]
  exact hwired

theorem Reached.state_eq_failed (hx : Reached s b x) :
    x.state id = .failed ↔ x.constructionFailed id = true ∨ x.realizationFailed id = true := by
  obtain ⟨hsettled, hlength⟩ := (hx.known ht hs).toSlotted
  rw [state, constructionFailed, realizationFailed]
  cases hbuilt : x.builtOf id with
  | none =>
      cases hslot : x.slotOf id with
      | none =>
          cases x.schedule.graph.action? id with
          | none => simp
          | some a => simp only; split <;> simp
      | some r =>
          have hid : id < s.graph.size := hlength ▸ lt_length_of_slotOf hslot
          obtain ⟨made, hmade, -⟩ := hsettled.built id _ (List.getElem?_eq_getElem hid)
          rw [hbuilt] at hmade
          cases hmade
  | some made =>
      cases made with
      | error e => simp
      | ok built => rcases x.slotOf id with _ | (_ | _) <;> simp

theorem Reached.lt_of_failed (hx : Reached s b x) (hfailed : x.state id = .failed) :
    id < s.graph.size := by
  rcases (hx.state_eq_failed ht hs).mp hfailed with hconstruction | hrealization
  · obtain ⟨e, he⟩ := constructionFailed_iff.mp hconstruction
    obtain ⟨hwired, hready, -⟩ := Schedule.order_of_build ht hs
    obtain ⟨output, hgoes⟩ := hx.steps ht hs
    have hlength : x.built.length = s.graph.size := by
      rw [(Steps.extends hgoes.steps).built, (constructed hwired hready b output).length]
    by_contra hlt
    rw [builtOf, List.getElem?_eq_none (hlength ▸ Nat.le_of_not_lt hlt)] at he
    cases he
  · obtain ⟨e, he⟩ := realizationFailed_iff.mp hrealization
    exact (hx.known ht hs).length ▸ lt_length_of_slotOf he

/-- An action whose construction was blocked is blocked again when it is realized. -/
theorem Reached.failedTwice_of_blocked (hx : Reached s b x) {context : ActionContext}
    {root : Failure} (hbuilt : x.builtOf id = some (.error (.blocked context root)))
    (hslot : (x.slotOf id).isSome) : x.failedTwice id = true := by
  obtain ⟨hwired, -⟩ := Schedule.order_of_build ht hs
  have htally := hx.tally ht hs
  obtain ⟨hslotted, hattributed⟩ := hx.known ht hs
  have hsettled := hslotted.toSettled
  obtain ⟨r, hr⟩ := Option.isSome_iff_exists.mp hslot
  have hid : id < s.graph.size := hslotted.length ▸ lt_length_of_slotOf hr
  have ha : s.graph.actions[id]? = some s.graph.actions[id] := List.getElem?_eq_getElem hid
  generalize s.graph.actions[id] = a at ha
  have hget : x.schedule.graph.action? id = some a := hsettled.schedule ▸ ha
  have halong : b.constructAlong (lineage s.graph.actions id) = .error root := by
    obtain ⟨made, hmade, halong⟩ := hsettled.built id a ha
    rw [hbuilt, Option.some.injEq] at hmade
    rw [hsettled.backend, hsettled.schedule, ← hmade] at halong
    exact halong
  -- A result would need what could not be constructed.
  have herror : x.realizationFailed id = true := by
    cases r with
    | error e => exact realizationFailed_iff.mpr ⟨e, hr⟩
    | ok v =>
        obtain ⟨built, hok⟩ := Backend.constructAlong_of_realizeAlong (hsettled.slots id _ hr)
        rw [halong] at hok
        cases hok
  have hdependency : x.dependencyFailed id = true := by
    rcases htally.decided id r hr with hfailed | hok
    · exact hfailed
    · -- Behind results of all dependencies the failure would be the action's own.
      have holder : ∃ v, b.realizeAlong (a.input.elim [] (lineage s.graph.actions)) = .ok v := by
        cases hinput : a.input with
        | none => exact ⟨none, rfl⟩
        | some input =>
            obtain ⟨v, hv⟩ := hok a hget input (hwired.input_mem id a input ha hinput).2
            exact ⟨some v, hsettled.slots input _ hv⟩
      obtain ⟨v, hv⟩ := holder
      obtain ⟨parent, hparent⟩ := Backend.constructAlong_of_realizeAlong hv
      rw [hwired.lineage_eq ha] at halong
      have hown : root.context = a.context := Backend.context_of_constructAlong hparent halong
      have hblames : RealizationError.blocked context root = a.errorOf root :=
        (hattributed.built id a _ hget hbuilt).eq
      rw [Action.errorOf, if_pos hown] at hblames
      cases hblames
  rw [failedTwice, constructionFailed_iff.mpr ⟨_, hbuilt⟩, herror, hdependency]
  rfl

theorem Reached.failed_of_failedTwice (hx : Reached s b x) (hid : x.failedTwice id = true) :
    x.state id = .failed := by
  rw [failedTwice, Bool.and_eq_true, Bool.and_eq_true] at hid
  exact (hx.state_eq_failed ht hs).mpr (.inl hid.1.1)

theorem Reached.count_notices (hx : Reached s b x) (id : ActionId) : x.notices.count id =
    (if x.state id = .failed then 1 else 0) + if x.failedTwice id then 1 else 0 := by
  have hstate : x.state id = .failed ↔
      x.constructionFailed id = true ∨ x.realizationFailed id = true :=
    hx.state_eq_failed ht hs
  rw [(hx.tally ht hs).told id, failedTwice]
  cases hconstruction : x.constructionFailed id <;>
    cases hrealization : x.realizationFailed id <;>
    cases x.dependencyFailed id <;> simp [hstate, hconstruction, hrealization]

theorem Reached.length_notices (hx : Reached s b x) : x.notices.length =
    Finset.card {id ∈ Finset.range s.graph.size | x.state id = .failed} +
      Finset.card {id ∈ Finset.range s.graph.size | x.failedTwice id} := by
  have hmem : ∀ id ∈ (x.notices : Multiset ActionId), id ∈ Finset.range s.graph.size := by
    intro id hid
    have hpos : 0 < x.notices.count id := List.count_pos_iff.mpr hid
    rw [hx.count_notices ht hs] at hpos
    apply Finset.mem_range.mpr
    apply hx.lt_of_failed ht hs
    by_contra hstate
    have hnot : x.failedTwice id ≠ true := fun h => hstate (hx.failed_of_failedTwice ht hs h)
    simp [hstate, hnot] at hpos
  calc x.notices.length
      = ∑ id ∈ Finset.range s.graph.size, x.notices.count id := by
        simp only [← Multiset.coe_card, ← Multiset.coe_count, Multiset.sum_count_eq_card hmem]
    _ = _ := by
        simp only [hx.count_notices ht hs, Finset.sum_add_distrib, Finset.card_filter]

/-- What is told of the failures of an execution. -/
structure FailuresTold (s : Schedule ω) (x : Execution H ω) : Prop where
  /-- Of an action that has not failed nothing is told, and of one that has, it is told once or
  twice. -/
  told : ∀ id, x.notices.count id =
    if x.state id = .failed then if x.failedTwice id then 2 else 1 else 0
  counted : ∀ every, (Progress.ofJournal every x.journal).failed =
    Finset.card {id ∈ Finset.range s.graph.size | x.state id = .failed} +
      Finset.card {id ∈ Finset.range s.graph.size | x.failedTwice id}
  /-- The count is that of the failed actions as long as none has failed twice. -/
  exact_iff : ∀ every, (Progress.ofJournal every x.journal).failed =
      Finset.card {id ∈ Finset.range s.graph.size | x.state id = .failed} ↔
    ∀ id, x.failedTwice id = false
  /-- Whatever was blocked when it was constructed and has been realized since has failed twice. -/
  blocked : ∀ id context root, x.builtOf id = some (.error (.blocked context root)) →
    (x.slotOf id).isSome → x.failedTwice id = true

/-- However an execution goes on, progress counts the actions that have failed, and once more those
that could not be constructed and whose realization was blocked. -/
theorem failures_told (hx : Reached s b x) : FailuresTold s x where
  told := by
    intro id
    rw [hx.count_notices ht hs]
    by_cases hid : x.failedTwice id = true
    · simp [hid, hx.failed_of_failedTwice ht hs hid]
    · simp [hid]
  counted := by
    intro every
    rw [← hx.length_notices ht hs]
    exact (hx.tally ht hs).counted _
  exact_iff := by
    intro every
    have hcounted : (Progress.ofJournal every x.journal).failed = x.notices.length :=
      (hx.tally ht hs).counted _
    rw [hcounted, hx.length_notices ht hs, Nat.add_eq_left, Finset.card_eq_zero,
      Finset.filter_eq_empty_iff]
    constructor
    · intro hnone id
      by_contra hid
      rw [Bool.not_eq_false] at hid
      have hlt := hx.lt_of_failed ht hs (hx.failed_of_failedTwice ht hs hid)
      exact hnone (Finset.mem_range.mpr hlt) hid
    · intro hnone id _
      rw [hnone]
      exact Bool.false_ne_true
  blocked := by
    intro id context root hbuilt hslot
    exact hx.failedTwice_of_blocked ht hs hbuilt hslot

end Reached
/-- With an engine that fails at the score for `up`, the run tells of the signal under `up` again,
which could not be constructed either. -/
theorem failures_told_sample : ∃ s : Schedule Nat,
    Schedule.build Sample.tree Sample.namer {} Sample.regions = .ok s ∧
      let x := (Execution.construct s broken 0).run.2
      (∀ every, (Progress.ofJournal every x.journal).failed =
        Finset.card {id ∈ Finset.range s.graph.size | x.state id = .failed} +
          Finset.card {id ∈ Finset.range s.graph.size | x.failedTwice id}) ∧
        x.notices.count 3 = 1 ∧ x.notices.count 11 = 2 := by
  have hrun : ((Schedule.build Sample.tree Sample.namer {} Sample.regions).toOption.map fun s =>
      let x := (Execution.construct s broken 0).run.2
      [3, 11].map fun id => (x.state id, x.failedTwice id)) =
        some [(.failed, false), (.failed, true)] := by decide +kernel
  obtain ⟨s, hs, hstates⟩ := exists_ok_of_toOption hrun
  simp only [List.map_cons, List.map_nil, List.cons.injEq, Prod.mk.injEq, and_true] at hstates
  obtain ⟨⟨hscore, honce⟩, hsignal, htwice⟩ := hstates
  have htold := failures_told Sample.tree_reachable hs
    (.run (.construct 0) : Reached s broken (Execution.construct s broken 0).run.2)
  refine ⟨s, hs, htold.counted, ?_, ?_⟩
  · rw [htold.told, if_pos hscore, honce]
    rfl
  · rw [htold.told, if_pos hsignal, htwice]
    rfl

/-- Five actions of the sample fail, and progress counts six failures: the last one fails to be
constructed and is told of again when the run finds it blocked. -/
theorem failures_told_again : ∃ s : Schedule Nat,
    Schedule.build Sample.tree Sample.namer {} Sample.regions = .ok s ∧
      let x := (Execution.construct s broken 0).run.2
      (List.range s.graph.size).filter (fun id => x.state id = .failed) = [3, 4, 7, 8, 11] ∧
        x.notices = [3, 4, 7, 8, 11, 11] ∧ (Progress.ofJournal 1 x.journal).failed = 6 ∧
        (Progress.ofJournal 1 x.journal).failed ≠
          Finset.card {id ∈ Finset.range s.graph.size | x.state id = .failed} := by
  have hrun : ((Schedule.build Sample.tree Sample.namer {} Sample.regions).toOption.map fun s =>
      let x := (Execution.construct s broken 0).run.2
      ((List.range s.graph.size).filter (fun id => x.state id = .failed), x.notices,
        (Progress.ofJournal 1 x.journal).failed,
        Finset.card {id ∈ Finset.range s.graph.size | x.state id = .failed})) =
          some ([3, 4, 7, 8, 11], [3, 4, 7, 8, 11, 11], 6, 5) := by decide +kernel
  obtain ⟨s, hs, hcounts⟩ := exists_ok_of_toOption hrun
  simp only [Prod.mk.injEq] at hcounts
  obtain ⟨hfailed, hnotices, hprogress, hcard⟩ := hcounts
  refine ⟨s, hs, hfailed, hnotices, hprogress, ?_⟩
  rw [hprogress, hcard]
  decide

end Execution
end SelectionPlan
