import SelectionPlan.Proofs.Execution.Isolation
import SelectionPlan.Proofs.Execution.Orderly
import SelectionPlan.Proofs.Execution.Outcome

/-!
# What the journal of an execution tells

Every action is constructed once and in order.  However realizations and runs follow each other, it
is pulled and realized at most once, and pulled only after everything it needs has been realized.
Once it has a result or an error it keeps it, and no call can tell which calls came before.
-/

namespace SelectionPlan

variable {H ω : Type}

namespace Event

def constructed? : Event H → Option Action
  | .constructed a _ => some a
  | _ => none

def pulled? : Event H → Option ActionId
  | .pulled id _ _ => some id
  | _ => none

def realized? : Event H → Option ActionId
  | .realized a _ => some a.id
  | _ => none

end Event

/-- How the state of an action may change. -/
inductive ActionState.Moves : ActionState → ActionState → Prop
  | stays (state : ActionState) : Moves state state
  | realized : Moves .constructed .realized
  | failed : Moves .constructed .failed

theorem ActionState.Moves.trans {first second third : ActionState} (h : first.Moves second)
    (h' : second.Moves third) : first.Moves third := by
  cases h with
  | stays => exact h'
  | realized =>
      cases h'
      exact .realized
  | failed =>
      cases h'
      exact .failed

/-- An order in which every action comes once, after everything it depends on. -/
structure Sequenced (actions : List Action) (order : List ActionId) : Prop where
  nodup : order.Nodup
  mem_iff : ∀ id, id ∈ order ↔ id < actions.length
  dependencies : ∀ before id after, order = before ++ id :: after → ∃ a, actions[id]? = some a ∧
    a.dependencies ⊆ before

theorem ReadyOrder.nodup {actions : List Action} {placed order : List Nat}
    (h : ReadyOrder actions placed order) : order.Nodup ∧ ∀ id ∈ order, id ∉ placed := by
  induction order generalizing placed with
  | nil => simp
  | cons id rest ih =>
      obtain ⟨hfresh, -, hrest⟩ := h
      obtain ⟨hnodup, hnew⟩ := ih hrest
      refine ⟨List.nodup_cons.mpr ⟨fun hmem => hnew id hmem (by simp), hnodup⟩, fun i hi => ?_⟩
      rcases List.mem_cons.mp hi with rfl | hi
      · exact hfresh
      · exact fun hplaced => hnew i hi (List.mem_append_left _ hplaced)

theorem Schedule.sequenced {t : SelectionTree} {namer : Namer} {options : BuildOptions}
    {regions : List (Region ω)} {s : Schedule ω} (ht : t.Reachable)
    (hs : build t namer options regions = .ok s) : Sequenced s.graph.actions s.order := by
  obtain ⟨-, hready, hall⟩ := order_of_build ht hs
  have hdependencies : ∀ before id after, s.order = before ++ id :: after →
      ∃ a, s.graph.actions[id]? = some a ∧ a.dependencies ⊆ before := by
    intro before id after hsplit
    rw [hsplit] at hready
    obtain ⟨-, -, hdeps, -⟩ := hready.split
    simpa using hdeps
  refine ⟨hready.nodup.1, fun id => ⟨fun hid => ?_, fun hid => ?_⟩, hdependencies⟩
  · obtain ⟨before, after, hsplit⟩ := List.append_of_mem hid
    obtain ⟨a, ha, -⟩ := hdependencies before id after hsplit
    exact (List.getElem?_eq_some_iff.mp ha).1
  · exact hall id _ (List.getElem?_eq_getElem hid)

namespace Execution

def Succeeded (actions : List Action) (journal : List (Event H)) (id : ActionId) : Prop :=
  ∃ a, actions[id]? = some a ∧ .realized a none ∈ journal

structure Ledger (x : Execution H ω) : Prop where
  length : x.slots.length = x.schedule.graph.size
  pulled_once : (x.journal.filterMap Event.pulled?).Nodup
  realized_once : (x.journal.filterMap Event.realized?).Nodup
  pulled_kept : ∀ id ∈ x.journal.filterMap Event.pulled?, (x.slotOf id).isSome
  realized_kept : ∀ id ∈ x.journal.filterMap Event.realized?, (x.slotOf id).isSome
  /-- Everything that a successful action needs has succeeded. -/
  succeeded : ∀ id v, x.slotOf id = some (.ok v) → ∀ i ∈ closure x.schedule.graph.actions id,
    Succeeded x.schedule.graph.actions x.journal i
  pulled_after : ∀ before id handle request after,
    x.journal = before ++ .pulled id handle request :: after →
      ∀ i ∈ closure x.schedule.graph.actions id, i ≠ id →
        Succeeded x.schedule.graph.actions before i

variable {s : Schedule ω} {b : Backend H} {x y : Execution H ω} {a : Action}
  {r : Outcome Realized} {events : List (Event H)}

theorem Succeeded.append {actions : List Action} {journal : List (Event H)} {id : ActionId}
    (h : Succeeded actions journal id) (more : List (Event H)) :
    Succeeded actions (journal ++ more) id := by
  obtain ⟨a, ha, hmem⟩ := h
  exact ⟨a, ha, List.mem_append_left more hmem⟩

/-! ### Settling an action -/

/-- Settling an action notes at most one pull and one result, both of this action. -/
private theorem Settles.noted (h : Settles x a r events) :
    (events.filterMap Event.pulled? = [] ∨ events.filterMap Event.pulled? = [a.id]) ∧
      (events.filterMap Event.realized? = [] ∨ events.filterMap Event.realized? = [a.id]) ∧
      events.filterMap Event.constructed? = [] := by
  cases h with
  | blocked => exact ⟨.inl rfl, .inr rfl, rfl⟩
  | refused => exact ⟨.inl rfl, .inl rfl, rfl⟩
  | @pulled built _ _ _ _ =>
      rcases built with ⟨handle, _ | _⟩ | ⟨handle, request⟩
      · exact ⟨.inl rfl, .inr rfl, rfl⟩
      · exact ⟨.inr rfl, .inr rfl, rfl⟩
      · exact ⟨.inr rfl, .inr rfl, rfl⟩

private theorem Settles.of_ok {v : Realized} (h : Settles x a (.ok v) events) :
    (∀ d ∈ a.dependencies, ∃ v, x.slotOf d = some (.ok v)) ∧ .realized a none ∈ events := by
  cases h with
  | pulled hdeps _ hpull => exact ⟨hdeps, List.mem_append_right _ (List.mem_singleton.mpr rfl)⟩

private theorem Settles.of_pulled (h : Settles x a r events) {before after : List (Event H)}
    {id : ActionId} {handle : H} {request : Option Request}
    (hsplit : events = before ++ .pulled id handle request :: after) :
    id = a.id ∧ before = [] ∧ ∀ d ∈ a.dependencies, ∃ v, x.slotOf d = some (.ok v) := by
  cases h with
  | blocked =>
      rcases List.singleton_eq_append_iff.mp hsplit with ⟨-, hcons⟩ | ⟨-, hcons⟩
      · simp at hcons
      · simp at hcons
  | refused => simp at hsplit
  | @pulled built _ hdeps _ _ =>
      rcases built with ⟨handle, _ | _⟩ | ⟨handle, request⟩
      all_goals rcases before with _ | ⟨_, _ | _⟩
      all_goals simp_all [Built.pulls]

/-- Whatever an action needs has succeeded once its dependencies have. -/
private theorem Ledger.needs (hx : x.Ledger) (h : Wired x.schedule.graph.actions) {id : ActionId}
    (ha : x.schedule.graph.actions[id]? = some a)
    (hdeps : ∀ d ∈ a.dependencies, ∃ v, x.slotOf d = some (.ok v)) :
    ∀ i ∈ closure x.schedule.graph.actions id, i ≠ id →
      Succeeded x.schedule.graph.actions x.journal i := by
  intro i hi hne
  rw [h.closure_eq ha] at hi
  obtain ⟨c, hc, rfl⟩ := mem_lineageIds.mp hi
  rw [h.lineage_eq ha, List.mem_cons] at hc
  rcases hc with rfl | hc
  · exact absurd (h.id_eq id c ha) hne
  · cases hinput : a.input with
    | none =>
        rw [hinput] at hc
        cases hc
    | some input =>
        rw [hinput, Option.elim_some] at hc
        obtain ⟨hlt, hmem⟩ := h.input_mem id a input ha hinput
        obtain ⟨v, hv⟩ := hdeps input hmem
        refine hx.succeeded input v hv c.id ?_
        rw [h.closure_eq (List.getElem?_eq_getElem hlt)]
        exact mem_lineageIds.mpr ⟨c, hc, rfl⟩

private theorem split_append {journal more before after : List (Event H)} {e : Event H}
    (h : journal ++ more = before ++ e :: after) :
    (∃ rest, journal = before ++ e :: rest) ∨
      ∃ between, before = journal ++ between ∧ more = between ++ e :: after := by
  rcases List.append_eq_append_iff.mp h with ⟨between, hbefore, hmore⟩ | ⟨rest, hjournal, hrest⟩
  · exact .inr ⟨between, hbefore, hmore⟩
  · cases rest with
    | nil => exact .inr ⟨[], by simpa using hjournal.symm, by simpa using hrest.symm⟩
    | cons e' rest =>
        obtain ⟨rfl, -⟩ := List.cons_eq_cons.mp hrest
        exact .inl ⟨rest, hjournal⟩

/-- What is noted at most once stays so if, at most, an action is noted that had no result and has
one now. -/
private theorem noted_once {note : Event H → Option ActionId} {events : List (Event H)}
    (hnodup : (x.journal.filterMap note).Nodup)
    (hkept : ∀ i ∈ x.journal.filterMap note, (x.slotOf i).isSome) (hlater : Extends x y)
    (hnew : events.filterMap note = [] ∨
      ∃ id, events.filterMap note = [id] ∧ x.slotOf id = none ∧ (y.slotOf id).isSome) :
    ((x.journal ++ events).filterMap note).Nodup ∧
      ∀ i ∈ (x.journal ++ events).filterMap note, (y.slotOf i).isSome := by
  have hold : ∀ i ∈ x.journal.filterMap note, (y.slotOf i).isSome := by
    intro i hi
    obtain ⟨r, hr⟩ := Option.isSome_iff_exists.mp (hkept i hi)
    rw [hlater.kept i r hr]
    rfl
  rw [List.filterMap_append]
  rcases hnew with hnone | ⟨id, hone, hslot, hsome⟩
  · rw [hnone, List.append_nil]
    exact ⟨hnodup, hold⟩
  · have hfree : id ∉ x.journal.filterMap note := fun hmem => by simpa [hslot] using hkept id hmem
    rw [hone, ← List.concat_eq_append, List.nodup_concat, List.concat_eq_append]
    exact ⟨⟨hfree, hnodup⟩, List.forall_mem_append.mpr
      ⟨hold, List.forall_mem_singleton.mpr hsome⟩⟩

private theorem Ledger.pulled_after_append (hx : x.Ledger) {events : List (Event H)}
    (hnew : ∀ before id handle request after,
      events = before ++ .pulled id handle request :: after →
      ∀ i ∈ closure x.schedule.graph.actions id, i ≠ id →
        Succeeded x.schedule.graph.actions (x.journal ++ before) i)
    {before after : List (Event H)} {id : ActionId} {handle : H} {request : Option Request}
    (hsplit : x.journal ++ events = before ++ .pulled id handle request :: after) :
    ∀ i ∈ closure x.schedule.graph.actions id, i ≠ id →
      Succeeded x.schedule.graph.actions before i := by
  rcases split_append hsplit with ⟨rest, hjournal⟩ | ⟨between, rfl, hmore⟩
  · exact hx.pulled_after before id handle request rest hjournal
  · exact hnew between id handle request after hmore

theorem Step.ledger (hstep : Step x y) (h : Wired x.schedule.graph.actions) (hx : x.Ledger) :
    y.Ledger := by
  have hlater := hstep.extends
  have hlength : y.slots.length = y.schedule.graph.size := by
    rw [hlater.length, hlater.schedule, hx.length]
  cases hstep with
  | write w context result =>
      have hsilent (call : WriterCall) : [Event.wrote (H := H) call].filterMap Event.pulled? = [] ∧
          [Event.wrote (H := H) call].filterMap Event.realized? = [] := ⟨rfl, rfl⟩
      obtain ⟨hpulled, hpulls⟩ :=
        noted_once hx.pulled_once hx.pulled_kept hlater (.inl (hsilent _).1)
      obtain ⟨hrealized, hresults⟩ :=
        noted_once hx.realized_once hx.realized_kept hlater (.inl (hsilent _).2)
      refine ⟨hlength, hpulled, hrealized, hpulls, hresults,
        fun id v hv i hi => (hx.succeeded id v hv i hi).append _, ?_⟩
      intro before id handle request after
      refine hx.pulled_after_append ?_
      rintro (_ | ⟨_, _ | _⟩) id handle request after hmore <;> simp at hmore
  | @settle id a r events hget hslot hsettles =>
      have ha : x.schedule.graph.actions[id]? = some a := hget
      have hid : a.id = id := h.id_eq id a ha
      have hlt : id < x.slots.length := hx.length ▸ (List.getElem?_eq_some_iff.mp ha).1
      have hset : (slotOf { x with
          journal := x.journal ++ events, slots := x.slots.set id (some r) } id).isSome := by
        rw [slotOf_set, if_pos ⟨rfl, hlt⟩]
        rfl
      obtain ⟨hnewPulls, hnewResults, -⟩ := hsettles.noted
      rw [hid] at hnewPulls hnewResults
      obtain ⟨hpulled, hpulls⟩ := noted_once hx.pulled_once hx.pulled_kept hlater
        (hnewPulls.imp_right fun hone => ⟨id, hone, hslot, hset⟩)
      obtain ⟨hrealized, hresults⟩ := noted_once hx.realized_once hx.realized_kept hlater
        (hnewResults.imp_right fun hone => ⟨id, hone, hslot, hset⟩)
      refine ⟨hlength, hpulled, hrealized, hpulls, hresults, fun i v hv j hj => ?_, ?_⟩
      · rw [slotOf_set] at hv
        split at hv
        · rename_i hi
          obtain ⟨rfl, -⟩ := hi
          rw [Option.some.injEq] at hv
          subst hv
          obtain ⟨hdeps, hnoted⟩ := hsettles.of_ok
          by_cases hj' : j = i
          · subst hj'
            exact ⟨a, ha, List.mem_append_right _ hnoted⟩
          · exact (hx.needs h ha hdeps j hj hj').append _
        · exact (hx.succeeded i v hv j hj).append _
      · intro before i handle request after
        refine hx.pulled_after_append fun before i handle request after hmore j hj hne => ?_
        obtain ⟨rfl, rfl, hdeps⟩ := hsettles.of_pulled hmore
        rw [hid] at hj hne
        rw [List.append_nil]
        exact hx.needs h ha hdeps j hj hne

theorem Steps.ledger (hsteps : Steps x y) (h : Wired x.schedule.graph.actions) (hx : x.Ledger) :
    y.Ledger :=
  hsteps.invariant h (fun _ _ hstep hwired hy => hstep.ledger hwired hy) hx

/-! ### The whole journal -/

structure Grows (x y : Execution H ω) (events : List (Event H)) : Prop where
  journal : y.journal = x.journal ++ events
  constructed : events.filterMap Event.constructed? = []

theorem Step.grows (hstep : Step x y) : ∃ events, Grows x y events := by
  cases hstep with
  | settle _ _ hsettles => exact ⟨_, rfl, hsettles.noted.2.2⟩
  | write => exact ⟨_, rfl, rfl⟩

theorem Steps.grows (hsteps : Steps x y) : ∃ events, Grows x y events := by
  induction hsteps with
  | refl => exact ⟨[], by simp, rfl⟩
  | tail _ hstep ih =>
      obtain ⟨events, hjournal, hnone⟩ := ih
      obtain ⟨more, hjournal', hnone'⟩ := hstep.grows
      refine ⟨events ++ more, ?_, ?_⟩
      · rw [hjournal', hjournal, List.append_assoc]
      · rw [List.filterMap_append, hnone, hnone', List.append_nil]

theorem Extends.moves (h : Extends x y) (id : ActionId) : (x.state id).Moves (y.state id) := by
  have hconstructed : y.isConstructed = x.isConstructed := by
    funext d
    rw [isConstructed, isConstructed, h.builtOf]
  simp only [state, h.builtOf, h.schedule, hconstructed]
  rcases x.builtOf id with _ | (_ | _)
  · exact .stays _
  · exact .stays _
  · cases hslot : x.slotOf id with
    | some r =>
        rw [h.kept id r hslot]
        exact .stays _
    | none =>
        rcases y.slotOf id with _ | (_ | _)
        · exact .stays _
        · exact .failed
        · exact .realized

/-! ### The journal of a construction -/

def Notes (actions : List Action) (id : ActionId) (e : Event H) : Prop :=
  ∃ a error, actions[id]? = some a ∧ e = .constructed a error

private theorem journal_foldl {order : List ActionId}
    (horder : ∀ id ∈ order, ∃ a, x.schedule.graph.actions[id]? = some a) :
    ∃ notes, (order.foldl constructOne x).journal = x.journal ++ notes ∧
      List.Forall₂ (Notes x.schedule.graph.actions) order notes := by
  induction order generalizing x with
  | nil => exact ⟨[], by simp, .nil⟩
  | cons id rest ih =>
      rw [List.forall_mem_cons] at horder
      obtain ⟨⟨a, ha⟩, hrest⟩ := horder
      have hget : x.schedule.graph.action? id = some a := ha
      have hstep : ∃ error, (x.constructOne id).journal = x.journal ++ [.constructed a error] ∧
          (x.constructOne id).schedule = x.schedule := by
        rw [constructOne, hget]
        exact ⟨_, rfl, rfl⟩
      obtain ⟨error, hjournal, hschedule⟩ := hstep
      obtain ⟨notes, hnotes, hall⟩ := ih (x := x.constructOne id) (by rwa [hschedule])
      rw [hschedule] at hall
      refine ⟨.constructed a error :: notes, ?_, .cons ⟨a, error, ha, rfl⟩ hall⟩
      rw [List.foldl_cons, hnotes, hjournal, List.append_assoc]
      rfl

section Reached

variable {t : SelectionTree} {namer : Namer} {options : BuildOptions} {regions : List (Region ω)}
  (ht : t.Reachable) (hs : Schedule.build t namer options regions = .ok s)
include ht hs

theorem journal_construct (b : Backend H) (output : ω) :
    ∃ notes, (construct s b output).journal = .started s.graph.size :: notes ∧
      List.Forall₂ (Notes s.graph.actions) s.order notes := by
  refine journal_foldl fun id hid => ?_
  have hlt := ((Schedule.sequenced ht hs).mem_iff id).mp hid
  exact ⟨_, List.getElem?_eq_getElem hlt⟩

theorem ledger_construct (b : Backend H) (output : ω) : (construct s b output).Ledger := by
  obtain ⟨hwired, hready, -⟩ := Schedule.order_of_build ht hs
  have hconstructed := constructed hwired hready b output
  obtain ⟨notes, hjournal, hnotes⟩ := journal_construct ht hs b output
  have hnone : ∀ id r, (construct s b output).slotOf id ≠ some r := by
    intro id r
    rw [slotOf, hconstructed.slots, List.getElem?_replicate]
    split <;> simp
  have hevents : ∀ e ∈ (construct s b output).journal,
      Event.pulled? e = none ∧ Event.realized? e = none := by
    intro e he
    rw [hjournal] at he
    rcases List.mem_cons.mp he with rfl | he
    · exact ⟨rfl, rfl⟩
    · obtain ⟨id, -, a, error, -, rfl⟩ := exists_aligned hnotes.flip he
      exact ⟨rfl, rfl⟩
  have hpulls : (construct s b output).journal.filterMap Event.pulled? = [] :=
    List.filterMap_eq_nil_iff.mpr fun e he => (hevents e he).1
  have hrealizations : (construct s b output).journal.filterMap Event.realized? = [] :=
    List.filterMap_eq_nil_iff.mpr fun e he => (hevents e he).2
  refine ⟨?_, ?_, ?_, ?_, ?_, fun id v hv => absurd hv (hnone id _), ?_⟩
  · rw [hconstructed.slots, hconstructed.schedule, List.length_replicate]
  · rw [hpulls]
    exact List.nodup_nil
  · rw [hrealizations]
    exact List.nodup_nil
  · simp [hpulls]
  · simp [hrealizations]
  · intro before id handle request after hsplit
    have hmem := (hevents (.pulled id handle request) (by simp [hsplit])).1
    cases hmem

theorem Reached.ledger (hx : Reached s b x) : x.Ledger := by
  obtain ⟨hwired, -⟩ := Schedule.order_of_build ht hs
  obtain ⟨output, hgoes⟩ := hx.steps ht hs
  refine hgoes.steps.ledger ?_ (ledger_construct ht hs b output)
  rw [(slotted_construct ht hs b output).schedule]
  exact hwired

theorem Reached.tried (hx : Reached s b x) {id : ActionId} (hid : id < s.graph.size) :
    x.state id = .constructed ∨ x.state id = .realized ∨ x.state id = .failed := by
  obtain ⟨r, hr, -⟩ := (hx.settled ht hs).built id _ (List.getElem?_eq_getElem hid)
  rw [state, hr]
  rcases r with e | built
  · exact .inr (.inr rfl)
  · rcases x.slotOf id with _ | (_ | _)
    · exact .inl rfl
    · exact .inr (.inr rfl)
    · exact .inr (.inl rfl)

/-- What the journal of an execution tells of its actions. -/
structure Chronicle (s : Schedule ω) (x : Execution H ω) : Prop where
  pulled_once : (x.journal.filterMap Event.pulled?).Nodup
  realized_once : (x.journal.filterMap Event.realized?).Nodup
  /-- Before an action is pulled, everything else that it needs has been realized. -/
  pulled_after : ∀ before id handle request after,
    x.journal = before ++ .pulled id handle request :: after →
      ∀ i ∈ closure s.graph.actions id, i ≠ id → Succeeded s.graph.actions before i
  tried : ∀ id < s.graph.size,
    x.state id = .constructed ∨ x.state id = .realized ∨ x.state id = .failed

/-- Construction notes every action once and in order.  Whatever is realized or run afterwards,
every action is pulled and realized at most once and in its turn, keeps its result or its error,
and answers as if nothing had been called before; so do runs. -/
theorem realized_at_most_once (b : Backend H) :
    Sequenced s.graph.actions s.order ∧
      (∀ output, ∃ notes,
        (Execution.construct s b output).journal = .started s.graph.size :: notes ∧
          List.Forall₂ (Notes s.graph.actions) s.order notes) ∧
      ∀ x, Reached s b x → Chronicle s x ∧
        (∀ id, (x.realize id).1 = b.outcome s.graph.actions id) ∧
        Handed x x.run.2 (s.handovers (b.answers s.graph.actions)) ∧
        ∀ y, Continues x y →
          (∃ events, Grows x y events) ∧ ∀ id, (x.state id).Moves (y.state id) := by
  obtain ⟨hwired, -⟩ := Schedule.order_of_build ht hs
  refine ⟨Schedule.sequenced ht hs, journal_construct ht hs b, fun x hx =>
    ⟨?_, (hx.known ht hs).realize_eq hwired, ?_, fun y hy => ?_⟩⟩
  · obtain ⟨hledger, hsettled⟩ := And.intro (hx.ledger ht hs) (hx.settled ht hs)
    refine ⟨hledger.pulled_once, hledger.realized_once, ?_, fun id hid => hx.tried ht hs hid⟩
    have hafter := hledger.pulled_after
    rwa [hsettled.schedule] at hafter
  · obtain ⟨hgraph, -⟩ := Schedule.graph_of_build hs
    obtain ⟨p, accepted, d, -, -, -, -, -, hbuilt⟩ := ActionGraph.built_of_build ht hgraph
    exact (run_spec hbuilt.wired hbuilt.within (hx.settled ht hs)).2.2
  · have hsteps := (hy.goes hwired (hx.known ht hs).toSlotted).steps
    exact ⟨Steps.grows hsteps, (Steps.extends hsteps).moves⟩

end Reached

/-- With an engine that fails, a second run and a number of no action change no answer. -/
theorem realized_at_most_once_sample : ∃ s : Schedule Nat,
    Schedule.build Sample.tree Sample.namer {} Sample.regions = .ok s ∧
      let x := ((Execution.construct s broken 0).run.2.realize s.graph.size).2.run.2
      (x.journal.filterMap Event.pulled?).Nodup ∧
        (x.realize 11).1 = ((Execution.construct s broken 0).realize 11).1 := by
  obtain ⟨g, hg⟩ := Sample.exists_build
  obtain ⟨s, hs, -⟩ := Schedule.exists_build Sample.tree_reachable hg
  obtain ⟨-, -, hreached⟩ := realized_at_most_once Sample.tree_reachable hs broken
  have hstart : Reached s broken (Execution.construct s broken 0) := .construct 0
  obtain ⟨hchronicle, hanswers, -⟩ := hreached _ (.run (.realize s.graph.size (.run hstart)))
  refine ⟨s, hs, hchronicle.pulled_once, ?_⟩
  rw [hanswers, (hreached _ hstart).2.1]

end Execution
end SelectionPlan
