import SelectionPlan.Execution.Hosted
import SelectionPlan.Proofs.Execution.Construct

/-!
# Remembering does not show

An engine implements a backend if the frames it makes stand for the same and it gives the answers of
the backend, whatever it has been asked for before.  An execution on it then goes as one on the
backend: it has the same results, tells the same, and writes the same.
-/

namespace SelectionPlan

variable {H α σ ω β : Type}

/-! ### Engines that implement a backend -/

/-- An engine makes a frame that stands for the one the backend makes, and holds it from then on. -/
structure Makes (meaning : H → α) (Holds : List H → σ → Prop) (held : List H)
    (made : Except BackendError H × σ) (expected : Except BackendError H) : Prop where
  same : made.1.map meaning = expected.map meaning
  holds : Holds (held ++ made.1.toOption.toList) made.2

/-- What a frame stands for decides the answers, and `Holds` is kept of the frames that were made
and of what the engine remembers. -/
structure LazyBackend.Implements (engine : LazyBackend H σ) (backend : Backend H)
    (meaning : H → α) (Holds : List H → σ → Prop) : Prop where
  source {held : List H} {state : σ} : Holds held state → ∀ id,
    Makes meaning Holds held (.ok (engine.source state).1, (engine.source state).2)
      (.ok (backend.source id))
  applyFilter {held : List H} {state : σ} {h h' : H} : Holds held state → h ∈ held →
    meaning h = meaning h' → ∀ id name predicate,
      Makes meaning Holds held (engine.applyFilter h name predicate state)
        (backend.applyFilter id h' name predicate)
  defineColumn {held : List H} {state : σ} {h h' : H} : Holds held state → h ∈ held →
    meaning h = meaning h' → ∀ id name definition,
      Makes meaning Holds held (engine.defineColumn h name definition state)
        (backend.defineColumn id h' name definition)
  pullCount {held : List H} {state : σ} {h h' : H} : Holds held state → h ∈ held →
    meaning h = meaning h' →
      (engine.pullCount h state).1 = backend.pullCount h' ∧ Holds held (engine.pullCount h state).2
  pull {held : List H} {state : σ} {h h' : H} : Holds held state → h ∈ held →
    meaning h = meaning h' → ∀ request,
      (engine.pull h request state).1 = backend.pull h' request ∧
        Holds held (engine.pull h request state).2

/-! ### Executions that go alike -/

inductive SameBuilt (meaning : H → α) (held : List H) :
    Option (Outcome (Built H)) → Option (Outcome (Built H)) → Prop
  | untried : SameBuilt meaning held none none
  | failed (e : RealizationError) : SameBuilt meaning held (some (.error e)) (some (.error e))
  | frame {h h' : H} (counted : Bool) : h ∈ held → meaning h = meaning h' →
      SameBuilt meaning held (some (.ok (.frame h counted))) (some (.ok (.frame h' counted)))
  | output {h h' : H} (request : Request) : h ∈ held → meaning h = meaning h' →
      SameBuilt meaning held (some (.ok (.output h request))) (some (.ok (.output h' request)))

inductive SameEvent (meaning : H → α) : Event H → Event H → Prop
  | same (e : Event H) : SameEvent meaning e e
  | pulled {h h' : H} (id : ActionId) (request : Option Request) : meaning h = meaning h' →
      SameEvent meaning (.pulled id h request) (.pulled id h' request)

theorem SameBuilt.mono {meaning : H → α} {held held' : List H}
    {r r' : Option (Outcome (Built H))} (h : SameBuilt meaning held r r') (hsub : held ⊆ held') :
    SameBuilt meaning held' r r' := by
  cases h with
  | untried => exact .untried
  | failed e => exact .failed e
  | frame counted hmem hsame => exact .frame counted (hsub hmem) hsame
  | output request hmem hsame => exact .output request (hsub hmem) hsame

theorem SameBuilt.at {meaning : H → α} {held : List H}
    {built built' : List (Option (Outcome (Built H)))}
    (h : List.Forall₂ (SameBuilt meaning held) built built') (id : ActionId) :
    SameBuilt meaning held (built[id]?).join (built'[id]?).join := by
  induction h generalizing id with
  | nil => exact .untried
  | cons hfirst _ ih =>
      cases id with
      | zero => exact hfirst
      | succ id => simpa only [List.getElem?_cons_succ] using ih id

theorem SameEvent.calls_eq {meaning : H → α} {events events' : List (Event H)}
    (h : List.Forall₂ (SameEvent meaning) events events') :
    events.filterMap Event.call? = events'.filterMap Event.call? := by
  induction h with
  | nil => rfl
  | cons hfirst _ ih => cases hfirst <;> simp only [List.filterMap_cons, ih, Event.call?]

theorem aligned_set {γ δ : Type} {R : γ → δ → Prop} {xs : List γ} {ys : List δ}
    (h : List.Forall₂ R xs ys) {a : γ} {b : δ} (hab : R a b) (i : Nat) :
    List.Forall₂ R (xs.set i a) (ys.set i b) := by
  induction h generalizing i with
  | nil => exact .nil
  | cons hfirst hrest ih =>
      cases i with
      | zero => exact .cons hab hrest
      | succ i => exact .cons hfirst (ih i)

/-- An execution on an engine that has gone as one on a backend. -/
structure Hosted.Follows (engine : LazyBackend H σ) (backend : Backend H) (meaning : H → α)
    (Holds : List H → σ → Prop) (x : Hosted H σ ω) (y : Execution H ω) : Prop where
  engine_eq : x.engine = engine
  backend_eq : y.backend = backend
  schedule_eq : x.schedule = y.schedule
  slots_eq : x.slots = y.slots
  output_eq : x.output = y.output
  journal : List.Forall₂ (SameEvent meaning) x.journal y.journal
  built : ∃ held, Holds held x.state ∧ List.Forall₂ (SameBuilt meaning held) x.built y.built

inductive Hosted.Alike (engine : LazyBackend H σ) (backend : Backend H) (meaning : H → α)
    (Holds : List H → σ → Prop) : β × Hosted H σ ω → β × Execution H ω → Prop
  | intro (result : β) {x : Hosted H σ ω} {y : Execution H ω} :
      Follows engine backend meaning Holds x y →
      Alike engine backend meaning Holds (result, x) (result, y)

namespace Hosted

variable {engine : LazyBackend H σ} {backend : Backend H} {meaning : H → α}
  {Holds : List H → σ → Prop} (himp : engine.Implements backend meaning Holds)
  {x : Hosted H σ ω} {y : Execution H ω}

namespace Follows

section

variable (h : Follows engine backend meaning Holds x y)
include h

theorem record {e e' : Event H} (he : SameEvent meaning e e') :
    Follows engine backend meaning Holds (x.record e) (y.record e') :=
  { h with journal := List.rel_append h.journal (.cons he .nil) }

theorem slotOf (id : ActionId) : x.view.slotOf id = y.slotOf id := by
  simp only [Execution.slotOf, view, h.slots_eq]

theorem setSlot (id : ActionId) (result : Outcome Realized) :
    Follows engine backend meaning Holds { x with slots := x.slots.set id (some result) }
      { y with slots := y.slots.set id (some result) } :=
  { h with slots_eq := by simp only [h.slots_eq] }

theorem written : x.view.written = y.written := SameEvent.calls_eq h.journal

end

theorem sameBuilt {held : List H}
    (h : List.Forall₂ (SameBuilt meaning held) x.built y.built) (id : ActionId) :
    SameBuilt meaning held (x.view.builtOf id) (y.builtOf id) := .at h id

end Follows

/-! ### Constructing -/

section Construct

variable {held : List H} (hbuilt : List.Forall₂ (SameBuilt meaning held) x.built y.built)
include hbuilt

theorem checkDependencies_eq (a : Action) (ids : List ActionId) :
    x.view.checkDependencies a ids = y.checkDependencies a ids := by
  induction ids with
  | nil => rfl
  | cons id rest ih =>
      have hid := Follows.sameBuilt hbuilt id
      simp only [Execution.checkDependencies]
      generalize x.view.builtOf id = r, y.builtOf id = r' at hid ⊢
      cases hid with
      | untried => rfl
      | failed => rfl
      | frame => exact ih
      | output => exact ih

theorem inputFrame_cases (a : Action) :
    (∃ e, x.view.inputFrame a = .error e ∧ y.inputFrame a = .error e) ∨
      (x.view.inputFrame a = .ok none ∧ y.inputFrame a = .ok none) ∨
      ∃ h h', x.view.inputFrame a = .ok (some h) ∧ y.inputFrame a = .ok (some h') ∧ h ∈ held ∧
        meaning h = meaning h' := by
  unfold Execution.inputFrame
  cases a.input with
  | none => exact .inr (.inl ⟨rfl, rfl⟩)
  | some input =>
      have hid := Follows.sameBuilt hbuilt input
      dsimp only
      generalize x.view.builtOf input = r, y.builtOf input = r' at hid ⊢
      cases hid with
      | untried => exact .inl ⟨_, rfl, rfl⟩
      | failed => exact .inl ⟨_, rfl, rfl⟩
      | frame counted hmem hsame => exact .inr (.inr ⟨_, _, rfl, rfl, hmem, hsame⟩)
      | output => exact .inl ⟨_, rfl, rfl⟩

/-- A construction on an engine that changes what the engine remembers and nothing else, and ends as
on a backend. -/
def Constructs (meaning : H → α) (Holds : List H → σ → Prop) (x : Hosted H σ ω)
    (y : Execution H ω) (r : Outcome (Built H) × Hosted H σ ω) (r' : Outcome (Built H)) : Prop :=
  ∃ state held, r.2 = { x with state } ∧ Holds held state ∧
    List.Forall₂ (SameBuilt meaning held) x.built y.built ∧
    SameBuilt meaning held (some r.1) (some r')

theorem take_constructs {made : Except BackendError H × σ} {expected : Except BackendError H}
    (h : Makes meaning Holds held made expected) (a : Action) (counted : Bool) :
    Constructs meaning Holds x y (x.take a counted made) (do
      let handle ← expected.mapError (RealizationError.ofBackend a)
      return .frame handle counted) := by
  obtain ⟨outcome, state⟩ := made
  obtain ⟨hsame, hholds⟩ := h
  have hsub := List.subset_append_left held outcome.toOption.toList
  have hkept := hbuilt.imp fun _ _ hb => hb.mono hsub
  cases outcome with
  | error e =>
      cases expected with
      | error e' =>
          cases hsame
          exact ⟨_, _, rfl, hholds, hkept, .failed _⟩
      | ok h' => cases hsame
  | ok h =>
      cases expected with
      | error e' => cases hsame
      | ok h' =>
          have hmeaning : meaning h = meaning h' := Except.ok.inj hsame
          exact ⟨_, _, rfl, hholds, hkept, .frame counted (by simp [Except.toOption]) hmeaning⟩

include himp in
theorem buildAction_constructs (hengine : x.engine = engine) (hbackend : y.backend = backend)
    (hholds : Holds held x.state) (a : Action) :
    Constructs meaning Holds x y (x.buildAction a) (y.buildAction a) := by
  have hsame {outcome : Outcome (Built H)}
      (h : SameBuilt meaning held (some outcome) (some outcome)) :
      Constructs meaning Holds x y (outcome, x) outcome := ⟨_, held, rfl, hholds, hbuilt, h⟩
  unfold buildAction Execution.buildAction
  rw [checkDependencies_eq hbuilt]
  cases hdeps : y.checkDependencies a a.dependencies with
  | error e => exact hsame (.failed e)
  | ok _ =>
      subst hengine hbackend
      rcases inputFrame_cases hbuilt a with ⟨e, hx, hy⟩ | ⟨hx, hy⟩ | ⟨h, h', hx, hy, hmem, hmeaning⟩
      · rw [hx, hy]
        exact hsame (.failed e)
      · rw [hx, hy]
        cases a.operation with
        | source => exact take_constructs hbuilt (himp.source hholds a.id) a true
        | _ => exact hsame (.failed _)
      · rw [hx, hy]
        cases a.operation with
        | source => exact take_constructs hbuilt (himp.source hholds a.id) a true
        | filter predicate =>
            exact take_constructs hbuilt
              (himp.applyFilter hholds hmem hmeaning a.id a.path predicate) a true
        | define _ column _ definition =>
            exact take_constructs hbuilt
              (himp.defineColumn hholds hmem hmeaning a.id column definition) a false
        | output _ _ _ request =>
            exact ⟨_, held, rfl, hholds, hbuilt, .output request hmem hmeaning⟩
        | statistics _ _ _ request =>
            exact ⟨_, held, rfl, hholds, hbuilt, .output request hmem hmeaning⟩

end Construct

section

include himp

theorem constructOne_follows (h : Follows engine backend meaning Holds x y) (id : ActionId) :
    Follows engine backend meaning Holds (x.constructOne id) (y.constructOne id) := by
  obtain ⟨held, hholds, hbuilt⟩ := h.built
  unfold constructOne Execution.constructOne
  rw [h.schedule_eq]
  cases y.schedule.graph.action? id with
  | none => exact h
  | some a =>
      have hconstructs := buildAction_constructs himp hbuilt h.engine_eq h.backend_eq hholds a
      dsimp only
      generalize x.buildAction a = r, y.buildAction a = r' at hconstructs ⊢
      obtain ⟨outcome, x'⟩ := r
      obtain ⟨state, held', hx', hholds', hbuilt', houtcome⟩ := hconstructs
      dsimp only at hx' houtcome
      subst hx'
      have hnote {error : Option RealizationError} :
          Follows engine backend meaning Holds
            { { x with state }.record (.constructed a error) with
              built := x.built.set id (some outcome) }
            { y.record (.constructed a error) with built := y.built.set id (some r') } :=
        { h.record (.same _) with
          built := ⟨held', hholds', aligned_set hbuilt' houtcome id⟩ }
      cases houtcome <;> exact hnote

theorem construct_follows {state : σ} (hstart : Holds [] state) (s : Schedule ω) (output : ω) :
    Follows engine backend meaning Holds (construct s engine state output)
      (Execution.construct s backend output) := by
  refine List.foldl_rel (r := Follows engine backend meaning Holds) ?_
    fun id _ _ _ h => constructOne_follows himp h id
  refine ⟨rfl, rfl, rfl, rfl, rfl, .cons (.same _) .nil, [], hstart, ?_⟩
  exact List.forall₂_same.mpr fun b hb => List.eq_of_mem_replicate hb ▸ .untried

end

/-! ### Realizing -/

section Realize

variable (h : Follows engine backend meaning Holds x y)
include h

theorem finish_alike (a : Action) (outcome : Except BackendError Realized) :
    Alike engine backend meaning Holds (x.finish a outcome) (match outcome with
      | .ok result => (.ok result, y.record (.realized a none))
      | .error e =>
        let error := RealizationError.ofBackend a e
        (.error error, y.record (.realized a (some error)))) := by
  cases outcome with
  | ok result => exact .intro _ (h.record (.same _))
  | error e => exact .intro _ (h.record (.same _))

include himp in
theorem pullAction_alike (a : Action) :
    Alike engine backend meaning Holds (x.pullAction a) (y.pullAction a) := by
  have hengine := h.engine_eq
  have hbackend := h.backend_eq
  subst hengine hbackend
  obtain ⟨held, hholds, hbuilt⟩ := h.built
  have hid := Follows.sameBuilt hbuilt a.id
  have hpulled {state : σ} (hholds : Holds held state) {f f' : H} {request : Option Request}
      (hmeaning : meaning f = meaning f') :
      Follows x.engine y.backend meaning Holds ({ x with state }.record (.pulled a.id f request))
        (y.record (.pulled a.id f' request)) :=
    { h.record (.pulled a.id request hmeaning) with built := ⟨held, hholds, hbuilt⟩ }
  unfold pullAction Execution.pullAction
  generalize x.view.builtOf a.id = r, y.builtOf a.id = r' at hid ⊢
  cases hid with
  | untried => exact finish_alike h a (.error _)
  | failed e => exact .intro _ h
  | frame counted hmem hmeaning =>
      cases counted with
      | false => exact finish_alike h a (.ok .defined)
      | true =>
          obtain ⟨hcount, hholds'⟩ := himp.pullCount hholds hmem hmeaning
          dsimp only
          rw [← hcount]
          exact finish_alike (hpulled hholds' hmeaning) a _
  | output request hmem hmeaning =>
      obtain ⟨hresult, hholds'⟩ := himp.pull hholds hmem hmeaning request
      dsimp only
      rw [← hresult]
      exact finish_alike (hpulled hholds' hmeaning) a _

omit h in
theorem firstFailure_alike {f : ActionId → Hosted H σ ω → Outcome Realized × Hosted H σ ω}
    {f' : ActionId → Execution H ω → Outcome Realized × Execution H ω}
    (hf : ∀ id {x : Hosted H σ ω} {y : Execution H ω}, Follows engine backend meaning Holds x y →
      Alike engine backend meaning Holds (f id x) (f' id y)) (ids : List ActionId)
    (h : Follows engine backend meaning Holds x y) :
    Alike engine backend meaning Holds (firstFailure f ids x) (firstFailure f' ids y) := by
  induction ids generalizing x y with
  | nil => exact .intro none h
  | cons id rest ih =>
      have hfirst := hf id h
      simp only [firstFailure]
      generalize f id x = r, f' id y = r' at hfirst ⊢
      cases hfirst with
      | intro result h =>
          cases result with
          | error e => exact .intro (some e) h
          | ok _ => exact ih h

include himp

theorem realizeWithin_alike (bound : Nat) (id : ActionId) :
    Alike engine backend meaning Holds (realizeWithin bound id x)
      (Execution.realizeWithin bound id y) := by
  induction bound generalizing id x y with
  | zero => exact .intro _ h
  | succ bound ih =>
      unfold realizeWithin Execution.realizeWithin
      rw [h.schedule_eq, h.slotOf]
      cases y.schedule.graph.action? id with
      | none => exact .intro _ h
      | some a =>
          dsimp only
          cases y.slotOf id with
          | some result => exact .intro result h
          | none =>
              have hdependencies := firstFailure_alike (fun id _ _ h => ih h id) a.dependencies h
              generalize firstFailure (realizeWithin bound) a.dependencies x = r,
                firstFailure (Execution.realizeWithin bound) a.dependencies y = r'
                at hdependencies ⊢
              cases hdependencies with
              | intro cause h =>
                  cases cause with
                  | some cause => exact .intro _ ((h.record (.same _)).setSlot id _)
                  | none =>
                      have hpull := pullAction_alike himp h a
                      dsimp only
                      generalize Hosted.pullAction _ a = r, Execution.pullAction _ a = r'
                        at hpull ⊢
                      cases hpull with
                      | intro result h => exact .intro result (h.setSlot id result)

theorem realize_alike (id : ActionId) :
    Alike engine backend meaning Holds (x.realize id) (y.realize id) :=
  realizeWithin_alike himp h (id + 1) id

theorem realizeCutflow_alike (plan : SystematicPlan) (filters : List (Nat × ActionId)) :
    Alike engine backend meaning Holds (realizeCutflow plan filters x)
      (Execution.realizeCutflow plan filters y) := by
  induction filters generalizing x y with
  | nil => exact .intro _ h
  | cons entry rest ih =>
      obtain ⟨node, filter⟩ := entry
      have hstep {x : Hosted H σ ω} {y : Execution H ω}
          (h : Follows engine backend meaning Holds x y) (events : Nat)
          (weighted : Option Materialized) :
          Alike engine backend meaning Holds
            ((realizeCutflow plan rest x).1.map
              (Execution.cutflowStep x.schedule node events weighted :: ·),
              (realizeCutflow plan rest x).2)
            ((Execution.realizeCutflow plan rest y).1.map
              (Execution.cutflowStep y.schedule node events weighted :: ·),
              (Execution.realizeCutflow plan rest y).2) := by
        have hrest := ih h
        rw [h.schedule_eq]
        generalize realizeCutflow plan rest x = r, Execution.realizeCutflow plan rest y = r'
          at hrest ⊢
        cases hrest with
        | intro steps h => exact .intro _ h
      have hfilter := realize_alike himp h filter
      unfold realizeCutflow Execution.realizeCutflow
      generalize x.realize filter = r, y.realize filter = r' at hfilter ⊢
      cases hfilter with
      | intro counted h =>
          cases counted with
          | error e => exact .intro _ h
          | ok counted =>
              cases lookupKey node plan.statistics with
              | none => exact hstep h _ none
              | some statistics =>
                  have hstatistics := realize_alike himp h statistics
                  dsimp only
                  generalize Hosted.realize _ statistics = r, Execution.realize _ statistics = r'
                    at hstatistics ⊢
                  cases hstatistics with
                  | intro result h =>
                      cases result with
                      | error e => exact .intro _ h
                      | ok result =>
                          cases result with
                          | output m => exact hstep h _ (some m)
                          | _ => exact hstep h _ none

theorem handOver_alike (region : RegionPlan) (s : Systematic) (plan : SystematicPlan)
    (writer : Writer ω) (result : Materialized) :
    Alike engine backend meaning Holds (x.handOver region s plan writer result)
      (y.handOver region s plan writer result) := by
  have hcutflow := realizeCutflow_alike himp h plan plan.filters
  unfold handOver Execution.handOver
  generalize realizeCutflow plan plan.filters x = r,
    Execution.realizeCutflow plan plan.filters y = r' at hcutflow ⊢
  cases hcutflow with
  | intro steps h =>
      cases steps with
      | error e => exact .intro _ h
      | ok steps =>
          dsimp only
          rw [h.schedule_eq, h.output_eq]
          exact .intro _ { h.record (.same _) with output_eq := rfl }

theorem runOutput_alike (region : RegionPlan) (s : Systematic) (plan : SystematicPlan)
    (writer : Option (Writer ω)) (id : ActionId) :
    Alike engine backend meaning Holds (x.runOutput region s plan writer id)
      (y.runOutput region s plan writer id) := by
  have hrealize := realize_alike himp h id
  unfold runOutput Execution.runOutput
  generalize x.realize id = r, y.realize id = r' at hrealize ⊢
  cases hrealize with
  | intro result h =>
      cases result with
      | error e => exact .intro _ h
      | ok realized =>
          cases realized with
          | output result =>
              cases writer with
              | none => exact .intro _ h
              | some w =>
                  have hhanded := handOver_alike himp h region s plan w result
                  dsimp only
                  generalize Hosted.handOver _ region s plan w result = r,
                    Execution.handOver _ region s plan w result = r' at hhanded ⊢
                  cases hhanded with
                  | intro written h =>
                      cases written with
                      | ok _ => exact .intro _ h
                      | error e => exact .intro _ h
          | _ => exact .intro _ h

theorem runOutputs_alike (region : RegionPlan) (writers : List (Writer ω))
    (outputs : List (Systematic × SystematicPlan × Nat × ActionId)) :
    Alike engine backend meaning Holds (runOutputs region writers outputs x)
      (Execution.runOutputs region writers outputs y) := by
  induction outputs generalizing x y with
  | nil => exact .intro _ h
  | cons output rest ih =>
      obtain ⟨s, plan, index, id⟩ := output
      have houtput := runOutput_alike himp h region s plan writers[index]? id
      unfold runOutputs Execution.runOutputs
      generalize x.runOutput region s plan writers[index]? id = r,
        y.runOutput region s plan writers[index]? id = r' at houtput ⊢
      cases houtput with
      | intro outcome h =>
          dsimp only
          split
          · exact .intro _ h
          · have hrest := ih h
            generalize runOutputs region writers rest _ = r,
              Execution.runOutputs region writers rest _ = r' at hrest ⊢
            cases hrest with
            | intro outcomes h => exact .intro _ h

theorem runRegions_alike (regions : List RegionPlan) :
    Alike engine backend meaning Holds (runRegions regions x)
      (Execution.runRegions regions y) := by
  induction regions generalizing x y with
  | nil => exact .intro _ h
  | cons region rest ih =>
      have houtputs := runOutputs_alike himp h region (y.schedule.writersOf region.name)
        (Execution.outputsOf region)
      unfold runRegions Execution.runRegions
      rw [h.schedule_eq]
      dsimp only
      generalize runOutputs region _ (Execution.outputsOf region) x = r,
        Execution.runOutputs region _ (Execution.outputsOf region) y = r' at houtputs ⊢
      cases houtputs with
      | intro outcomes h =>
          have hrest := ih h
          dsimp only
          generalize runRegions rest _ = r, Execution.runRegions rest _ = r' at hrest ⊢
          cases hrest with
          | intro reports h => exact .intro _ h

theorem run_alike : Alike engine backend meaning Holds x.run y.run := by
  have hregions := runRegions_alike himp h y.schedule.graph.regions
  unfold run Execution.run
  rw [h.schedule_eq]
  generalize runRegions y.schedule.graph.regions x = r,
    Execution.runRegions y.schedule.graph.regions y = r' at hregions ⊢
  cases hregions with
  | intro reports h =>
      dsimp only
      rw [h.schedule_eq]
      exact .intro _ h

end Realize
end Hosted

/-- An engine that implements a backend executes a schedule as the backend does. -/
theorem Schedule.executeOn_alike {engine : LazyBackend H σ} {backend : Backend H} {meaning : H → α}
    {Holds : List H → σ → Prop} (himp : engine.Implements backend meaning Holds) {state : σ}
    (hstart : Holds [] state) (s : Schedule ω) (output : ω) :
    Hosted.Alike engine backend meaning Holds (s.executeOn engine state output)
      (s.execute backend output) := by
  have hrun := Hosted.run_alike himp (Hosted.construct_follows himp hstart s output)
  unfold executeOn execute
  generalize (Hosted.construct s engine state output).run = r,
    (Execution.construct s backend output).run = r' at hrun ⊢
  cases hrun with
  | intro report h => exact .intro report (h.record (.same _))

end SelectionPlan
