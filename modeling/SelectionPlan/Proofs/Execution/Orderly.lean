import SelectionPlan.Proofs.Execution.Reached
import SelectionPlan.Proofs.Graph.Linear

/-!
# Construction and realization keep to the shape of the graph

Construction never meets an action whose dependencies it has not tried, or whose input is no frame.
Realization ends without asking for the result of an action that is still being worked out.
-/

namespace SelectionPlan

theorem ReadyOrder.split {actions : List Action} {placed done rest : List Nat}
    (h : ReadyOrder actions placed (done ++ rest)) :
    ReadyOrder actions placed done ∧ ReadyOrder actions (placed ++ done) rest := by
  induction done generalizing placed with
  | nil => exact ⟨trivial, by simpa using h⟩
  | cons id done ih =>
      obtain ⟨hfresh, hready, htail⟩ := h
      obtain ⟨hdone, hrest⟩ := ih htail
      exact ⟨⟨hfresh, hready, hdone⟩, by simpa using hrest⟩

namespace Execution

variable {H ω : Type}

/-- The construction of every dependency of an action has been tried, and if that of its input
succeeded it gave a frame. -/
structure CanConstruct (x : Execution H ω) (a : Action) : Prop where
  tried : ∀ d ∈ a.dependencies, ∃ outcome, x.builtOf d = some outcome
  frame : ∀ input, a.input = some input → ∀ made, x.builtOf input = some (.ok made) →
    ∃ handle counted, made = .frame handle counted

mutual

/-- How an action is realized while the results of the actions in `busy` are being worked out: a
result that is kept is taken, and otherwise the dependencies come first.  There is no rule for an
action whose result is being worked out. -/
inductive Realizing : (busy : List ActionId) → ActionId → Execution H ω →
    Outcome Realized × Execution H ω → Prop
  | kept {busy : List ActionId} {id : ActionId} {x : Execution H ω} {a : Action}
      {result : Outcome Realized} :
      x.schedule.graph.action? id = some a → id ∉ busy → x.slotOf id = some result →
      Realizing busy id x (result, x)
  | blocked {busy : List ActionId} {id : ActionId} {x y : Execution H ω} {a : Action}
      {cause : RealizationError} :
      x.schedule.graph.action? id = some a → id ∉ busy → x.slotOf id = none →
      RealizingAll (id :: busy) a.dependencies x (some cause, y) →
      Realizing busy id x (.error (.ofCause a cause),
        { y.record (.realized a (some (.ofCause a cause))) with
          slots := y.slots.set id (some (.error (.ofCause a cause))) })
  | pulled {busy : List ActionId} {id : ActionId} {x y : Execution H ω} {a : Action} :
      x.schedule.graph.action? id = some a → id ∉ busy → x.slotOf id = none →
      RealizingAll (id :: busy) a.dependencies x (none, y) →
      Realizing busy id x ((y.pullAction a).1,
        { (y.pullAction a).2 with
          slots := (y.pullAction a).2.slots.set id (some (y.pullAction a).1) })

inductive RealizingAll : (busy : List ActionId) → List ActionId → Execution H ω →
    Option RealizationError × Execution H ω → Prop
  | nil {busy : List ActionId} {x : Execution H ω} : RealizingAll busy [] x (none, x)
  | stop {busy ids : List ActionId} {id : ActionId} {x y : Execution H ω}
      {cause : RealizationError} : Realizing busy id x (.error cause, y) →
      RealizingAll busy (id :: ids) x (some cause, y)
  | next {busy ids : List ActionId} {id : ActionId} {x y : Execution H ω} {value : Realized}
      {result : Option RealizationError × Execution H ω} : Realizing busy id x (.ok value, y) →
      RealizingAll busy ids y result → RealizingAll busy (id :: ids) x result

end

variable {s : Schedule ω} {b : Backend H} {x : Execution H ω} {a : Action}

theorem realizingAll_firstFailure {busy ids : List ActionId}
    {f : ActionId → Execution H ω → Outcome Realized × Execution H ω}
    (h : ∀ id ∈ ids, ∀ y, Settled s b y → Realizing busy id y (f id y) ∧ Settled s b (f id y).2)
    (hx : Settled s b x) : RealizingAll busy ids x (firstFailure f ids x) := by
  induction ids generalizing x with
  | nil => exact .nil
  | cons id ids ih =>
      obtain ⟨hstep, hsettled⟩ := h id List.mem_cons_self x hx
      rw [firstFailure]
      rcases hf : f id x with ⟨result, y⟩
      rw [hf] at hstep hsettled
      cases result with
      | error cause => exact .stop hstep
      | ok value =>
          exact .next hstep (ih (fun i hi => h i (List.mem_cons_of_mem id hi)) hsettled)

/-- When its turn comes, every action can be constructed. -/
theorem canConstruct (h : Wired s.graph.actions) (horder : ReadyOrder s.graph.actions [] s.order)
    (output : ω) {done rest : List ActionId} {id : ActionId}
    (hsplit : s.order = done ++ id :: rest) :
    ∃ a, s.graph.actions[id]? = some a ∧ (constructing s b output done).CanConstruct a := by
  rw [hsplit] at horder
  obtain ⟨hdone, -, ⟨a, ha, hdeps⟩, -⟩ := horder.split
  rw [List.nil_append] at hdeps
  have hconstructed := constructed_of_ready h hdone b output
  refine ⟨a, ha, fun d hd => ?_, fun input hinput made hmade => ?_⟩
  · obtain ⟨outcome, houtcome, -⟩ := hconstructed.built d (hdeps hd)
    exact ⟨outcome, houtcome⟩
  · have hbuilt := hconstructed.built input (hdeps (h.input_mem id a input ha hinput).2)
    have hframe := h.input_frame id a input ha hinput
    rw [← hconstructed.schedule] at hframe h
    exact hbuilt.exists_frame h.toLinked hframe hmade

/-- Numbers fall on the way to dependencies, so no action is met again. -/
theorem realizing_realizeWithin (h : Wired s.graph.actions) {bound id : Nat} (hlt : id < bound)
    (ha : s.graph.actions[id]? = some a) (hx : Settled s b x) {busy : List ActionId}
    (hbusy : ∀ i ∈ busy, id < i) : Realizing busy id x (realizeWithin bound id x) := by
  induction bound generalizing id a x busy with
  | zero => exact absurd hlt (Nat.not_lt_zero id)
  | succ bound ih =>
      have hget : x.schedule.graph.action? id = some a := by rw [hx.schedule]; exact ha
      have hfree : id ∉ busy := fun hmem => Nat.lt_irrefl id (hbusy id hmem)
      have hdeps : ∀ d ∈ a.dependencies, ∀ y, Settled s b y →
          Realizing (id :: busy) d y (realizeWithin bound d y) ∧
            Settled s b (realizeWithin bound d y).2 := by
        intro d hd y hy
        obtain ⟨c, hc, -, hless, -⟩ := h.dependency_lt ha hd
        have hbound : d < bound := Nat.lt_of_lt_of_le hless (Nat.le_of_lt_succ hlt)
        refine ⟨ih hbound hc hy ?_, (realizeWithin_realizes h hbound hc hy).2.1⟩
        intro i hi
        rcases List.mem_cons.mp hi with rfl | hi
        · exact hless
        · exact Nat.lt_trans hless (hbusy i hi)
      have hfirst := realizingAll_firstFailure hdeps hx
      rw [realizeWithin.eq_1 id x bound a hget]
      cases hslot : x.slotOf id with
      | some result => exact .kept hget hfree hslot
      | none =>
          rcases hfound : firstFailure (realizeWithin bound) a.dependencies x with ⟨failure, y⟩
          rw [hfound] at hfirst
          cases failure with
          | some cause => exact .blocked hget hfree hslot hfirst
          | none => exact .pulled hget hfree hslot hfirst

end Execution

namespace ActionGraph

variable {ω : Type} {t : SelectionTree} {namer : Namer} {options : BuildOptions}
  {regions : List (Region ω)} {g : ActionGraph}

/-- Every graph that is built depends along its chains of inputs.  So its actions can be ordered,
construction finds every action ready in its turn, and realizing an action ends without meeting one
that is being realized. -/
theorem orderly_of_build (ht : t.Reachable) (h : build t namer options regions = .ok g) :
    g.Linear ∧ ∃ s, Schedule.build t namer options regions = .ok s ∧ s.graph = g ∧
      constructionOrder g.actions = .ok s.order ∧
      ∀ (H : Type) (b : Backend H) (output : ω),
        (∀ done id rest, s.order = done ++ id :: rest → ∃ a, g.actions[id]? = some a ∧
          (Execution.constructing s b output done).CanConstruct a) ∧
        Execution.construct s b output = Execution.constructing s b output s.order ∧
        ∀ x, Execution.Reached s b x → ∀ (id : ActionId) (a : Action), g.actions[id]? = some a →
          Execution.Realizing [] id x (x.realize id) := by
  obtain ⟨p, accepted, d, -, -, -, -, hplan, hb⟩ := built_of_build ht h
  have hd := Planner.planAll_planned hb.lawful hb.sound.toLinked hplan
  obtain ⟨s, hs, rfl⟩ := Schedule.exists_build ht h
  obtain ⟨hwired, hready, -⟩ := Schedule.order_of_build ht hs
  obtain ⟨graph, order, hgraph, horder, rfl⟩ := Schedule.build_eq_ok.mp hs
  refine ⟨hb.linear hd, _, hs, rfl, horder, fun H b output => ⟨?_, rfl, ?_⟩⟩
  · intro done id rest hsplit
    exact Execution.canConstruct hwired hready output hsplit
  · intro x hx id a ha
    exact Execution.realizing_realizeWithin hwired (Nat.lt_succ_self id) ha (hx.settled ht hs)
      (by simp)

theorem orderly_of_build_sample : ∃ g,
    build Sample.tree Sample.namer {} Sample.regions = .ok g ∧ g.Linear ∧
      ∃ order, constructionOrder g.actions = .ok order := by
  obtain ⟨g, hg⟩ := Sample.exists_build
  obtain ⟨hlinear, s, -, -, horder, -⟩ := orderly_of_build Sample.tree_reachable hg
  exact ⟨g, hg, hlinear, s.order, horder⟩

end ActionGraph
end SelectionPlan
