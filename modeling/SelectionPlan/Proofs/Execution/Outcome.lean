import SelectionPlan.Proofs.Execution.Steps

/-!
# The result of an action

What realizing an action returns, errors included, is a matter of the backend and the graph.  An
error tells whether the action failed by itself or since it needs the one that did.
-/

namespace SelectionPlan

/-- How an action fails because of a failure: by itself, or since it needs the action that
failed. -/
def Action.errorOf (a : Action) (root : Failure) : RealizationError :=
  if root.context = a.context then .own root else .blocked a.context root

structure Action.Blames (a : Action) (e : RealizationError) : Prop where
  eq : e = a.errorOf e.root
  root_le : e.root.context.action ≤ a.id

namespace Action

variable {a : Action} {cause : RealizationError}

@[simp] theorem errorOf_root (a : Action) (root : Failure) : (a.errorOf root).root = root := by
  simp only [errorOf]
  split <;> rfl

theorem blames_ofBackend (a : Action) (e : BackendError) : a.Blames (.ofBackend a e) := by
  refine ⟨?_, le_refl a.id⟩
  change RealizationError.own ⟨a.context, e⟩ = a.errorOf ⟨a.context, e⟩
  rw [errorOf, if_pos rfl]

theorem blames_ofCause (h : cause.root.context.action < a.id) : a.Blames (.ofCause a cause) := by
  refine ⟨?_, le_of_lt h⟩
  have hne : cause.root.context ≠ a.context := fun heq => by
    rw [heq] at h
    exact Nat.lt_irrefl _ h
  change RealizationError.blocked a.context cause.root = a.errorOf cause.root
  rw [errorOf, if_neg hne]

end Action

def Backend.outcome {H : Type} (b : Backend H) (actions : List Action) (id : ActionId) :
    Outcome Realized :=
  match actions[id]?, b.answers actions id with
  | some a, .error root => .error (a.errorOf root)
  | some _, .ok (some result) => .ok result
  | _, _ => .error (.unknownAction id)

namespace Execution

variable {H ω : Type} {s : Schedule ω} {b : Backend H} {x y : Execution H ω} {a : Action}
  {e : RealizationError}

structure Attributed (x : Execution H ω) : Prop where
  built : ∀ id a e, x.schedule.graph.actions[id]? = some a → x.builtOf id = some (.error e) →
    a.Blames e
  kept : ∀ id a e, x.schedule.graph.actions[id]? = some a → x.slotOf id = some (.error e) →
    a.Blames e

section Construct

private theorem checkDependencies_error {ds : List ActionId}
    (h : x.checkDependencies a ds = .error e) :
    (∃ d ∈ ds, ∃ cause, x.builtOf d = some (.error cause) ∧ e = .ofCause a cause) ∨
      ∃ refusal, e = .ofBackend a refusal := by
  induction ds with
  | nil => cases h
  | cons d ds ih =>
      rw [checkDependencies] at h
      split at h
      · rcases ih h with ⟨d', hd', hcause⟩ | hrefusal
        · exact .inl ⟨d', List.mem_cons_of_mem d hd', hcause⟩
        · exact .inr hrefusal
      · rename_i cause hcause
        cases h
        exact .inl ⟨d, List.mem_cons_self, cause, hcause, rfl⟩
      · cases h
        exact .inr ⟨_, rfl⟩

private theorem inputFrame_error (h : x.inputFrame a = .error e) :
    ∃ refusal, e = .ofBackend a refusal := by
  rw [inputFrame] at h
  split at h
  · cases h
  · split at h
    · cases h
    · cases h
      exact ⟨_, rfl⟩

/-- An action that cannot be constructed is blocked by a dependency or refused by the backend. -/
theorem buildAction_error (h : x.buildAction a = .error e) :
    (∃ d ∈ a.dependencies, ∃ cause, x.builtOf d = some (.error cause) ∧ e = .ofCause a cause) ∨
      ∃ refusal, e = .ofBackend a refusal := by
  rw [buildAction_eq] at h
  cases hcheck : x.checkDependencies a a.dependencies with
  | error cause =>
      rw [hcheck] at h
      cases h
      exact checkDependencies_error hcheck
  | ok =>
      cases hinput : x.inputFrame a with
      | error cause =>
          rw [hcheck, hinput] at h
          cases h
          exact .inr (inputFrame_error hinput)
      | ok parent =>
          rw [hcheck, hinput] at h
          simp only [ok_bind] at h
          cases hcall : x.backend.constructCall a parent with
          | ok made =>
              rw [hcall] at h
              cases h
          | error refusal =>
              rw [hcall] at h
              cases h
              exact .inr ⟨refusal, rfl⟩

theorem Attributed.constructOne (h : Wired x.schedule.graph.actions) (hx : x.Attributed)
    (id : ActionId) : (x.constructOne id).Attributed := by
  cases hget : x.schedule.graph.action? id with
  | none =>
      rw [Execution.constructOne, hget]
      exact hx
  | some a =>
      have hmade := builtOf_constructOne hget
      rw [Execution.constructOne, hget] at hmade ⊢
      refine ⟨fun i c e (hc : x.schedule.graph.actions[i]? = some c) he => ?_, hx.kept⟩
      rw [hmade] at he
      split at he
      · rename_i hi
        obtain ⟨rfl, -⟩ := hi
        rw [ActionGraph.action?, hc, Option.some.injEq] at hget
        subst hget
        rw [Option.some.injEq] at he
        rcases buildAction_error he with ⟨d, hd, cause, hcause, rfl⟩ | ⟨refusal, rfl⟩
        · obtain ⟨c', hc', rfl, hlt, -⟩ := h.dependency_lt hc hd
          refine Action.blames_ofCause (lt_of_le_of_lt (hx.built _ _ _ hc' hcause).root_le ?_)
          rwa [h.id_eq i c hc]
        · exact Action.blames_ofBackend c refusal
      · exact hx.built i c e hc he

theorem attributed_construct (h : Wired s.graph.actions) (b : Backend H) (output : ω) :
    (construct s b output).Attributed := by
  have hfold (order : List ActionId) (x : Execution H ω) (hschedule : x.schedule = s)
      (hx : x.Attributed) : (order.foldl Execution.constructOne x).Attributed := by
    induction order generalizing x with
    | nil => exact hx
    | cons id order ih =>
        refine ih _ ?_ (hx.constructOne (hschedule ▸ h) id)
        rw [Execution.constructOne]
        cases x.schedule.graph.action? id <;> exact hschedule
  refine hfold s.order _ rfl ⟨fun id a e _ he => ?_, fun id a e _ he => ?_⟩
  · simp only [builtOf, List.getElem?_replicate] at he
    split at he <;> cases he
  · simp only [slotOf, List.getElem?_replicate] at he
    split at he <;> cases he

end Construct

theorem Step.attributed (hstep : Step x y) (h : Wired x.schedule.graph.actions)
    (hx : x.Attributed) : y.Attributed := by
  cases hstep with
  | write => exact ⟨hx.built, hx.kept⟩
  | @settle id a r events hget hslot hsettles =>
      refine ⟨hx.built, fun i c e (hc : x.schedule.graph.actions[i]? = some c) he => ?_⟩
      rw [slotOf_set] at he
      split at he
      · rename_i hi
        obtain ⟨rfl, -⟩ := hi
        rw [ActionGraph.action?, hc, Option.some.injEq] at hget
        subst hget
        rw [Option.some.injEq] at he
        have hid := h.id_eq i c hc
        cases hsettles with
        | @blocked d cause hd hcause =>
            cases he
            obtain ⟨c', hc', rfl, hlt, -⟩ := h.dependency_lt hc hd
            refine Action.blames_ofCause (lt_of_le_of_lt (hx.kept _ _ _ hc' hcause).root_le ?_)
            rwa [hid]
        | refused _ hbuilt =>
            cases he
            exact hx.built i c e hc (hid ▸ hbuilt)
        | pulled _ _ hpull =>
            rw [he] at hpull
            cases hcall : x.backend.pullCall _ with
            | ok value =>
                rw [hcall] at hpull
                cases hpull
            | error refusal =>
                rw [hcall] at hpull
                cases hpull
                exact Action.blames_ofBackend c refusal
      · exact hx.kept i c e hc he

theorem Steps.attributed (hsteps : Steps x y) (h : Wired x.schedule.graph.actions)
    (hx : x.Attributed) : y.Attributed :=
  hsteps.invariant h (fun _ _ hstep hwired hy => hstep.attributed hwired hy) hx

structure Known (s : Schedule ω) (b : Backend H) (x : Execution H ω) : Prop extends
    Slotted s b x where
  attributed : x.Attributed

section Known

variable (h : Wired s.graph.actions) (hx : Known s b x)
include h hx

theorem Known.goes (hy : Goes s b x y) : Known s b y :=
  ⟨hy.slotted, hy.steps.attributed (hx.schedule ▸ h) hx.attributed⟩

theorem Known.acts {ids : Set ActionId} (hy : Acts ids x y) : Known s b y :=
  hx.goes h (hy.goes h hx.toSlotted)

theorem Known.realize (id : ActionId) : Known s b (x.realize id).2 :=
  hx.goes h (realize_goes h hx.toSlotted id)

theorem Known.realize_eq (id : ActionId) : (x.realize id).1 = b.outcome s.graph.actions id := by
  cases ha : s.graph.actions[id]? with
  | none =>
      rw [realize_of_none (hx.schedule ▸ ha), Backend.outcome, ha]
  | some a =>
      have hanswer : b.answers s.graph.actions id = rooted (x.realize id).1 :=
        (realize_realizes h ha hx.toSettled).1
      have hkept := (realize_keeps h ha hx.toSlotted).kept
      cases hr : (x.realize id).1 with
      | ok value => simp only [Backend.outcome, ha, hanswer, hr, rooted_ok]
      | error e =>
          have hy := hx.realize h id
          rw [hr] at hkept
          have hblames := hy.attributed.kept id a e (hy.schedule ▸ ha) hkept
          simp only [Backend.outcome, ha, hanswer, hr, rooted_error]
          rw [← hblames.eq]

end Known

section Reached

variable {t : SelectionTree} {namer : Namer} {options : BuildOptions} {regions : List (Region ω)}

theorem Reached.known (ht : t.Reachable) (hs : Schedule.build t namer options regions = .ok s)
    (hx : Reached s b x) : Known s b x := by
  obtain ⟨hwired, -⟩ := Schedule.order_of_build ht hs
  obtain ⟨output, hgoes⟩ := hx.steps ht hs
  have hstart : Known s b (Execution.construct s b output) :=
    ⟨slotted_construct ht hs b output, attributed_construct hwired b output⟩
  exact hstart.goes hwired hgoes

end Reached

end Execution
end SelectionPlan
