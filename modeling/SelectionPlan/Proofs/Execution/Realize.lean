import SelectionPlan.Proofs.Execution.Construct

/-!
# Realizing actions

However realizations follow each other, an action comes to what its lineage comes to, and kept
results stay true.
-/

namespace SelectionPlan

def errorOf? {α : Type} : Outcome α → Option RealizationError
  | .ok _ => none
  | .error e => some e

def Built.pulls {H : Type} (id : ActionId) : Built H → List (Event H)
  | .frame handle true => [.pulled id handle none]
  | .frame _ false => []
  | .output handle request => [.pulled id handle (some request)]

/-- Trying one element after the other ends at the first that fails.  What every try keeps is kept,
and what the tries came to (`V`) stays true as far as they go on (`R`). -/
theorem firstFailure_spec {α σ ε β : Type} {I : σ → Prop} {R : σ → σ → Prop}
    {V : α → Except ε β → σ → Prop} {f : α → σ → Except ε β × σ} {as : List α}
    (hrefl : ∀ s, R s s) (htrans : ∀ s t u, R s t → R t u → R s u)
    (hstays : ∀ a r s t, V a r s → R s t → V a r t)
    (hf : ∀ a ∈ as, ∀ s, I s → I (f a s).2 ∧ R s (f a s).2 ∧ V a (f a s).1 (f a s).2)
    {s : σ} (hs : I s) : I (firstFailure f as s).2 ∧ R s (firstFailure f as s).2 ∧
      match (firstFailure f as s).1 with
      | none => ∀ a ∈ as, ∃ v, V a (.ok v) (firstFailure f as s).2
      | some e => ∃ a ∈ as, V a (.error e) (firstFailure f as s).2 := by
  induction as generalizing s with
  | nil => exact ⟨hs, hrefl s, by simp [firstFailure]⟩
  | cons a as ih =>
      obtain ⟨hI, hR, hV⟩ := hf a List.mem_cons_self s hs
      rw [firstFailure]
      rcases ha : f a s with ⟨r, t⟩
      rw [ha] at hI hR hV
      cases r with
      | error e => exact ⟨hI, hR, a, List.mem_cons_self, hV⟩
      | ok v =>
          obtain ⟨hI', hR', hcases⟩ := ih (fun c hc => hf c (List.mem_cons_of_mem a hc)) hI
          refine ⟨hI', htrans _ _ _ hR hR', ?_⟩
          simp only
          cases hfail : (firstFailure f as t).1 with
          | none =>
              rw [hfail] at hcases
              exact List.forall_mem_cons.mpr ⟨⟨v, hstays _ _ _ _ hV hR'⟩, hcases⟩
          | some e =>
              rw [hfail] at hcases
              obtain ⟨c, hc, herror⟩ := hcases
              exact ⟨c, List.mem_cons_of_mem a hc, herror⟩

namespace Execution

variable {H ω : Type} {s : Schedule ω} {b : Backend H} {x y z : Execution H ω} {a : Action}

/-- Every action has been constructed, and every kept result is that of the action's lineage. -/
structure Settled (s : Schedule ω) (b : Backend H) (x : Execution H ω) : Prop where
  schedule : x.schedule = s
  backend : x.backend = b
  built : ∀ id a, s.graph.actions[id]? = some a → x.HasBuilt id
  slots : ∀ id r, x.slotOf id = some r → b.realizeAlong (lineage s.graph.actions id) = rooted r

structure Quiet (x y : Execution H ω) : Prop where
  schedule : y.schedule = x.schedule
  backend : y.backend = x.backend
  built : y.built = x.built
  written : y.written = x.written
  output : y.output = x.output

theorem Quiet.refl (x : Execution H ω) : Quiet x x := ⟨rfl, rfl, rfl, rfl, rfl⟩

theorem Quiet.trans (h : Quiet x y) (h' : Quiet y z) : Quiet x z :=
  ⟨h'.schedule.trans h.schedule, h'.backend.trans h.backend, h'.built.trans h.built,
    h'.written.trans h.written, h'.output.trans h.output⟩

theorem Quiet.notes (x : Execution H ω) {events : List (Event H)}
    (h : ∀ e ∈ events, e.call? = none) :
    Quiet x { x with journal := x.journal ++ events } := by
  refine ⟨rfl, rfl, rfl, ?_, rfl⟩
  rw [Execution.written, List.filterMap_append, List.filterMap_eq_nil_iff.mpr h, List.append_nil]
  rfl

theorem Quiet.record (x : Execution H ω) {e : Event H} (he : e.call? = none) :
    Quiet x (x.record e) :=
  Quiet.notes x (List.forall_mem_singleton.mpr he)

theorem Settled.quiet (hx : Settled s b x) (h : Quiet x y) (hslots : ∀ id r, y.slotOf id = some r →
    b.realizeAlong (lineage s.graph.actions id) = rooted r) : Settled s b y := by
  refine ⟨h.schedule.trans hx.schedule, h.backend.trans hx.backend, fun id a ha => ?_, hslots⟩
  obtain ⟨r, hr, halong⟩ := hx.built id a ha
  refine ⟨r, ?_, ?_⟩
  · rw [← hr, builtOf, builtOf, h.built]
  · rw [h.backend, h.schedule, halong]

theorem Settled.of_constructed {output : ω} {placed : List Nat}
    (hx : Constructed s b output placed x)
    (hall : ∀ id a, s.graph.actions[id]? = some a → id ∈ placed) : Settled s b x := by
  refine ⟨hx.schedule, hx.backend, fun id a ha => hx.built id (hall id a ha), fun id r hr => ?_⟩
  rw [slotOf, hx.slots, List.getElem?_replicate] at hr
  split at hr <;> cases hr

theorem slotOf_set (x : Execution H ω) (journal : List (Event H)) {id : ActionId}
    (r : Outcome Realized) (i : ActionId) :
    ({ x with journal := journal, slots := x.slots.set id (some r) } : Execution H ω).slotOf i =
      if i = id ∧ id < x.slots.length then some r else x.slotOf i := by
  by_cases hi : i = id
  · subst hi
    by_cases hlt : i < x.slots.length
    · simp [slotOf, hlt]
    · simp [slotOf, hlt]
  · simp [slotOf, List.getElem?_set_ne (Ne.symm hi), hi]

theorem pullAction_of_built {built : Built H} (h : x.builtOf a.id = some (.ok built)) :
    x.pullAction a =
      let r := (x.backend.pullCall built).mapError (.ofBackend a)
      (r, { x with journal := x.journal ++ (built.pulls a.id ++ [.realized a (errorOf? r)]) }) := by
  simp only [pullAction, h, record]
  rcases built with ⟨handle, _ | _⟩ | ⟨handle, request⟩
  · rfl
  · simp only [Backend.pullCall, Built.pulls]
    cases x.backend.pullCount handle <;> simp [Except.map, Except.mapError, errorOf?]
  · simp only [Backend.pullCall, Built.pulls]
    cases x.backend.pull handle request <;> simp [Except.map, Except.mapError, errorOf?]

private theorem Quiet.pulls (x : Execution H ω) (a : Action) (built : Built H)
    (error : Option RealizationError) :
    Quiet x { x with journal := x.journal ++ (built.pulls a.id ++ [.realized a error]) } := by
  refine Quiet.notes x (List.forall_mem_append.mpr ⟨?_, List.forall_mem_singleton.mpr rfl⟩)
  rcases built with ⟨handle, _ | _⟩ | ⟨handle, request⟩
  · exact List.forall_mem_nil _
  · exact List.forall_mem_singleton.mpr rfl
  · exact List.forall_mem_singleton.mpr rfl

private theorem pullAction_rooted {id : Nat} {r : Option Realized} (h : Wired s.graph.actions)
    (hx : Settled s b x) (ha : s.graph.actions[id]? = some a)
    (hr : b.realizeAlong (a.input.elim [] (lineage s.graph.actions)) = .ok r) :
    b.realizeAlong (lineage s.graph.actions id) = rooted (x.pullAction a).1 ∧
      Quiet x (x.pullAction a).2 ∧ (x.pullAction a).2.slots = x.slots := by
  obtain ⟨made, hmade, halong⟩ := hx.built id a ha
  obtain ⟨parent, hparent⟩ := Backend.constructAlong_of_realizeAlong hr
  rw [hx.backend, hx.schedule, h.lineage_eq ha, Backend.constructAlong, hparent, ok_bind] at halong
  rw [← h.id_eq id a ha] at hmade
  rw [h.lineage_eq ha, Backend.realizeAlong_cons_of_ok hr hparent]
  cases hcall : b.constructCall a (parent.map Built.handle) with
  | error e =>
      cases made with
      | ok built => rw [hcall] at halong; cases halong
      | error cause =>
          rw [hcall, rooted_error] at halong
          simp only [pullAction, hmade, rooted_error]
          exact ⟨congrArg Except.error (Except.error.inj halong), Quiet.refl x, trivial⟩
  | ok built =>
      cases made with
      | error cause => rw [hcall] at halong; cases halong
      | ok built' =>
          rw [hcall] at halong
          cases halong
          rw [pullAction_of_built hmade]
          refine ⟨?_, Quiet.pulls x a built _, rfl⟩
          rw [hx.backend]
          simp only
          cases b.pullCall built <;> rfl

def Realizes (s : Schedule ω) (b : Backend H) (id : Nat) (x : Execution H ω)
    (result : Outcome Realized × Execution H ω) : Prop :=
  b.realizeAlong (lineage s.graph.actions id) = rooted result.1 ∧ Settled s b result.2 ∧
    Quiet x result.2

private theorem Settled.keep {id : Nat} {r : Outcome Realized} (hx : Settled s b x)
    (hr : b.realizeAlong (lineage s.graph.actions id) = rooted r) :
    Settled s b { x with slots := x.slots.set id (some r) } := by
  refine hx.quiet ⟨rfl, rfl, rfl, rfl, rfl⟩ fun i r' hr' => ?_
  rw [slotOf_set x x.journal] at hr'
  split at hr'
  · rename_i hi
    cases hr'
    rw [hi.1]
    exact hr
  · exact hx.slots i r' hr'

theorem realizeWithin_realizes (h : Wired s.graph.actions) {bound id : Nat} (hlt : id < bound)
    (ha : s.graph.actions[id]? = some a) (hx : Settled s b x) :
    Realizes s b id x (realizeWithin bound id x) := by
  induction bound generalizing id a x with
  | zero => exact absurd hlt (Nat.not_lt_zero id)
  | succ bound ih =>
      have hget : x.schedule.graph.action? id = some a := by rw [hx.schedule]; exact ha
      rw [realizeWithin.eq_1 id x bound a hget]
      cases hslot : x.slotOf id with
      | some r => exact ⟨hx.slots id r hslot, hx, Quiet.refl x⟩
      | none =>
          have hdeps : ∀ d ∈ a.dependencies, ∀ x, Settled s b x →
              let result := realizeWithin bound d x
              Settled s b result.2 ∧ Quiet x result.2 ∧
                b.realizeAlong (lineage s.graph.actions d) = rooted result.1 := by
            intro d hd x hx
            obtain ⟨c, hc, -, hless, -⟩ := h.dependency_lt ha hd
            obtain ⟨halong, hsettled, hquiet⟩ :=
              ih (Nat.lt_of_lt_of_le hless (Nat.le_of_lt_succ hlt)) hc hx
            exact ⟨hsettled, hquiet, halong⟩
          obtain ⟨hsettled, hquiet, hcases⟩ := firstFailure_spec (R := Quiet)
            (V := fun d r _ => b.realizeAlong (lineage s.graph.actions d) = rooted r) Quiet.refl
            (fun _ _ _ => Quiet.trans) (fun _ _ _ _ halong _ => halong) hdeps hx
          rcases hfirst : firstFailure (realizeWithin bound) a.dependencies x with ⟨failure, y⟩
          rw [hfirst] at hsettled hquiet hcases
          cases failure with
          | some cause =>
              obtain ⟨d, hd, herror⟩ := hcases
              obtain ⟨-, -, -, -, hsuffix⟩ := h.dependency_lt ha hd
              have halong : b.realizeAlong (lineage s.graph.actions id) =
                  rooted (.error (.ofCause a cause) : Outcome Realized) := by
                rw [h.lineage_eq ha]
                exact Backend.realizeAlong_error_suffix
                  (hsuffix.trans (List.suffix_cons _ _)) herror
              have hrecord := hquiet.trans (Quiet.record y
                (e := .realized a (some (.ofCause a cause))) rfl)
              exact ⟨halong, (hsettled.quiet (Quiet.record y rfl) hsettled.slots).keep halong,
                hrecord.trans ⟨rfl, rfl, rfl, rfl, rfl⟩⟩
          | none =>
              have hok : ∃ r, b.realizeAlong (a.input.elim [] (lineage s.graph.actions)) =
                  .ok r := by
                cases hinput : a.input with
                | none => exact ⟨none, rfl⟩
                | some input =>
                    obtain ⟨value, hvalue⟩ := hcases input (h.input_mem id a input ha hinput).2
                    exact ⟨_, hvalue⟩
              obtain ⟨r, hr⟩ := hok
              obtain ⟨halong, hquiet', hslots⟩ := pullAction_rooted h hsettled ha hr
              have hpulled : Settled s b (y.pullAction a).2 :=
                hsettled.quiet hquiet' fun i r' hr' => hsettled.slots i r' (by
                  rw [slotOf, ← hslots]; exact hr')
              exact ⟨halong, hpulled.keep halong,
                (hquiet.trans hquiet').trans ⟨rfl, rfl, rfl, rfl, rfl⟩⟩

theorem realize_of_none {id : Nat} (ha : x.schedule.graph.action? id = none) :
    x.realize id = (.error (.unknownAction id), x) := by
  rw [realize, realizeWithin.eq_2]
  intro bound a _ hsome
  rw [ha] at hsome
  cases hsome

/-- Realizing an action of the graph gives what its lineage comes to. -/
theorem realize_realizes (h : Wired s.graph.actions) {id : Nat}
    (ha : s.graph.actions[id]? = some a) (hx : Settled s b x) :
    Realizes s b id x (x.realize id) :=
  realizeWithin_realizes h (Nat.lt_succ_self id) ha hx

end Execution
end SelectionPlan
