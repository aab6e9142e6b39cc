import SelectionPlan.Proofs.Execution.Along
import SelectionPlan.Proofs.Schedule.Built

/-!
# Constructing every action

The construction order reaches every action after its dependencies, so every action is constructed
once, as along its lineage.
-/

namespace SelectionPlan

/-- An outcome with the failure that started it all for an error. -/
def rooted {α : Type} : Outcome α → Except Failure (Option α)
  | .ok value => .ok (some value)
  | .error e => .error e.root

@[simp] theorem rooted_ok {α : Type} (value : α) :
    rooted (.ok value : Outcome α) = .ok (some value) := rfl

@[simp] theorem rooted_error {α : Type} (e : RealizationError) :
    rooted (.error e : Outcome α) = .error e.root := rfl

def Event.call? {H : Type} : Event H → Option WriterCall
  | .wrote call => some call
  | _ => none

namespace Execution

def written {H ω : Type} (x : Execution H ω) : List WriterCall := x.journal.filterMap Event.call?

@[simp] theorem written_record {H ω : Type} (x : Execution H ω) (e : Event H) :
    (x.record e).written = x.written ++ e.call?.toList := by
  cases h : e.call? <;> simp [written, record, h]

variable {H ω : Type} {s : Schedule ω} {b : Backend H} {x : Execution H ω} {a : Action}

def HasBuilt (x : Execution H ω) (id : Nat) : Prop :=
  ∃ r, x.builtOf id = some r ∧
    x.backend.constructAlong (lineage x.schedule.graph.actions id) = rooted r

theorem buildAction_eq (x : Execution H ω) (a : Action) : x.buildAction a = (do
    x.checkDependencies a a.dependencies
    let parent ← x.inputFrame a
    (x.backend.constructCall a parent).mapError (.ofBackend a)) := by
  rw [buildAction]
  congr 1
  funext _
  congr 1
  funext parent
  have hmap {β : Type} (r : Except BackendError β) (f : β → Built H) :
      (do let handle ← r.mapError (.ofBackend a); return f handle) =
        ((r.map f).mapError (.ofBackend a) : Outcome (Built H)) := by
    cases r <;> rfl
  cases hop : a.operation with
  | source => cases parent <;> simp only [Backend.constructCall, hop] <;> rfl
  | filter predicate =>
      cases parent with
      | none => simp only [Backend.constructCall, hop]; rfl
      | some handle =>
          simp only [Backend.constructCall, hop]
          exact hmap _ fun handle => .frame handle true
  | define slot column name definition =>
      cases parent with
      | none => simp only [Backend.constructCall, hop]; rfl
      | some handle =>
          simp only [Backend.constructCall, hop]
          exact hmap _ fun handle => .frame handle false
  | output => cases parent <;> simp only [Backend.constructCall, hop] <;> rfl
  | statistics => cases parent <;> simp only [Backend.constructCall, hop] <;> rfl

/-- The first dependency that failed is the cause, if one failed. -/
private theorem checkDependencies_cases {ds : List Nat} (h : ∀ d ∈ ds, x.HasBuilt d) :
    (x.checkDependencies a ds = .ok () ∧ ∀ d ∈ ds, ∃ made, x.builtOf d = some (.ok made)) ∨
      ∃ d ∈ ds, ∃ cause, x.builtOf d = some (.error cause) ∧
        x.checkDependencies a ds = .error (.ofCause a cause) := by
  induction ds with
  | nil => exact .inl ⟨rfl, by simp⟩
  | cons d ds ih =>
      obtain ⟨r, hr, -⟩ := h d List.mem_cons_self
      simp only [checkDependencies, hr]
      cases r with
      | error cause => exact .inr ⟨d, List.mem_cons_self, cause, hr, rfl⟩
      | ok made =>
          rcases ih fun e he => h e (List.mem_cons_of_mem d he) with ⟨hok, hall⟩ | hfail
          · refine .inl ⟨hok, fun e he => ?_⟩
            rcases List.mem_cons.mp he with rfl | he
            · exact ⟨made, hr⟩
            · exact hall e he
          · obtain ⟨e, he, cause, hcause, herror⟩ := hfail
            exact .inr ⟨e, List.mem_cons_of_mem d he, cause, hcause, herror⟩

private theorem frame_of_constructCall {built parent} (htask : a.task.isSome)
    (h : b.constructCall a parent = .ok built) :
    ∃ handle counted, built = .frame handle counted := by
  cases hop : a.operation with
  | source =>
      simp only [Backend.constructCall, hop] at h
      cases h
      exact ⟨_, _, rfl⟩
  | filter predicate =>
      cases parent with
      | none => simp [Backend.constructCall, hop] at h
      | some parent =>
          simp only [Backend.constructCall, hop] at h
          cases hcall : b.applyFilter a.id parent a.path predicate <;> rw [hcall] at h <;> cases h
          exact ⟨_, _, rfl⟩
  | define slot column name definition =>
      cases parent with
      | none => simp [Backend.constructCall, hop] at h
      | some parent =>
          simp only [Backend.constructCall, hop] at h
          cases hcall : b.defineColumn a.id parent column definition <;> rw [hcall] at h <;> cases h
          exact ⟨_, _, rfl⟩
  | output => simp [Action.task, hop] at htask
  | statistics => simp [Action.task, hop] at htask

theorem HasBuilt.exists_frame {id : Nat} (hx : x.HasBuilt id) (hl : Linked x.schedule.graph.actions)
    (hframe : IsFrame x.schedule.graph.actions id) {made : Built H}
    (hmade : x.builtOf id = some (.ok made)) : ∃ handle counted, made = .frame handle counted := by
  obtain ⟨c, hc, htask⟩ := hframe
  obtain ⟨r, hr, halong⟩ := hx
  rw [hmade, Option.some.injEq] at hr
  subst hr
  rw [hl.lineage_eq hc] at halong
  obtain ⟨parent, built, -, hcall, hbuilt⟩ := Backend.constructAlong_cons_eq_ok.mp halong
  cases hbuilt
  exact frame_of_constructCall htask hcall

/-- An action whose dependencies have been constructed is constructed as along its lineage. -/
private theorem buildAction_rooted {id : Nat} (h : Wired x.schedule.graph.actions)
    (ha : x.schedule.graph.actions[id]? = some a) (hdeps : ∀ d ∈ a.dependencies, x.HasBuilt d) :
    x.backend.constructAlong (lineage x.schedule.graph.actions id) = rooted (x.buildAction a) := by
  rw [buildAction_eq, h.lineage_eq ha]
  cases hinput : a.input with
  | none =>
      have hempty : a.dependencies = [] := by
        refine List.eq_nil_iff_forall_not_mem.mpr fun d hd => ?_
        obtain ⟨input, hsome, -⟩ := h.dependency id a d ha hd
        rw [hinput] at hsome
        cases hsome
      have hcall (r : Except BackendError (Built H)) :
          (do let built ← r.mapError (Failure.mk a.context); return some built) =
            rooted (r.mapError (.ofBackend a) : Outcome (Built H)) := by
        cases r <;> rfl
      rw [hempty, inputFrame, hinput]
      exact hcall _
  | some input =>
      obtain ⟨-, hmem⟩ := h.input_mem id a input ha hinput
      obtain ⟨r, hr, halong⟩ := hdeps input hmem
      rw [Option.elim_some, Backend.constructAlong]
      rcases checkDependencies_cases hdeps with ⟨hcheck, hall⟩ | ⟨d, hd, cause, hcause, hcheck⟩
      · obtain ⟨made, hmade⟩ := hall input hmem
        obtain ⟨handle, counted, rfl⟩ :=
          (hdeps input hmem).exists_frame h.toLinked (h.input_frame id a input ha hinput) hmade
        rw [hr, Option.some.injEq] at hmade
        subst hmade
        rw [hcheck, halong, inputFrame, hinput]
        simp only [hr, rooted_ok, ok_bind, Option.map_some, Built.handle]
        cases x.backend.constructCall a (some handle) <;> rfl
      · obtain ⟨r', hr', halong'⟩ := hdeps d hd
        rw [hcause, Option.some.injEq] at hr'
        subst hr'
        obtain ⟨-, -, -, -, hsuffix⟩ := h.dependency_lt ha hd
        rw [hinput, Option.elim_some] at hsuffix
        rw [Backend.constructAlong_error_suffix hsuffix halong', hcheck]
        rfl

theorem builtOf_constructOne {id : Nat} (hget : x.schedule.graph.action? id = some a) (i : Nat) :
    (x.constructOne id).builtOf i =
      if i = id ∧ id < x.built.length then some (x.buildAction a) else x.builtOf i := by
  simp only [constructOne, hget, builtOf]
  by_cases hi : i = id
  · subst hi
    by_cases hlt : i < x.built.length
    · simp [hlt]
    · simp [hlt]
  · simp [List.getElem?_set_ne (Ne.symm hi), hi]

structure Constructed (s : Schedule ω) (b : Backend H) (output : ω) (placed : List Nat)
    (x : Execution H ω) : Prop where
  schedule : x.schedule = s
  backend : x.backend = b
  length : x.built.length = s.graph.size
  built : ∀ id ∈ placed, x.HasBuilt id
  slots : x.slots = List.replicate s.graph.size none
  written : x.written = []
  output_eq : x.output = output

variable {output : ω}

theorem Constructed.constructOne {placed : List Nat} {id : Nat} (h : Wired s.graph.actions)
    (hx : Constructed s b output placed x) (ha : s.graph.actions[id]? = some a)
    (hdeps : a.dependencies ⊆ placed) :
    Constructed s b output (placed ++ [id]) (x.constructOne id) := by
  obtain ⟨rfl, rfl, hlength, hbuilt, hslots, hwritten, houtput⟩ := hx
  have hlt : id < x.built.length := hlength ▸ (List.getElem?_eq_some_iff.mp ha).1
  have halong := buildAction_rooted h ha fun d hd => hbuilt d (hdeps hd)
  have hget : x.schedule.graph.action? id = some a := ha
  have hmade := builtOf_constructOne hget
  simp only [Execution.constructOne, hget] at hmade ⊢
  refine ⟨rfl, rfl, by simpa [record] using hlength, fun d hd => ?_, hslots, ?_, houtput⟩
  · by_cases hid : d = id
    · subst hid
      refine ⟨x.buildAction a, ?_, halong⟩
      rw [hmade, if_pos ⟨rfl, hlt⟩]
    · obtain ⟨r, hr, hd⟩ := hbuilt d (by simpa [hid] using hd)
      refine ⟨r, ?_, hd⟩
      rw [hmade, if_neg fun heq => hid heq.1, hr]
  · exact (written_record x _).trans (by rw [hwritten]; rfl)

theorem Constructed.foldl {placed order : List Nat} (h : Wired s.graph.actions)
    (hx : Constructed s b output placed x) (horder : ReadyOrder s.graph.actions placed order) :
    Constructed s b output (placed ++ order) (order.foldl Execution.constructOne x) := by
  induction order generalizing placed x with
  | nil => simpa using hx
  | cons id order ih =>
      obtain ⟨-, ⟨a, ha, hdeps⟩, hrest⟩ := horder
      simpa using ih (hx.constructOne h ha hdeps) hrest

def constructing (s : Schedule ω) (b : Backend H) (output : ω) (placed : List ActionId) :
    Execution H ω :=
  placed.foldl Execution.constructOne
    ⟨s, b, List.replicate s.graph.size none, List.replicate s.graph.size none,
      [.started s.graph.size], output⟩

theorem constructed_of_ready (h : Wired s.graph.actions) {placed : List ActionId}
    (horder : ReadyOrder s.graph.actions [] placed) (b : Backend H) (output : ω) :
    Constructed s b output placed (constructing s b output placed) := by
  have hstart : Constructed s b output []
      ⟨s, b, List.replicate s.graph.size none, List.replicate s.graph.size none,
        [.started s.graph.size], output⟩ := ⟨rfl, rfl, by simp, by simp, rfl, rfl, rfl⟩
  exact hstart.foldl h horder

theorem constructed (h : Wired s.graph.actions)
    (horder : ReadyOrder s.graph.actions [] s.order) (b : Backend H) (output : ω) :
    Constructed s b output s.order (construct s b output) :=
  constructed_of_ready h horder b output

end Execution
end SelectionPlan
