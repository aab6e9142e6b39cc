import SelectionPlan.Execution.Basic
import SelectionPlan.Proofs.Graph.Lineage
import SelectionPlan.Proofs.Triple

/-!
# Constructing and realizing along a lineage

What an action comes to depends on its lineage alone: every action is constructed on the frame of
the action before it, and an action has a result if all actions up to it have one.  The first action
of the lineage that fails by itself is to blame for a failure.
-/

namespace SelectionPlan

variable {H : Type}

def Built.handle : Built H → H
  | .frame handle _ => handle
  | .output handle _ => handle

namespace Backend

def constructCall (b : Backend H) (a : Action) (parent : Option H) :
    Except BackendError (Built H) :=
  match a.operation, parent with
  | .source, _ => .ok (.frame (b.source a.id) true)
  | .filter predicate, some parent =>
    (b.applyFilter a.id parent a.path predicate).map fun handle => .frame handle true
  | .define _ column _ definition, some parent =>
    (b.defineColumn a.id parent column definition).map fun handle => .frame handle false
  | .output _ _ _ request, some parent => .ok (.output parent request)
  | .statistics _ _ _ request, some parent => .ok (.output parent request)
  | _, none => .error (.construction a.label "action has no input frame")

/-- The call that pulls the result of a constructed action; a column is not pulled. -/
def pullCall (b : Backend H) : Built H → Except BackendError Realized
  | .frame handle true => (b.pullCount handle).map .count
  | .frame _ false => .ok .defined
  | .output handle request => (b.pull handle request).map .output

/-- Constructs the actions of a lineage, which has the newest action first. -/
def constructAlong (b : Backend H) : List Action → Except Failure (Option (Built H))
  | [] => .ok none
  | a :: older => do
    let parent ← b.constructAlong older
    let built ← (b.constructCall a (parent.map Built.handle)).mapError (Failure.mk a.context)
    return some built

def realizeAlong (b : Backend H) : List Action → Except Failure (Option Realized)
  | [] => .ok none
  | a :: older => do
    let _ ← b.realizeAlong older
    let parent ← b.constructAlong older
    let built ← (b.constructCall a (parent.map Built.handle)).mapError (Failure.mk a.context)
    let result ← (b.pullCall built).mapError (Failure.mk a.context)
    return some result

/-- The error of the newest action's own calls.  Its construction is not called for if an older
action cannot be constructed. -/
def ownError? (b : Backend H) : List Action → Option BackendError
  | [] => none
  | a :: older =>
    match b.constructAlong older with
    | .error _ => none
    | .ok parent =>
      match b.constructCall a (parent.map Built.handle) with
      | .error e => some e
      | .ok built =>
        match b.pullCall built with
        | .error e => some e
        | .ok _ => none

/-- The failure of the oldest action of a lineage that fails by itself. -/
def culprit? (b : Backend H) : List Action → Option Failure
  | [] => none
  | a :: older => (b.culprit? older).or ((b.ownError? (a :: older)).map (Failure.mk a.context))

variable {b : Backend H} {a : Action} {line older : List Action} {f : Failure}

theorem constructAlong_error_suffix (h : older <:+ line) (he : b.constructAlong older = .error f) :
    b.constructAlong line = .error f := by
  induction line with
  | nil =>
      rw [List.suffix_nil.mp h] at he
      exact he
  | cons a line ih =>
      rcases List.suffix_cons_iff.mp h with rfl | h
      · exact he
      · rw [constructAlong, ih h]
        rfl

theorem realizeAlong_error_suffix (h : older <:+ line) (he : b.realizeAlong older = .error f) :
    b.realizeAlong line = .error f := by
  induction line with
  | nil =>
      rw [List.suffix_nil.mp h] at he
      exact he
  | cons a line ih =>
      rcases List.suffix_cons_iff.mp h with rfl | h
      · exact he
      · rw [realizeAlong, ih h]
        rfl

theorem constructAlong_cons_eq_ok {r : Option (Built H)} :
    b.constructAlong (a :: older) = .ok r ↔ ∃ parent built, b.constructAlong older = .ok parent ∧
      b.constructCall a (parent.map Built.handle) = .ok built ∧ r = some built := by
  rw [constructAlong, bind_eq_ok]
  constructor
  · rintro ⟨parent, hparent, h⟩
    obtain ⟨built, hbuilt, h⟩ := bind_eq_ok.mp h
    cases hcall : b.constructCall a (parent.map Built.handle) with
    | error e =>
        rw [hcall] at hbuilt
        cases hbuilt
    | ok made =>
        rw [hcall] at hbuilt
        cases hbuilt
        cases h
        exact ⟨parent, _, hparent, hcall, rfl⟩
  · rintro ⟨parent, built, hparent, hcall, rfl⟩
    refine ⟨parent, hparent, ?_⟩
    rw [hcall]
    rfl

/-- A result needs the frames before it. -/
theorem constructAlong_of_realizeAlong {r : Option Realized} (h : b.realizeAlong line = .ok r) :
    ∃ built, b.constructAlong line = .ok built := by
  cases line with
  | nil => exact ⟨none, rfl⟩
  | cons a older =>
      rw [realizeAlong, bind_eq_ok] at h
      obtain ⟨-, -, h⟩ := h
      obtain ⟨parent, hparent, h⟩ := bind_eq_ok.mp h
      cases hcall : b.constructCall a (parent.map Built.handle) with
      | error e =>
          rw [hcall] at h
          cases h
      | ok built =>
          exact ⟨some built, constructAlong_cons_eq_ok.mpr ⟨parent, built, hparent, hcall, rfl⟩⟩

theorem realizeAlong_cons_of_ok {r : Option Realized} {parent : Option (Built H)}
    (hr : b.realizeAlong older = .ok r) (hparent : b.constructAlong older = .ok parent) :
    b.realizeAlong (a :: older) =
      match b.constructCall a (parent.map Built.handle) with
      | .error e => .error ⟨a.context, e⟩
      | .ok built =>
        match b.pullCall built with
        | .error e => .error ⟨a.context, e⟩
        | .ok result => .ok (some result) := by
  rw [realizeAlong, hr, ok_bind, hparent, ok_bind]
  cases b.constructCall a (parent.map Built.handle) with
  | error e => rfl
  | ok built =>
      simp only [Except.mapError, ok_bind]
      cases b.pullCall built <;> rfl

/-- An error along a lineage is the failure of the oldest action that fails by itself. -/
theorem realizeAlong_eq_error : b.realizeAlong line = .error f ↔ b.culprit? line = some f := by
  induction line generalizing f with
  | nil => simp [realizeAlong, culprit?]
  | cons a older ih =>
      rw [culprit?]
      cases hr : b.realizeAlong older with
      | error g =>
          rw [ih.mp hr, realizeAlong_error_suffix (List.suffix_cons a older) hr]
          simp
      | ok r =>
          have hnone : b.culprit? older = none := by
            refine Option.eq_none_iff_forall_ne_some.mpr fun g hg => ?_
            rw [ih.mpr hg] at hr
            cases hr
          obtain ⟨parent, hparent⟩ := constructAlong_of_realizeAlong hr
          rw [hnone, Option.none_or, realizeAlong_cons_of_ok hr hparent, ownError?, hparent]
          simp only
          cases b.constructCall a (parent.map Built.handle) with
          | error e => simp
          | ok built =>
              simp only
              cases b.pullCall built <;> simp

theorem exists_realizeAlong (h : b.culprit? line = none) : ∃ r, b.realizeAlong line = .ok r := by
  cases hr : b.realizeAlong line with
  | ok r => exact ⟨r, rfl⟩
  | error f =>
      rw [realizeAlong_eq_error.mp hr] at h
      cases h

theorem realizeAlong_cons_eq_ok {r : Option Realized} (h : b.realizeAlong (a :: older) = .ok r) :
    ∃ built result, b.constructAlong (a :: older) = .ok (some built) ∧
      b.pullCall built = .ok result ∧ r = some result := by
  obtain ⟨made, hmade⟩ := constructAlong_of_realizeAlong h
  obtain ⟨parent, built, hparent, hcall, rfl⟩ := constructAlong_cons_eq_ok.mp hmade
  cases hr : b.realizeAlong older with
  | error f =>
      rw [realizeAlong_error_suffix (List.suffix_cons a older) hr] at h
      cases h
  | ok first =>
      rw [realizeAlong_cons_of_ok hr hparent, hcall] at h
      simp only at h
      cases hpull : b.pullCall built with
      | error e =>
          rw [hpull] at h
          cases h
      | ok result =>
          rw [hpull] at h
          cases h
          exact ⟨built, result, hmade, hpull, rfl⟩

/-- Changes of actions that no call sees change no result. -/
theorem along_map {f : Action → Action} (hcontext : ∀ a, (f a).context = a.context)
    (hcall : ∀ a parent, b.constructCall (f a) parent = b.constructCall a parent)
    (line : List Action) : b.constructAlong (line.map f) = b.constructAlong line ∧
      b.realizeAlong (line.map f) = b.realizeAlong line := by
  induction line with
  | nil => exact ⟨rfl, rfl⟩
  | cons a older ih =>
      simp only [List.map_cons, constructAlong, realizeAlong, ih.1, ih.2, hcontext, hcall,
        and_self]

section Lineage

variable {actions : List Action} {id : Nat} (h : Linked actions) (ha : actions[id]? = some a)
include h ha

theorem culprit?_eq_none : b.culprit? (lineage actions id) = none ↔
    ∀ c ∈ lineage actions id, b.ownError? (lineage actions c.id) = none := by
  induction id, a, ha using h.induction with
  | start id a ha hi =>
      have hself := h.lineage_eq ha
      rw [hi, Option.elim_none] at hself
      simp [hself, culprit?, h.id_eq id a ha]
  | step id a input c ha hi hc ih =>
      have hself := h.lineage_eq ha
      rw [hi, Option.elim_some] at hself
      rw [hself, culprit?, List.forall_mem_cons, h.id_eq id a ha, hself]
      simp only [Option.or_eq_none_iff, Option.map_eq_none_iff, ih]
      tauto

theorem culprit?_eq_some (hf : b.culprit? (lineage actions id) = some f) :
    ∃ c ∈ lineage actions id, b.ownError? (lineage actions c.id) = some f.source ∧
      f.context = c.context ∧
      ∀ c' ∈ lineage actions id, b.ownError? (lineage actions c'.id) ≠ none → c.id ≤ c'.id := by
  induction id, a, ha using h.induction with
  | start id a ha hi =>
      have hself := h.lineage_eq ha
      rw [hi, Option.elim_none] at hself
      rw [hself, culprit?, culprit?, Option.none_or, Option.map_eq_some_iff] at hf
      obtain ⟨e, he, rfl⟩ := hf
      refine ⟨a, by simp [hself], by rw [h.id_eq id a ha, hself, he], rfl, fun c' hc' _ => ?_⟩
      rw [hself, List.mem_singleton] at hc'
      rw [hc']
  | step id a input c ha hi hc ih =>
      have hself := h.lineage_eq ha
      rw [hi, Option.elim_some] at hself
      rw [hself, culprit?] at hf
      cases hold : b.culprit? (lineage actions input) with
      | some g =>
          rw [hold, Option.some_or, Option.some.injEq] at hf
          subst hf
          obtain ⟨c', hc', herror, hcontext, hleast⟩ := ih hold
          refine ⟨c', by simp [hself, hc'], herror, hcontext, fun d hd hne => ?_⟩
          rw [hself, List.mem_cons] at hd
          rcases hd with rfl | hd
          · rw [h.id_eq id d ha]
            have hle := (h.lineage_suffix hc hc').2.1
            exact Nat.le_trans hle (Nat.le_of_lt (h.input_lt id d input ha hi))
          · exact hleast d hd hne
      | none =>
          rw [hold, Option.none_or, Option.map_eq_some_iff] at hf
          obtain ⟨e, he, rfl⟩ := hf
          refine ⟨a, by simp [hself], by rw [h.id_eq id a ha, hself, he], rfl, fun d hd hne => ?_⟩
          rw [hself, List.mem_cons] at hd
          rcases hd with rfl | hd
          · exact Nat.le_refl _
          · exact absurd ((culprit?_eq_none h hc).mp hold d hd) hne

end Lineage

end Backend
end SelectionPlan
