import SelectionPlan.Ordered
import Mathlib.Data.List.Forall2

/-!
# What a fallible step guarantees

A step that can fail meets a postcondition and an excuse: a result satisfies the postcondition, and
an error is one that the excuse allows.  Two runs of related steps end alike.
-/

namespace SelectionPlan

variable {ε α β : Type}

/-- A result satisfies `post`, and an error satisfies `excuse`. -/
def Meets (r : Except ε α) (post : α → Prop) (excuse : ε → Prop) : Prop :=
  match r with
  | .ok a => post a
  | .error e => excuse e

namespace Meets

variable {r : Except ε α} {P : α → Prop} {excuse : ε → Prop}

theorem ok {a : α} (h : P a) : Meets (.ok a : Except ε α) P excuse := h

theorem error {e : ε} (h : excuse e) : Meets (.error e : Except ε α) P excuse := h

theorem of_eq_ok (h : Meets r P excuse) {a : α} (ha : r = .ok a) : P a := by
  subst ha
  exact h

theorem of_eq_error (h : Meets r P excuse) {e : ε} (he : r = .error e) : excuse e := by
  subst he
  exact h

theorem exists_ok (h : Meets r P excuse) (he : ∀ e, ¬ excuse e) : ∃ a, r = .ok a ∧ P a := by
  cases r with
  | ok a => exact ⟨a, rfl, h⟩
  | error e => exact absurd h (he e)

theorem result (h : ∀ a, r = .ok a → P a) : Meets r P fun _ => True := by
  cases r with
  | ok a => exact h a rfl
  | error e => trivial

theorem mono {Q : α → Prop} (h : Meets r P excuse) (hpost : ∀ a, P a → Q a) :
    Meets r Q excuse := by
  cases r with
  | ok a => exact hpost a h
  | error e => exact h

theorem excused {other : ε → Prop} (h : Meets r P excuse) (he : ∀ e, excuse e → other e) :
    Meets r P other := by
  cases r with
  | ok a => exact h
  | error e => exact he e h

theorem named (h : Meets r P excuse) : Meets r (fun a => r = .ok a ∧ P a) excuse := by
  cases r with
  | ok a => exact ⟨rfl, h⟩
  | error e => exact h

theorem bind {k : α → Except ε β} {Q : β → Prop} (h : Meets r P excuse)
    (hk : ∀ a, P a → Meets (k a) Q excuse) : Meets (r >>= k) Q excuse := by
  cases r with
  | ok a => exact hk a h
  | error e => exact h

/-- What follows a step only matters on the results it can have. -/
theorem bind_congr {k k' : α → Except ε β} (h : Meets r P excuse) (hk : ∀ a, P a → k a = k' a) :
    (r >>= k) = r >>= k' := by
  cases r with
  | ok a => exact hk a h
  | error e => rfl

theorem foldlM {f : β → α → Except ε β} {I : List α → β → Prop} {xs : List α} {b : β}
    (hb : I [] b)
    (hstep : ∀ done x b, (done ++ [x]) <+: xs → I done b →
      Meets (f b x) (I (done ++ [x])) excuse) :
    Meets (xs.foldlM f b) (I xs) excuse := by
  have aux : ∀ (rest done : List α) (b : β), done ++ rest = xs → I done b →
      Meets (rest.foldlM f b) (I xs) excuse := by
    intro rest
    induction rest with
    | nil =>
        intro done b hxs hinv
        rw [List.append_nil] at hxs
        subst hxs
        exact hinv
    | cons x rest ih =>
        intro done b hxs hinv
        have hpre : (done ++ [x]) <+: xs := ⟨rest, by simpa using hxs⟩
        rw [List.foldlM_cons]
        exact (hstep done x b hpre hinv).bind fun b' hb' =>
          ih (done ++ [x]) b' (by simpa using hxs) hb'
  exact aux xs [] b rfl hb

theorem mapM {f : α → Except ε β} {Q : α → β → Prop} {xs : List α}
    (h : ∀ x ∈ xs, Meets (f x) (Q x) excuse) : Meets (xs.mapM f) (List.Forall₂ Q xs) excuse := by
  induction xs with
  | nil => exact .nil
  | cons x xs ih =>
      rw [List.mapM_cons]
      rw [List.forall_mem_cons] at h
      exact h.1.bind fun y hy => (ih h.2).bind fun ys hys => .cons hy hys

theorem forM {f : α → Except ε Unit} {xs : List α}
    (h : ∀ x ∈ xs, Meets (f x) (fun _ => True) excuse) :
    Meets (xs.forM f) (fun _ => True) excuse := by
  induction xs with
  | nil => trivial
  | cons x xs ih =>
      rw [List.forall_mem_cons] at h
      exact h.1.bind fun _ _ => ih h.2

end Meets

theorem exists_ok_of_isOk {r : Except ε α} (h : r.isOk = true) : ∃ a, r = .ok a := by
  cases r with
  | ok a => exact ⟨a, rfl⟩
  | error e => cases h

theorem exists_ok_of_toOption {r : Except ε α} {f : α → β} {b : β}
    (h : r.toOption.map f = some b) : ∃ a, r = .ok a ∧ f a = b := by
  cases r with
  | ok a => exact ⟨a, rfl, Option.some.inj h⟩
  | error e => cases h

@[simp] theorem ok_bind (a : α) (k : α → Except ε β) : (Except.ok a >>= k) = k a := rfl

theorem bind_eq_ok {r : Except ε α} {k : α → Except ε β} {b : β} :
    (r >>= k) = .ok b ↔ ∃ a, r = .ok a ∧ k a = .ok b := by
  constructor
  · intro h
    cases r with
    | ok a => exact ⟨a, rfl, h⟩
    | error e => cases h
  · rintro ⟨a, rfl, h⟩
    exact h

theorem foldlM_congr {f k : β → α → Except ε β} {xs : List α}
    (h : ∀ x ∈ xs, ∀ b, f b x = k b x) (b : β) : xs.foldlM f b = xs.foldlM k b := by
  induction xs generalizing b with
  | nil => rfl
  | cons x xs ih =>
      rw [List.forall_mem_cons] at h
      rw [List.foldlM_cons, List.foldlM_cons, h.1]
      exact congrArg _ (funext (ih h.2))

theorem exists_aligned {R : α → β → Prop} {xs : List α} {ys : List β}
    (h : List.Forall₂ R xs ys) {x : α} (hx : x ∈ xs) : ∃ y ∈ ys, R x y := by
  induction h with
  | nil => cases hx
  | cons hxy _ ih =>
      rcases List.mem_cons.mp hx with rfl | hx
      · exact ⟨_, by simp, hxy⟩
      · obtain ⟨y, hy, hxy⟩ := ih hx
        exact ⟨y, List.mem_cons_of_mem _ hy, hxy⟩

theorem mapM_eq_ok {f : α → Except ε β} {xs : List α} {ys : List β} :
    xs.mapM f = .ok ys ↔ List.Forall₂ (fun x y => f x = .ok y) xs ys := by
  induction xs generalizing ys with
  | nil =>
      rw [List.mapM_nil]
      constructor
      · intro h
        cases h
        exact .nil
      · intro h
        cases h
        rfl
  | cons x xs ih =>
      simp only [List.mapM_cons, bind_eq_ok, ih]
      constructor
      · rintro ⟨y, hy, zs, hzs, h⟩
        cases h
        exact .cons hy hzs
      · intro h
        cases h with
        | cons hy hzs => exact ⟨_, hy, _, hzs, rfl⟩

theorem mapM_eq_ok_map {f : α → Except ε β} {g : α → β} {xs : List α}
    (h : ∀ x ∈ xs, f x = .ok (g x)) : xs.mapM f = .ok (xs.map g) := by
  rw [mapM_eq_ok, List.forall₂_map_right_iff, List.forall₂_same]
  exact h

theorem forM_eq_ok {f : α → Except ε Unit} {xs : List α} :
    xs.forM f = .ok () ↔ ∀ x ∈ xs, f x = .ok () := by
  induction xs with
  | nil => simp [List.forM, pure, Except.pure]
  | cons x xs ih =>
      have hcons : (x :: xs).forM f = (f x >>= fun _ => xs.forM f) := rfl
      rw [hcons, bind_eq_ok, List.forall_mem_cons, ← ih]
      constructor
      · rintro ⟨⟨⟩, hx, hxs⟩
        exact ⟨hx, hxs⟩
      · rintro ⟨hx, hxs⟩
        exact ⟨(), hx, hxs⟩

section Translated

variable {α' β' : Type}

theorem map_bind (r : Except ε α) (k : α → Except ε β) (g : β → β') :
    (r >>= k).map g = r >>= fun a => (k a).map g := by
  cases r <;> rfl

theorem bind_map (r : Except ε α) (g : α → α') (k : α' → Except ε β) :
    r.map g >>= k = r >>= fun a => k (g a) := by
  cases r <;> rfl

theorem foldlM_translate {g : β → β'} {h : α → α'} {f : β → α → Except ε β}
    {k : β' → α' → Except ε β'} (hf : ∀ b a, k (g b) (h a) = (f b a).map g) (xs : List α)
    (b : β) : (xs.map h).foldlM k (g b) = (xs.foldlM f b).map g := by
  induction xs generalizing b with
  | nil => rfl
  | cons x xs ih =>
      rw [List.map_cons, List.foldlM_cons, List.foldlM_cons, hf, bind_map, map_bind]
      exact congrArg _ (funext ih)

theorem mapM_translate {g : β → β'} {h : α → α'} {f : α → Except ε β} {k : α' → Except ε β'}
    {xs : List α} (hf : ∀ a ∈ xs, k (h a) = (f a).map g) :
    (xs.map h).mapM k = (xs.mapM f).map (List.map g) := by
  induction xs with
  | nil => rfl
  | cons x xs ih =>
      rw [List.forall_mem_cons] at hf
      rw [List.map_cons, List.mapM_cons, List.mapM_cons, hf.1, ih hf.2]
      cases f x with
      | error e => rfl
      | ok y => cases xs.mapM f <;> rfl

theorem forM_translate {h : α → α'} {f : α → Except ε Unit} {k : α' → Except ε Unit}
    (hf : ∀ a, k (h a) = f a) (xs : List α) : (xs.map h).forM k = xs.forM f := by
  induction xs with
  | nil => rfl
  | cons x xs ih =>
      change (k (h x) >>= fun _ => (xs.map h).forM k) = f x >>= fun _ => xs.forM f
      rw [hf, ih]

end Translated

/-! ### Two runs -/

inductive Alike {ε α β : Type} (E : ε → ε → Prop) (R : α → β → Prop) :
    Except ε α → Except ε β → Prop
  | error {e e' : ε} (h : E e e') : Alike E R (.error e) (.error e')
  | ok {x : α} {y : β} (h : R x y) : Alike E R (.ok x) (.ok y)

section Alike

variable {ε ε' α α' β β' : Type} {E : ε → ε → Prop} {E' : ε' → ε' → Prop} {R : α → α' → Prop}
  {S : β → β' → Prop} {r : Except ε α} {r' : Except ε α'}

theorem Alike.bind {f : α → Except ε β} {f' : α' → Except ε β'} (h : Alike E R r r')
    (hf : ∀ x y, R x y → Alike E S (f x) (f' y)) : Alike E S (r >>= f) (r' >>= f') := by
  cases h with
  | error h => exact .error h
  | ok h => exact hf _ _ h

theorem Alike.mono {R' : α → α' → Prop} (h : Alike E R r r') (hR : ∀ x y, R x y → R' x y) :
    Alike E R' r r' := by
  cases h with
  | error h => exact .error h
  | ok h => exact .ok (hR _ _ h)

theorem Alike.map {f : α → β} {f' : α' → β'} (h : Alike E R r r')
    (hf : ∀ x y, R x y → S (f x) (f' y)) : Alike E S (r.map f) (r'.map f') := by
  cases h with
  | error h => exact .error h
  | ok h => exact .ok (hf _ _ h)

theorem Alike.mapError {f f' : ε → ε'} (h : Alike E R r r')
    (hf : ∀ e e', E e e' → E' (f e) (f' e')) :
    Alike E' R (r.mapError f) (r'.mapError f') := by
  cases h with
  | error h => exact .error (hf _ _ h)
  | ok h => exact .ok h

theorem Alike.foldlM {γ : Type} {f : β → γ → Except ε β} {f' : β' → γ → Except ε β'}
    {I : List γ → β → β' → Prop} {xs : List γ} {b : β} {b' : β'} (hb : I [] b b')
    (hstep : ∀ done x b b', (done ++ [x]) <+: xs → I done b b' →
      Alike E (I (done ++ [x])) (f b x) (f' b' x)) :
    Alike E (I xs) (xs.foldlM f b) (xs.foldlM f' b') := by
  have aux (rest : List γ) : ∀ done b b', done ++ rest = xs → I done b b' →
      Alike E (I xs) (rest.foldlM f b) (rest.foldlM f' b') := by
    induction rest with
    | nil =>
        intro done b b' hxs hinv
        rw [List.append_nil] at hxs
        subst hxs
        exact .ok hinv
    | cons x rest ih =>
        intro done b b' hxs hinv
        have hpre : (done ++ [x]) <+: xs := ⟨rest, by simpa using hxs⟩
        rw [List.foldlM_cons, List.foldlM_cons]
        exact (hstep done x b b' hpre hinv).bind fun c c' hc =>
          ih (done ++ [x]) c c' (by simpa using hxs) hc
  exact aux xs [] b b' rfl hb

theorem Alike.exists_right {x : α} (h : Alike E R (.ok x) r') : ∃ y, r' = .ok y ∧ R x y := by
  cases h with
  | ok h => exact ⟨_, rfl, h⟩

/-- What the second run guarantees, the first one does up to the relation. -/
theorem Alike.meets {P : α' → Prop} {excuse : ε → Prop} (h : Alike (· = ·) R r r')
    (hr : Meets r' P excuse) : Meets r (fun x => ∃ y, R x y ∧ P y) excuse := by
  cases h with
  | error h =>
      subst h
      exact hr
  | ok h => exact ⟨_, h, hr⟩

theorem Alike.named (h : Alike E R r r') : Alike E (fun x y => r' = .ok y ∧ R x y) r r' := by
  cases h with
  | error h => exact .error h
  | ok h => exact .ok ⟨rfl, h⟩

end Alike

end SelectionPlan
