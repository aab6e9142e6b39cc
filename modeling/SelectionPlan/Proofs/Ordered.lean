import SelectionPlan.Naming.Systematic
import Mathlib.Data.String.Basic
import Mathlib.Data.List.Nodup
import Mathlib.Data.List.Pairwise

/-!
# Ordered lists as sets and maps

The ascending lists of the library have the elements, the values and the order that sets, maps and
sorted lists have.
-/

namespace SelectionPlan

instance : Std.Trichotomous (fun a b : Systematic => a < b) where
  trichotomous a b hab hba := by
    change ¬ Systematic.before a b = true at hab
    change ¬ Systematic.before b a = true at hba
    cases a <;> cases b <;> simp only [Systematic.before, decide_eq_true_eq, not_lt,
      not_true_eq_false] at hab hba
    · rfl
    · rw [le_antisymm hba hab]

instance : IsTrans Systematic (fun a b => a < b) where
  trans a b c hab hbc := by
    change Systematic.before a b = true at hab
    change Systematic.before b c = true at hbc
    change Systematic.before a c = true
    cases a <;> cases b <;> cases c <;>
      simp only [Systematic.before, decide_eq_true_eq, Bool.false_eq_true] at hab hbc ⊢
    exact hab.trans hbc

instance : Std.Irrefl (fun a b : Systematic => a < b) where
  irrefl a h := by
    change Systematic.before a a = true at h
    cases a <;> simp [Systematic.before] at h

section Sets

variable {α : Type} [LT α] [DecidableLT α]

@[simp] theorem mem_insertDistinct [Std.Trichotomous (fun a b : α => a < b)] {x y : α}
    {xs : List α} : y ∈ insertDistinct x xs ↔ y = x ∨ y ∈ xs := by
  induction xs with
  | nil => simp [insertDistinct]
  | cons z zs ih =>
      simp only [insertDistinct]
      split
      · simp
      · split
        · simp only [List.mem_cons, ih]
          tauto
        · have hxz : x = z := Std.Trichotomous.trichotomous (r := fun a b : α => a < b) x z ‹_› ‹_›
          simp [hxz]

@[simp] theorem mem_unionDistinct [Std.Trichotomous (fun a b : α => a < b)] {y : α}
    {xs ys : List α} : y ∈ unionDistinct xs ys ↔ y ∈ xs ∨ y ∈ ys := by
  induction xs with
  | nil => simp [unionDistinct]
  | cons x xs ih =>
      have h : unionDistinct (x :: xs) ys = insertDistinct x (unionDistinct xs ys) := rfl
      rw [h, mem_insertDistinct, ih, List.mem_cons, or_assoc]

@[simp] theorem mem_sortDistinct [Std.Trichotomous (fun a b : α => a < b)] {y : α}
    {xs : List α} : y ∈ sortDistinct xs ↔ y ∈ xs := by
  simp [sortDistinct]

end Sets

section Ascending

section Transitive

variable {α : Type} [LT α] [DecidableLT α] [Std.Trichotomous (fun a b : α => a < b)]
  [IsTrans α (fun a b => a < b)]

theorem pairwise_insertDistinct {x : α} {xs : List α} (h : xs.Pairwise (· < ·)) :
    (insertDistinct x xs).Pairwise (· < ·) := by
  induction xs with
  | nil => simp [insertDistinct]
  | cons y ys ih =>
      obtain ⟨hy, hys⟩ := List.pairwise_cons.mp h
      simp only [insertDistinct]
      split
      · rename_i hxy
        refine List.pairwise_cons.mpr ⟨?_, h⟩
        intro z hz
        rcases List.mem_cons.mp hz with rfl | hz
        · exact hxy
        · exact IsTrans.trans (r := fun a b : α => a < b) x y z hxy (hy z hz)
      · split
        · rename_i hyx
          refine List.pairwise_cons.mpr ⟨?_, ih hys⟩
          intro z hz
          rcases mem_insertDistinct.mp hz with rfl | hz
          · exact hyx
          · exact hy z hz
        · exact h

theorem pairwise_unionDistinct {xs ys : List α} (h : ys.Pairwise (· < ·)) :
    (unionDistinct xs ys).Pairwise (· < ·) := by
  induction xs with
  | nil => exact h
  | cons x xs ih => exact pairwise_insertDistinct ih

end Transitive

theorem nodup_of_ascending {α : Type} [LT α] [Std.Irrefl (fun a b : α => a < b)] {xs : List α}
    (h : xs.Pairwise (· < ·)) : xs.Nodup := by
  refine h.imp fun {a b} hlt heq => ?_
  subst heq
  exact Std.Irrefl.irrefl (r := fun a b : α => a < b) a hlt

theorem eq_of_sorted {α : Type} [LT α] [IsTrans α (fun a b => a < b)]
    [Std.Irrefl (fun a b : α => a < b)] {xs ys : List α} (hx : xs.Pairwise (· < ·))
    (hy : ys.Pairwise (· < ·)) (h : ∀ x, x ∈ xs ↔ x ∈ ys) : xs = ys := by
  have hperm : xs.Perm ys :=
    (List.perm_ext_iff_of_nodup (nodup_of_ascending hx) (nodup_of_ascending hy)).mpr h
  refine hperm.eq_of_pairwise (fun a b _ _ hab hba => ?_) hx hy
  exact absurd (IsTrans.trans (r := fun a b : α => a < b) _ _ _ hab hba)
    (Std.Irrefl.irrefl (r := fun a b : α => a < b) a)

theorem insertDistinct_map {α β : Type} [LinearOrder α] [LinearOrder β] {f : α → β} {S : Set α}
    (hf : StrictMonoOn f S) {x : α} (hx : x ∈ S) {xs : List α} (hxs : ∀ y ∈ xs, y ∈ S) :
    insertDistinct (f x) (xs.map f) = (insertDistinct x xs).map f := by
  induction xs with
  | nil => rfl
  | cons y ys ih =>
      have hy : y ∈ S := hxs y (by simp)
      have hxy : f x < f y ↔ x < y := hf.lt_iff_lt hx hy
      have hyx : f y < f x ↔ y < x := hf.lt_iff_lt hy hx
      simp only [List.map_cons, insertDistinct, hxy, hyx,
        ih fun z hz => hxs z (List.mem_cons_of_mem _ hz)]
      split
      · rfl
      · split <;> rfl

theorem sortDistinct_map {α β : Type} [LinearOrder α] [LinearOrder β] {f : α → β} {S : Set α}
    (hf : StrictMonoOn f S) {xs : List α} (hxs : ∀ y ∈ xs, y ∈ S) :
    sortDistinct (xs.map f) = (sortDistinct xs).map f := by
  induction xs with
  | nil => rfl
  | cons x xs ih =>
      have hrest : ∀ y ∈ xs, y ∈ S := fun y hy => hxs y (List.mem_cons_of_mem _ hy)
      have hsort : ∀ y ∈ sortDistinct xs, y ∈ S := fun y hy => hrest y (mem_sortDistinct.mp hy)
      change insertDistinct (f x) (sortDistinct (xs.map f)) = _
      rw [ih hrest, insertDistinct_map hf (hxs x (by simp)) hsort]
      rfl

end Ascending

section Maps

variable {α β : Type} [DecidableEq α]

theorem lookupKey_insertKey [LT α] [DecidableLT α]
    [Std.Trichotomous (fun a b : α => a < b)] (key k : α) (value : β) (m : List (α × β)) :
    lookupKey k (insertKey key value m) = if key = k then some value else lookupKey k m := by
  induction m with
  | nil => rfl
  | cons entry rest ih =>
      obtain ⟨q, v⟩ := entry
      simp only [insertKey]
      split
      · rfl
      · split
        · rename_i hqk
          simp only [lookupKey, ih]
          by_cases hq : q = k
          · have hne : ¬ key = k := by
              intro hk
              subst hk
              subst hq
              contradiction
            simp [hq, hne]
          · simp [hq]
        · have hkq : key = q :=
            Std.Trichotomous.trichotomous (r := fun a b : α => a < b) key q ‹_› ‹_›
          subst hkq
          simp only [lookupKey]
          split <;> rfl

theorem lookupKey_isSome_iff {k : α} {m : List (α × β)} :
    (lookupKey k m).isSome ↔ k ∈ m.map Prod.fst := by
  induction m with
  | nil => simp [lookupKey]
  | cons entry rest ih =>
      obtain ⟨q, v⟩ := entry
      by_cases hq : q = k
      · simp [lookupKey, hq]
      · simp [lookupKey, hq, ih, Ne.symm hq]

theorem mem_of_lookupKey {k : α} {v : β} {m : List (α × β)} (h : lookupKey k m = some v) :
    (k, v) ∈ m := by
  induction m with
  | nil => cases h
  | cons entry rest ih =>
      obtain ⟨q, w⟩ := entry
      rw [lookupKey] at h
      split at h
      · rename_i hq
        cases h
        rw [hq]
        exact List.mem_cons_self
      · exact List.mem_cons_of_mem _ (ih h)

theorem lookupKey_of_mem {k : α} {v : β} {m : List (α × β)} (hm : (m.map Prod.fst).Nodup)
    (h : (k, v) ∈ m) : lookupKey k m = some v := by
  induction m with
  | nil => cases h
  | cons entry rest ih =>
      obtain ⟨q, w⟩ := entry
      rw [List.map_cons, List.nodup_cons] at hm
      rw [lookupKey]
      rcases List.mem_cons.mp h with heq | h
      · cases heq
        exact if_pos rfl
      · have hne : ¬ q = k := by
          intro heq
          subst heq
          exact hm.1 (List.mem_map.mpr ⟨_, h, rfl⟩)
        rw [if_neg hne, ih hm.2 h]

theorem lookupKey_append (k : α) (m m' : List (α × β)) :
    lookupKey k (m ++ m') = (lookupKey k m).or (lookupKey k m') := by
  induction m with
  | nil => rfl
  | cons entry rest ih =>
      obtain ⟨q, v⟩ := entry
      rw [List.cons_append, lookupKey, lookupKey, ih]
      split <;> rfl

theorem lookupKey_map {γ : Type} (k : α) (key : γ → α) (value : γ → β) (xs : List γ) :
    lookupKey k (xs.map fun x => (key x, value x)) =
      (xs.find? fun x => key x = k).map value := by
  induction xs with
  | nil => rfl
  | cons x xs ih =>
      rw [List.map_cons, lookupKey, List.find?_cons, ih]
      by_cases hkey : key x = k <;> simp [hkey]

theorem filterMap_lookupKey {keys : List α} {m : List (α × β)} (hkeys : keys.Nodup)
    (h : (m.map Prod.fst).Sublist keys) :
    keys.filterMap (fun k => lookupKey k m) = m.map Prod.snd := by
  induction keys generalizing m with
  | nil =>
      rw [List.map_eq_nil_iff.mp (List.sublist_nil.mp h)]
      rfl
  | cons key keys ih =>
      obtain ⟨hfresh, hrest⟩ := List.nodup_cons.mp hkeys
      rcases List.sublist_cons_iff.mp h with hsub | ⟨tail, heq, hsub⟩
      · have hnone : lookupKey key m = none := by
          rw [← Option.not_isSome_iff_eq_none, lookupKey_isSome_iff]
          exact fun hmem => hfresh (hsub.subset hmem)
        rw [List.filterMap_cons, hnone, ih hrest hsub]
      · obtain ⟨⟨k, v⟩, m, rfl, hk, rfl⟩ := List.map_eq_cons_iff.mp heq
        have hk : k = key := hk
        subst hk
        have hfirst : lookupKey k ((k, v) :: m) = some v := if_pos rfl
        have hlater : ∀ k' ∈ keys, lookupKey k' ((k, v) :: m) = lookupKey k' m := by
          intro k' hk'
          rw [lookupKey, if_neg]
          rintro rfl
          exact hfresh hk'
        rw [List.filterMap_cons, hfirst, List.filterMap_congr hlater, ih hrest hsub]
        rfl

theorem lookupKey_of_perm {m m' : List (α × β)} (hm : (m.map Prod.fst).Nodup) (h : m.Perm m')
    (k : α) : lookupKey k m = lookupKey k m' := by
  cases hk : lookupKey k m with
  | some v =>
      have hm' : (m'.map Prod.fst).Nodup := (h.map Prod.fst).nodup_iff.mp hm
      exact (lookupKey_of_mem hm' (h.subset (mem_of_lookupKey hk))).symm
  | none =>
      refine (Option.eq_none_iff_forall_ne_some.mpr fun v hv => ?_).symm
      rw [lookupKey_of_mem hm (h.symm.subset (mem_of_lookupKey hv))] at hk
      cases hk

end Maps

section AscendingMaps

variable {α β : Type} [LT α] [DecidableLT α] [Std.Trichotomous (fun a b : α => a < b)]

theorem map_fst_insertKey (key : α) (value : β) (m : List (α × β)) :
    (insertKey key value m).map Prod.fst = insertDistinct key (m.map Prod.fst) := by
  induction m with
  | nil => rfl
  | cons entry rest ih =>
      obtain ⟨q, v⟩ := entry
      simp only [insertKey, List.map_cons, insertDistinct]
      split
      · rfl
      · split
        · rw [List.map_cons, ih]
        · have heq : key = q :=
            Std.Trichotomous.trichotomous (r := fun a b : α => a < b) key q ‹_› ‹_›
          rw [heq, List.map_cons]

theorem mem_insertKey [DecidableEq α] [IsTrans α (fun a b => a < b)]
    [Std.Irrefl (fun a b : α => a < b)] {key : α} {value : β} {m : List (α × β)}
    (hm : (m.map Prod.fst).Pairwise (· < ·)) {entry : α × β} :
    entry ∈ insertKey key value m ↔ entry = (key, value) ∨ entry ∈ m ∧ entry.1 ≠ key := by
  have hiff {m : List (α × β)} (hm : (m.map Prod.fst).Pairwise (· < ·)) :
      entry ∈ m ↔ lookupKey entry.1 m = some entry.2 :=
    ⟨lookupKey_of_mem (nodup_of_ascending hm), mem_of_lookupKey⟩
  have hinsert : ((insertKey key value m).map Prod.fst).Pairwise (· < ·) := by
    rw [map_fst_insertKey]
    exact pairwise_insertDistinct hm
  rw [hiff hinsert, hiff hm, lookupKey_insertKey]
  obtain ⟨q, v⟩ := entry
  by_cases heq : key = q
  · simp [heq, eq_comm]
  · simp [heq, Ne.symm heq]

omit [DecidableLT α] [Std.Trichotomous (fun a b : α => a < b)] in
theorem eq_of_ascending [IsTrans α (fun a b => a < b)] [Std.Irrefl (fun a b : α => a < b)]
    {m m' : List (α × β)} (hm : (m.map Prod.fst).Pairwise (· < ·))
    (hm' : (m'.map Prod.fst).Pairwise (· < ·)) (h : ∀ entry, entry ∈ m ↔ entry ∈ m') : m = m' := by
  have hperm : m.Perm m' := (List.perm_ext_iff_of_nodup
    (nodup_of_ascending hm).of_map (nodup_of_ascending hm').of_map).mpr h
  rw [List.pairwise_map] at hm hm'
  refine hperm.eq_of_pairwise (fun a b _ _ hab hba => ?_) hm hm'
  exact absurd (IsTrans.trans (r := fun a b : α => a < b) _ _ _ hab hba)
    (Std.Irrefl.irrefl (r := fun a b : α => a < b) a.1)

end AscendingMaps

section Sorting

variable {α : Type} {before : α → α → Bool}

theorem perm_insertAfter (x : α) (xs : List α) : (insertAfter before x xs).Perm (x :: xs) := by
  induction xs with
  | nil => rfl
  | cons y ys ih =>
      simp only [insertAfter]
      split
      · exact (ih.cons y).trans (List.Perm.swap x y ys)
      · rfl

theorem perm_sortStable (xs : List α) : (sortStable before xs).Perm xs := by
  induction xs with
  | nil => rfl
  | cons x xs ih => exact (perm_insertAfter x _).trans (ih.cons x)

@[simp] theorem mem_sortStable {x : α} {xs : List α} : x ∈ sortStable before xs ↔ x ∈ xs :=
  (perm_sortStable xs).mem_iff

theorem pairwise_insertAfter {le : α → α → Prop} (hbefore : ∀ a b, before a b = true → le a b)
    (hafter : ∀ a b, ¬ before a b = true → le b a) (htrans : ∀ a b c, le a b → le b c → le a c)
    {x : α} {xs : List α} (h : xs.Pairwise le) : (insertAfter before x xs).Pairwise le := by
  induction xs with
  | nil => exact List.pairwise_singleton le x
  | cons y ys ih =>
      obtain ⟨hy, hys⟩ := List.pairwise_cons.mp h
      simp only [insertAfter]
      split
      · rename_i hyx
        refine List.pairwise_cons.mpr ⟨fun z hz => ?_, ih hys⟩
        rcases List.mem_cons.mp ((perm_insertAfter x ys).subset hz) with rfl | hz
        · exact hbefore y z hyx
        · exact hy z hz
      · rename_i hyx
        have hxy : le x y := hafter y x hyx
        refine List.pairwise_cons.mpr ⟨fun z hz => ?_, h⟩
        rcases List.mem_cons.mp hz with rfl | hz
        · exact hxy
        · exact htrans x y z hxy (hy z hz)

section Keys

variable {β : Type} [LinearOrder β] {key : α → β}

theorem pairwise_sortStable (xs : List α) :
    (sortStable (fun a b => decide (key a < key b)) xs).Pairwise fun a b => key a ≤ key b := by
  induction xs with
  | nil => exact List.Pairwise.nil
  | cons x xs ih =>
      refine pairwise_insertAfter (fun a b hab => ?_) (fun a b hab => ?_) (fun a b c => ?_) ih
      · exact le_of_lt (of_decide_eq_true hab)
      · simpa using hab
      · exact le_trans

theorem pairwise_sortStable_lt {xs : List α} (hkeys : (xs.map key).Nodup) :
    ((sortStable (fun a b => decide (key a < key b)) xs).map key).Pairwise (· < ·) := by
  have hperm : (sortStable (fun a b => decide (key a < key b)) xs).Perm xs := perm_sortStable xs
  have hnodup := (hperm.map key).nodup_iff.mpr hkeys
  rw [List.Nodup, List.pairwise_map] at hnodup
  rw [List.pairwise_map]
  exact (pairwise_sortStable xs).imp₂ (fun a b hle hne => lt_of_le_of_ne hle hne) hnodup

theorem eq_sortStable {xs ys : List α} (hkeys : (xs.map key).Nodup) (h : ys.Perm xs)
    (hys : ys.Pairwise fun a b => key a ≤ key b) :
    ys = sortStable (fun a b => decide (key a < key b)) xs := by
  refine List.Perm.eq_of_pairwise (fun a b ha hb hab hba => ?_) hys (pairwise_sortStable xs)
    (h.trans (perm_sortStable xs).symm)
  rw [mem_sortStable] at hb
  exact List.inj_on_of_nodup_map hkeys (h.subset ha) hb (le_antisymm hab hba)

/-- A list is sorted by a key alike in whichever order its elements come, if no two of them have the
same key. -/
theorem sortStable_of_perm {xs ys : List α} (hkeys : (xs.map key).Nodup) (h : xs.Perm ys) :
    sortStable (fun a b => decide (key a < key b)) xs =
      sortStable (fun a b => decide (key a < key b)) ys :=
  eq_sortStable ((h.map key).nodup_iff.mp hkeys) ((perm_sortStable xs).trans h)
    (pairwise_sortStable xs)

theorem sortStable_filter {xs : List α} (hkeys : (xs.map key).Nodup) (q : α → Bool) :
    sortStable (fun a b => decide (key a < key b)) (xs.filter q) =
      (sortStable (fun a b => decide (key a < key b)) xs).filter q :=
  (eq_sortStable (hkeys.sublist (List.filter_sublist.map key)) ((perm_sortStable xs).filter q)
    ((pairwise_sortStable xs).filter q)).symm

end Keys

end Sorting

end SelectionPlan
