import SelectionPlan.Graph.Action
import SelectionPlan.Proofs.Ordered
import Mathlib.Algebra.GroupWithZero.Nat
import Mathlib.Algebra.Order.BigOperators.Group.List
import Mathlib.Data.List.Perm.Subperm

/-!
# Lineages and closures

The inputs of an action lead back to the source.  In a chained graph an action depends on actions of
its own lineage only, so the lineage is all that the action needs.
-/

namespace SelectionPlan

/-- Actions numbered by position, with inputs that come earlier. -/
structure Linked (actions : List Action) : Prop where
  id_eq : ∀ (i : Nat) (a : Action), actions[i]? = some a → a.id = i
  input_lt : ∀ (i : Nat) (a : Action) (j : Nat), actions[i]? = some a → a.input = some j → j < i

def lineageIds (actions : List Action) (id : Nat) : List Nat :=
  ((lineage actions id).map Action.id).reverse

section Lineage

variable {actions more : List Action} {a b : Action} {id : Nat}

private theorem lineageWithin_none (ha : actions[id]? = none) (bound : Nat) :
    lineageWithin actions bound id = [] := by
  unfold lineageWithin
  simp only [ha]

private theorem lineageWithin_start (ha : actions[id]? = some a) (hi : a.input = none)
    (bound : Nat) : lineageWithin actions bound id = [a] := by
  unfold lineageWithin
  cases bound <;> simp only [ha, hi]

private theorem lineageWithin_step (ha : actions[id]? = some a) {input : Nat}
    (hi : a.input = some input) (bound : Nat) :
    lineageWithin actions (bound + 1) id = a :: lineageWithin actions bound input := by
  rw [lineageWithin]
  simp only [ha, hi]

private theorem lineageWithin_stable (h : Linked actions) {bound : Nat} (hb : id ≤ bound) :
    lineageWithin actions bound id = lineage actions id := by
  induction id using Nat.strongRecOn generalizing bound with
  | _ id ih =>
      cases ha : actions[id]? with
      | none => rw [lineage, lineageWithin_none ha, lineageWithin_none ha]
      | some a =>
          cases hi : a.input with
          | none => rw [lineage, lineageWithin_start ha hi, lineageWithin_start ha hi]
          | some input =>
              have hlt := h.input_lt id a input ha hi
              obtain ⟨i, rfl⟩ : ∃ i, id = i + 1 := ⟨id - 1, by omega⟩
              obtain ⟨b, rfl⟩ : ∃ b, bound = b + 1 := ⟨bound - 1, by omega⟩
              have hi' : input ≤ i := Nat.le_of_lt_succ hlt
              rw [lineage, lineageWithin_step ha hi, lineageWithin_step ha hi, ih input hlt hi',
                ih input hlt (Nat.le_trans hi' (Nat.le_of_succ_le_succ hb))]

theorem lineage_of_none (ha : actions[id]? = none) : lineage actions id = [] :=
  lineageWithin_none ha id

theorem Linked.lineage_eq (h : Linked actions) (ha : actions[id]? = some a) :
    lineage actions id = a :: a.input.elim [] (lineage actions) := by
  cases hi : a.input with
  | none => rw [lineage, lineageWithin_start ha hi, Option.elim_none]
  | some input =>
      have hlt := h.input_lt id a input ha hi
      obtain ⟨i, rfl⟩ : ∃ i, id = i + 1 := ⟨id - 1, by omega⟩
      rw [lineage, lineageWithin_step ha hi,
        lineageWithin_stable h (Nat.le_of_lt_succ hlt), Option.elim_some]

theorem Linked.induction (h : Linked actions)
    {motive : (id : Nat) → (a : Action) → actions[id]? = some a → Prop}
    (start : ∀ id a (ha : actions[id]? = some a), a.input = none → motive id a ha)
    (step : ∀ id a input b (ha : actions[id]? = some a) (_ : a.input = some input)
      (hb : actions[input]? = some b), motive input b hb → motive id a ha)
    (id : Nat) (a : Action) (ha : actions[id]? = some a) : motive id a ha := by
  induction id using Nat.strongRecOn generalizing a with
  | _ id ih =>
      cases hi : a.input with
      | none => exact start id a ha hi
      | some input =>
          have hlt := h.input_lt id a input ha hi
          have hlen : input < actions.length :=
            Nat.lt_trans hlt (List.getElem?_eq_some_iff.mp ha).1
          have hb := List.getElem?_eq_getElem hlen
          exact step id a input actions[input] ha hi hb (ih input hlt _ hb)

theorem Linked.get_of_mem (h : Linked actions) (ha : a ∈ actions) : actions[a.id]? = some a := by
  obtain ⟨i, hi⟩ := List.getElem?_of_mem ha
  rw [h.id_eq i a hi]
  exact hi

theorem Linked.append (h : Linked (actions ++ more)) : Linked actions := by
  have hget {i : Nat} {a : Action} (ha : actions[i]? = some a) :
      (actions ++ more)[i]? = some a := by
    rw [List.getElem?_append_left (List.getElem?_eq_some_iff.mp ha).1, ha]
  exact ⟨fun i a ha => h.id_eq i a (hget ha), fun i a j ha => h.input_lt i a j (hget ha)⟩

theorem Linked.push (h : Linked actions) (hid : a.id = actions.length)
    (hinput : ∀ j, a.input = some j → j < a.id) : Linked (actions ++ [a]) := by
  have hget {i : Nat} {b : Action} (hb : (actions ++ [a])[i]? = some b) :
      actions[i]? = some b ∨ i = actions.length ∧ b = a := by
    rw [List.getElem?_append] at hb
    split at hb
    · exact .inl hb
    · obtain ⟨hi, rfl⟩ := List.getElem?_eq_some_iff.mp hb
      simp only [List.length_singleton] at hi
      exact .inr ⟨by omega, by simp⟩
  constructor
  · intro i b hb
    rcases hget hb with hb | ⟨rfl, rfl⟩
    · exact h.id_eq i b hb
    · exact hid
  · intro i b j hb hj
    rcases hget hb with hb | ⟨rfl, rfl⟩
    · exact h.input_lt i b j hb hj
    · exact hid ▸ hinput j hj

theorem Linked.of_prefix {actions' : List Action} (h : Linked actions')
    (hfirst : actions <+: actions') : Linked actions := by
  obtain ⟨more, rfl⟩ := hfirst
  exact h.append

theorem Linked.lineage_append (h : Linked (actions ++ more)) (ha : actions[id]? = some a) :
    lineage (actions ++ more) id = lineage actions id := by
  have hget {i : Nat} {b : Action} (hb : actions[i]? = some b) :
      (actions ++ more)[i]? = some b := by
    rw [List.getElem?_append_left (List.getElem?_eq_some_iff.mp hb).1, hb]
  induction id, a, ha using h.append.induction with
  | start id a ha hi => simp [h.lineage_eq (hget ha), h.append.lineage_eq ha, hi]
  | step id a input b ha hi hb ih =>
      simp only [h.lineage_eq (hget ha), h.append.lineage_eq ha, hi, Option.elim_some, ih]

theorem Linked.lineage_suffix (h : Linked actions) (ha : actions[id]? = some a)
    (hb : b ∈ lineage actions id) : actions[b.id]? = some b ∧ b.id ≤ id ∧
      lineage actions b.id <:+ lineage actions id := by
  induction id, a, ha using h.induction with
  | start id a ha hi =>
      have hid := h.id_eq id a ha
      have hline := h.lineage_eq ha
      simp only [hline, hi, Option.elim_none, List.mem_singleton] at hb
      subst hb
      exact ⟨hid ▸ ha, Nat.le_of_eq hid, hid ▸ List.suffix_refl _⟩
  | step id a input c ha hi hc ih =>
      have hid := h.id_eq id a ha
      have hline := h.lineage_eq ha
      simp only [hi, Option.elim_some] at hline
      rw [hline, List.mem_cons] at hb
      rcases hb with rfl | hb
      · exact ⟨hid ▸ ha, Nat.le_of_eq hid, hid ▸ List.suffix_refl _⟩
      · obtain ⟨hget, hle, hsuf⟩ := ih hb
        have hlt := h.input_lt id a input ha hi
        exact ⟨hget, Nat.le_trans hle (Nat.le_of_lt hlt), hline ▸ hsuf.trans (List.suffix_cons _ _)⟩

theorem Linked.mem_lineage_self (h : Linked actions) (ha : actions[id]? = some a) :
    a ∈ lineage actions id := by
  simp [h.lineage_eq ha]

theorem Linked.mem_lineage_of_input (h : Linked actions) (ha : actions[id]? = some a) {input : Nat}
    (hi : a.input = some input) (hb : b ∈ lineage actions input) : b ∈ lineage actions id := by
  simp [h.lineage_eq ha, hi, hb]

theorem Linked.pairwise_lineage (h : Linked actions) (ha : actions[id]? = some a) :
    (lineage actions id).Pairwise fun b c => c.id < b.id := by
  induction id, a, ha using h.induction with
  | start id a ha hi => simp [h.lineage_eq ha, hi]
  | step id a input c ha hi hc ih =>
      have hid := h.id_eq id a ha
      have hlt := h.input_lt id a input ha hi
      simp only [h.lineage_eq ha, hi, Option.elim_some, List.pairwise_cons]
      refine ⟨fun b hb => ?_, ih⟩
      rw [hid]
      exact Nat.lt_of_le_of_lt (h.lineage_suffix hc hb).2.1 hlt

theorem Linked.pairwise_lineageIds (h : Linked actions) (ha : actions[id]? = some a) :
    (lineageIds actions id).Pairwise (· < ·) := by
  simp only [lineageIds, List.pairwise_reverse, List.pairwise_map]
  exact h.pairwise_lineage ha

theorem mem_lineageIds {i : Nat} :
    i ∈ lineageIds actions id ↔ ∃ b ∈ lineage actions id, b.id = i := by
  simp [lineageIds]

end Lineage

/-- Actions that depend on their input and otherwise on actions before it in its lineage. -/
structure Chained (actions : List Action) : Prop extends Linked actions where
  input_mem : ∀ (i : Nat) (a : Action) (j : Nat), actions[i]? = some a →
    a.input = some j → j < actions.length ∧ j ∈ a.dependencies
  dependency : ∀ (i : Nat) (a : Action) (j : Nat), actions[i]? = some a →
    j ∈ a.dependencies → ∃ input, a.input = some input ∧ j ∈ lineageIds actions input

section Closure

variable {actions : List Action} {ids : List Nat} {a : Action} {id : Nat}

theorem mem_withDependencies {i : Nat} : i ∈ withDependencies actions ids ↔
    i ∈ ids ∨ ∃ j ∈ ids, ∃ a, actions[j]? = some a ∧ i ∈ a.dependencies := by
  have hfold (js : List Nat) :
      i ∈ js.foldr (fun id => unionDistinct ((actions[id]?.map Action.dependencies).getD [])) ids ↔
        i ∈ ids ∨ ∃ j ∈ js, ∃ a, actions[j]? = some a ∧ i ∈ a.dependencies := by
    induction js with
    | nil => simp
    | cons j js ih =>
        rw [List.foldr_cons, mem_unionDistinct, ih]
        cases hj : actions[j]? with
        | none => simp [hj]
        | some a =>
            simp only [Option.map_some, Option.getD_some, List.exists_mem_cons_iff, hj,
              Option.some.injEq, exists_eq_left']
            tauto
  exact hfold ids

theorem pairwise_withDependencies (h : ids.Pairwise (· < ·)) :
    (withDependencies actions ids).Pairwise (· < ·) := by
  have hfold (js : List Nat) :
      (js.foldr (fun id => unionDistinct ((actions[id]?.map Action.dependencies).getD []))
        ids).Pairwise (· < ·) := by
    induction js with
    | nil => exact h
    | cons j js ih => exact pairwise_unionDistinct ih
  exact hfold ids

def DependencyClosed (actions : List Action) (ids : List Nat) : Prop :=
  ∀ i ∈ ids, ∀ a, actions[i]? = some a → a.dependencies ⊆ ids

/-- With enough rounds the search for dependencies ends, inside any closed set that it starts in. -/
theorem closureWithin_spec {all : List Nat} (hall : DependencyClosed actions all)
    (rounds : Nat) (hsub : ids ⊆ all) (hids : ids.Pairwise (· < ·))
    (hrounds : all.length < ids.length + rounds) :
    ids ⊆ closureWithin actions rounds ids ∧ closureWithin actions rounds ids ⊆ all ∧
      (closureWithin actions rounds ids).Pairwise (· < ·) ∧
      DependencyClosed actions (closureWithin actions rounds ids) := by
  induction rounds generalizing ids with
  | zero =>
      have hnodup : ids.Nodup := hids.imp Nat.ne_of_lt
      have := (List.Nodup.subperm hnodup hsub).length_le
      omega
  | succ rounds ih =>
      have hgrow : ids ⊆ withDependencies actions ids := fun i hi =>
        mem_withDependencies.mpr (.inl hi)
      have hnodup : (withDependencies actions ids).Nodup :=
        (pairwise_withDependencies hids).imp Nat.ne_of_lt
      have hperm := List.Nodup.subperm (hids.imp Nat.ne_of_lt) hgrow
      simp only [closureWithin]
      split
      · rename_i hlen
        refine ⟨List.Subset.refl _, hsub, hids, fun i hi a ha j hj => ?_⟩
        have hsame := hperm.perm_of_length_le (Nat.le_of_eq hlen)
        exact hsame.mem_iff.mpr (mem_withDependencies.mpr (.inr ⟨i, hi, a, ha, hj⟩))
      · rename_i hlen
        have hlarger : withDependencies actions ids ⊆ all := by
          intro i hi
          rcases mem_withDependencies.mp hi with hi | ⟨j, hj, a, ha, hi⟩
          · exact hsub hi
          · exact hall j (hsub hj) a ha hi
        have := hperm.length_le
        obtain ⟨hstart, hrest⟩ := ih hlarger (pairwise_withDependencies hids) (by omega)
        exact ⟨List.Subset.trans hgrow hstart, hrest⟩

namespace Chained

variable (h : Chained actions)
include h

theorem dependencyClosed_lineageIds (ha : actions[id]? = some a) :
    DependencyClosed actions (lineageIds actions id) := by
  intro i hi b hb j hj
  obtain ⟨c, hc, rfl⟩ := mem_lineageIds.mp hi
  obtain ⟨hget, -, hsuf⟩ := h.lineage_suffix ha hc
  rw [hget, Option.some.injEq] at hb
  subst hb
  obtain ⟨input, hinput, hj⟩ := h.dependency _ c j hget hj
  obtain ⟨d, hd, rfl⟩ := mem_lineageIds.mp hj
  refine mem_lineageIds.mpr ⟨d, hsuf.subset ?_, rfl⟩
  simp [h.lineage_eq hget, hinput, hd]

private theorem length_lineage_le (ha : actions[id]? = some a) :
    (lineage actions id).length ≤
      1 + ((lineage actions id).map fun b => b.dependencies.length).sum := by
  induction id, a, ha using h.toLinked.induction with
  | start id a ha hi => simp [h.lineage_eq ha, hi]
  | step id a input c ha hi hc ih =>
      have hpos := List.length_pos_of_mem (h.input_mem id a input ha hi).2
      simp only [h.lineage_eq ha, hi, Option.elim_some, List.length_cons, List.map_cons,
        List.sum_cons]
      omega

private theorem lineage_subperm (ha : actions[id]? = some a) :
    (lineage actions id).Subperm actions := by
  refine List.Nodup.subperm ((h.pairwise_lineage ha).imp ?_) fun b hb =>
    List.mem_of_getElem? (h.lineage_suffix ha hb).1
  intro b c hlt heq
  rw [heq] at hlt
  exact Nat.lt_irrefl _ hlt

/-- What an action needs is its lineage. -/
theorem closure_eq (ha : actions[id]? = some a) : closure actions id = lineageIds actions id := by
  have hself : id ∈ lineageIds actions id :=
    mem_lineageIds.mpr ⟨a, h.mem_lineage_self ha, h.id_eq id a ha⟩
  have hrounds : (lineageIds actions id).length < [id].length +
      (actions.map fun a => a.dependencies.length).foldl (· + ·) 1 := by
    have hbound := h.length_lineage_le ha
    have hsum : ((lineage actions id).map fun b => b.dependencies.length).sum ≤
        (actions.map fun b => b.dependencies.length).sum := by
      obtain ⟨l, hl, hsub⟩ := (h.lineage_subperm ha)
      rw [← (hl.map _).sum_nat]
      exact (hsub.map _).sum_le_sum fun _ _ => Nat.zero_le _
    have hfold (xs : List Nat) (n : Nat) : xs.foldl (· + ·) n = n + xs.sum := by
      induction xs generalizing n with
      | nil => rfl
      | cons x xs ih => rw [List.foldl_cons, ih, List.sum_cons, Nat.add_assoc]
    rw [hfold]
    simp only [lineageIds, List.length_reverse, List.length_map, List.length_singleton]
    omega
  obtain ⟨hstart, hsub, hsorted, hclosed⟩ := closureWithin_spec
    (h.dependencyClosed_lineageIds ha) _ (by simpa using hself) (List.pairwise_singleton _ _)
    hrounds
  have hlineage : ∀ i b, actions[i]? = some b → i ∈ closure actions id →
      lineageIds actions i ⊆ closure actions id := by
    intro i b hb hi
    induction i, b, hb using h.toLinked.induction with
    | start i b hb hinput => simpa [lineageIds, h.lineage_eq hb, hinput, h.id_eq i b hb] using hi
    | step i b input c hb hinput hc ih =>
        have hmem := hclosed i hi b hb (h.input_mem i b input hb hinput).2
        simp only [lineageIds, h.lineage_eq hb, hinput, Option.elim_some, List.map_cons,
          List.reverse_cons, h.id_eq i b hb]
        exact List.append_subset.mpr ⟨ih hmem, by simpa using hi⟩
  have hsame : (closure actions id).Perm (lineageIds actions id) := by
    refine (List.perm_ext_iff_of_nodup (hsorted.imp Nat.ne_of_lt)
      ((h.pairwise_lineageIds ha).imp Nat.ne_of_lt)).mpr fun i => ?_
    exact ⟨fun hi => hsub hi, fun hi => hlineage id a ha (hstart (by simp)) hi⟩
  refine List.Perm.eq_of_pairwise ?_ hsorted (h.pairwise_lineageIds ha) hsame
  intro i j _ _ hij hji
  exact absurd hij (Nat.lt_asymm hji)

end Chained

end Closure

end SelectionPlan
