import SelectionPlan.Scope.Basic
import SelectionPlan.Proofs.Ordered
import SelectionPlan.Proofs.Triple

/-!
# Resolved scopes

In the scopes of an index every input of a column means an older column, no name is taken twice, and
a variation changes a column exactly if it overrides the column or changes one of its inputs.
-/

namespace SelectionPlan

theorem Variable.spec_mem (v : Variable) (s : Systematic) : v.spec s ∈ v.specs := by
  cases s with
  | nominal => exact List.mem_cons_self
  | variation name =>
      simp only [Variable.spec, Variable.specs]
      cases hk : lookupKey name v.overrides with
      | none => exact List.mem_cons_self
      | some spec => exact List.mem_cons_of_mem _ (List.mem_map_of_mem (mem_of_lookupKey hk))

theorem Variable.mem_allInputs {v : Variable} {s : Systematic} {i : String}
    (h : i ∈ (v.spec s).inputs) : i ∈ v.allInputs := by
  rw [Variable.allInputs, mem_sortDistinct, List.mem_flatMap]
  exact ⟨v.spec s, v.spec_mem s, h⟩

theorem Variable.spec_of_not_overridden {v : Variable} {name : String}
    (h : name ∉ v.overridden) : v.spec (.variation name) = v.nominal := by
  have hnone : lookupKey name v.overrides = none := by
    rw [← Option.not_isSome_iff_eq_none, lookupKey_isSome_iff]
    exact h
  simp [Variable.spec, hnone]

namespace Column

/-- What a variation does to a column it does to every column that is read through it. -/
theorem effective_effective {c d : Column} (h : d.affects ⊆ c.affects) (s : Systematic) :
    d.effective (c.effective s) = d.effective s := by
  cases s with
  | nominal => rfl
  | variation name =>
      by_cases hc : name ∈ c.affects
      · simp [effective, hc]
      · have hd : name ∉ d.affects := fun hd => hc (h hd)
        simp [effective, hc, hd]

@[simp] theorem effective_idem (c : Column) (s : Systematic) :
    c.effective (c.effective s) = c.effective s :=
  effective_effective (List.Subset.refl _) s

@[simp] theorem specUnder_effective (c : Column) (s : Systematic) :
    c.specUnder (c.effective s) = c.specUnder s := by
  simp [specUnder]

@[simp] theorem isComputed_effective (c : Column) (s : Systematic) :
    c.isComputed (c.effective s) = c.isComputed s := by
  simp [isComputed]

theorem specUnder_eq {c : Column} (h : c.declared.overridden ⊆ c.affects) (s : Systematic) :
    c.specUnder s = c.declared.spec s := by
  cases s with
  | nominal => rfl
  | variation name =>
      by_cases hc : name ∈ c.affects
      · simp [specUnder, effective, hc]
      · have hn : name ∉ c.declared.overridden := fun hn => hc (h hn)
        simp only [specUnder, effective, hc, if_false, Variable.spec_of_not_overridden hn]
        rfl

end Column

namespace Scope

def locate : Scope → String → Option (Column × Scope)
  | [], _ => none
  | c :: older, name => if c.name = name then some (c, older) else locate older name

theorem lookup_eq_locate (scope : Scope) (name : String) :
    scope.lookup name = (scope.locate name).map Prod.fst := by
  induction scope with
  | nil => rfl
  | cons c older ih =>
      simp only [lookup] at ih ⊢
      by_cases h : c.name = name <;> simp [locate, h, ih]

theorem exists_locate {scope : Scope} {name : String} {c : Column}
    (h : scope.lookup name = some c) : ∃ older, scope.locate name = some (c, older) := by
  rw [lookup_eq_locate, Option.map_eq_some_iff] at h
  obtain ⟨⟨d, older⟩, hd, rfl⟩ := h
  exact ⟨older, hd⟩

theorem lookup_of_locate {scope : Scope} {name : String} {c : Column} {older : Scope}
    (h : scope.locate name = some (c, older)) : scope.lookup name = some c := by
  rw [lookup_eq_locate, h]
  rfl

theorem locate_suffix {scope : Scope} {name : String} {c : Column} {older : Scope}
    (h : scope.locate name = some (c, older)) : c :: older <:+ scope ∧ c.name = name := by
  induction scope with
  | nil => cases h
  | cons d rest ih =>
      simp only [locate] at h
      split at h
      · cases h
        exact ⟨List.suffix_refl _, ‹_›⟩
      · obtain ⟨hs, hn⟩ := ih h
        exact ⟨hs.trans (List.suffix_cons d rest), hn⟩

/-- Scopes in which every name that a column reads means an older column. -/
inductive Resolved : Scope → Prop
  | nil : Resolved []
  | cons {c : Column} {older : Scope} : Resolved older → older.lookup c.name = none →
      (∀ i ∈ c.declared.allInputs, ∃ d, older.lookup i = some d) →
      (∀ x, x ∈ c.affects ↔ x ∈ c.declared.overridden ∨
        ∃ i ∈ c.declared.allInputs, ∃ d, older.lookup i = some d ∧ x ∈ d.affects) →
      Resolved (c :: older)

theorem exists_suffix {scope : Scope} {c : Column} (hc : c ∈ scope) :
    ∃ older, c :: older <:+ scope := by
  obtain ⟨newer, older, hsplit⟩ := List.append_of_mem hc
  exact ⟨older, newer, hsplit.symm⟩

namespace Resolved

variable {scope older : Scope} {c : Column}

theorem suffix (h : scope.Resolved) (hs : older <:+ scope) : older.Resolved := by
  induction h with
  | nil =>
      rw [List.suffix_nil.mp hs]
      exact .nil
  | @cons d rest hrest hname hinputs haffects ih =>
      rcases List.suffix_cons_iff.mp hs with rfl | hs
      · exact .cons hrest hname hinputs haffects
      · exact ih hs

theorem exists_input (h : Resolved (c :: older)) {s : Systematic} {i : String}
    (hi : i ∈ (c.specUnder s).inputs) : ∃ d, older.lookup i = some d := by
  cases h with
  | cons _ _ hinputs _ => exact hinputs i (Variable.mem_allInputs hi)

theorem affects_input (h : Resolved (c :: older)) {s : Systematic} {i : String}
    (hi : i ∈ (c.specUnder s).inputs) {d : Column} (hd : older.lookup i = some d) :
    d.affects ⊆ c.affects := by
  cases h with
  | cons _ _ _ haffects =>
      intro x hx
      exact (haffects x).mpr (.inr ⟨i, Variable.mem_allInputs hi, d, hd, hx⟩)

theorem overridden_subset (h : Resolved (c :: older)) : c.declared.overridden ⊆ c.affects := by
  cases h with
  | cons _ _ _ haffects => exact fun x hx => (haffects x).mpr (.inl hx)

theorem locate_name (h : scope.Resolved) (hs : c :: older <:+ scope) :
    scope.locate c.name = some (c, older) := by
  induction h with
  | nil => simp at hs
  | @cons d rest hrest hname hinputs haffects ih =>
      rcases List.suffix_cons_iff.mp hs with hs | hs
      · cases hs
        simp [locate]
      · have hrec := ih hs
        have hne : d.name ≠ c.name := by
          intro heq
          rw [heq, lookup_of_locate hrec] at hname
          cases hname
        simp [locate, hne, hrec]

theorem lookup_eq_some (h : scope.Resolved) {name : String} :
    scope.lookup name = some c ↔ c ∈ scope ∧ c.name = name := by
  constructor
  · intro hc
    exact ⟨List.mem_of_find?_eq_some hc, by simpa using List.find?_some hc⟩
  · rintro ⟨hc, rfl⟩
    obtain ⟨older, hsuffix⟩ := exists_suffix hc
    exact lookup_of_locate (h.locate_name hsuffix)

theorem eq_of_name (h : scope.Resolved) {d : Column} {older' : Scope} (hc : c :: older <:+ scope)
    (hd : d :: older' <:+ scope) (hname : c.name = d.name) : c = d ∧ older = older' := by
  have hc' := h.locate_name hc
  rw [hname, h.locate_name hd] at hc'
  cases hc'
  exact ⟨rfl, rfl⟩

theorem nodup_names (h : scope.Resolved) :
    ((scope.map Column.declared).map Variable.name).Nodup := by
  induction h with
  | nil => exact List.nodup_nil
  | @cons d rest _ hname _ _ ih =>
      refine List.nodup_cons.mpr ⟨fun hmem => ?_, ih⟩
      rw [List.map_map] at hmem
      obtain ⟨c, hc, heq⟩ := List.mem_map.mp hmem
      exact absurd heq (by simpa [Column.name] using List.find?_eq_none.mp hname c hc)

end Resolved

theorem require_eq_ok {scope : Scope} {name reader path : String} {c : Column} :
    scope.require name reader path = .ok c ↔ scope.lookup name = some c := by
  simp only [require]
  split <;> simp_all

theorem reach_eq_ok {scope : Scope} {own inputs reached : List String} {reader path : String}
    (h : scope.reach own inputs reader path = .ok reached) :
    (∀ i ∈ inputs, ∃ d, scope.lookup i = some d) ∧
      ∀ x, x ∈ reached ↔ x ∈ own ∨ ∃ i ∈ inputs, ∃ d, scope.lookup i = some d ∧ x ∈ d.affects := by
  induction inputs generalizing own with
  | nil =>
      cases h
      simp
  | cons i rest ih =>
      simp only [reach, List.foldlM_cons, bind_eq_ok] at h ih
      obtain ⟨grown, ⟨d, hd, hgrown⟩, hrest⟩ := h
      rw [require_eq_ok] at hd
      cases hgrown
      obtain ⟨hfound, hmem⟩ := ih hrest
      refine ⟨List.forall_mem_cons.mpr ⟨⟨d, hd⟩, hfound⟩, fun x => ?_⟩
      rw [hmem x, mem_unionDistinct]
      simp only [List.exists_mem_cons_iff, hd, Option.some.injEq, exists_eq_left']
      tauto

theorem declare_eq_ok {scope scope' : Scope} {path : String} {node slot : Nat} {v : Variable}
    (h : scope.declare path node (v, slot) = .ok scope') (hr : scope.Resolved) :
    scope'.Resolved ∧
      ∃ affects, scope' = { ref := ⟨node, slot⟩, declared := v, path, affects } :: scope := by
  simp only [declare, bind_eq_ok] at h
  obtain ⟨affects, hreach, h⟩ := h
  split at h
  · cases h
  · rename_i hfree
    cases h
    obtain ⟨hfound, hmem⟩ := reach_eq_ok hreach
    exact ⟨.cons hr (by simpa [Column.name] using hfree) hfound hmem, affects, rfl⟩

end Scope
end SelectionPlan
