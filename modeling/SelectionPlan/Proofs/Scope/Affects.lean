import SelectionPlan.Proofs.Scope.Place

/-!
# Which variations change what

A variation changes what a name means if it overrides the variable or changes an input of one of its
specifications.  It changes a selection if it changes a filter on the way there.
-/

namespace SelectionPlan

/-- A variation changes what a name means where the given variables are visible, newest first. -/
inductive Affects (variation : String) : List Variable → String → Prop
  | override {v : Variable} {older : List Variable} : variation ∈ v.overridden →
      Affects variation (v :: older) v.name
  | input {v : Variable} {older : List Variable} {i : String} : i ∈ v.allInputs →
      Affects variation older i → Affects variation (v :: older) v.name
  | older {v : Variable} {older : List Variable} {name : String} : name ≠ v.name →
      Affects variation older name → Affects variation (v :: older) name

theorem Affects.exists_override {variation name : String} {vars : List Variable}
    (h : Affects variation vars name) : ∃ v ∈ vars, variation ∈ v.overridden := by
  induction h with
  | override hover => exact ⟨_, List.mem_cons_self, hover⟩
  | input _ _ ih =>
      obtain ⟨v, hv, hover⟩ := ih
      exact ⟨v, List.mem_cons_of_mem _ hv, hover⟩
  | older _ _ ih =>
      obtain ⟨v, hv, hover⟩ := ih
      exact ⟨v, List.mem_cons_of_mem _ hv, hover⟩

/-- A variation changes the filter of a node: by an override, or through an input of one of its
specifications. -/
def SelectionTree.FilterAffected (t : SelectionTree) (variation : String) (node : Nat) : Prop :=
  ∃ v, t.nodes[node]?.bind Node.filter = some v ∧
    (variation ∈ v.overridden ∨ ∃ i ∈ v.allInputs, Affects variation (t.visible node) i)

/-- The systematic that a name at a node is read for under `s`: `s` itself if it is a variation that
changes what the name means there, and nominal otherwise. -/
inductive SelectionTree.InEffect (t : SelectionTree) (node : Nat) (name : String) :
    (s e : Systematic) → Prop
  | varied {variation : String} : Affects variation (t.visible node) name →
      InEffect t node name (.variation variation) (.variation variation)
  | unchanged {variation : String} : ¬ Affects variation (t.visible node) name →
      InEffect t node name (.variation variation) .nominal
  | nominal : InEffect t node name .nominal .nominal

/-- The variations noted at the columns of a resolved scope are those that change them. -/
theorem Scope.Resolved.affects_iff {scope : Scope} (h : scope.Resolved) {variation name : String} :
    Affects variation (scope.map Column.declared) name ↔
      ∃ c, scope.lookup name = some c ∧ variation ∈ c.affects := by
  induction h generalizing name with
  | nil =>
      constructor
      · intro h
        cases h
      · rintro ⟨c, hc, -⟩
        cases hc
  | @cons d rest hrest _ hinputs haffects ih =>
      by_cases hname : d.name = name
      · subst hname
        have hself : Scope.lookup (d :: rest) d.name = some d := by simp [Scope.lookup]
        simp only [hself, Option.some.injEq, exists_eq_left', haffects, ← ih, List.map_cons]
        constructor
        · intro h
          cases h with
          | override hover => exact .inl hover
          | input hi hread => exact .inr ⟨_, hi, hread⟩
          | older hne _ => exact absurd rfl hne
        · rintro (hover | ⟨i, hi, hread⟩)
          · exact .override hover
          · exact .input hi hread
      · have hrest : Scope.lookup (d :: rest) name = Scope.lookup rest name := by
          simp [Scope.lookup, hname]
        rw [hrest, ← ih, List.map_cons]
        constructor
        · intro h
          cases h with
          | override => exact absurd rfl hname
          | input => exact absurd rfl hname
          | older _ hread => exact hread
        · exact .older (Ne.symm hname)

namespace ScopeIndex.Lawful

variable {t : SelectionTree} {index : ScopeIndex} (h : Lawful t index)
include h

/-- The variations noted at a place are those that change a filter on the way there. -/
theorem mem_chain {i : Nat} {p : Place} (hp : index.place? i = some p) (variation : String) :
    variation ∈ p.chain ↔ ∃ m ∈ t.path i, t.FilterAffected variation m := by
  have hown {scope : Scope} {chain : List String} {i : Nat} {p : Place}
      (hp : index.place? i = some p) (hext : p.Extends t scope chain i) :
      variation ∈ p.chain ↔ variation ∈ chain ∨ t.FilterAffected variation i := by
    obtain ⟨node, hnode, -, -, hfilter, -⟩ := hext.declaration
    simp only [hext.mem_chain, SelectionTree.FilterAffected, hnode, Option.bind_some, ← hfilter,
      ← h.scope_declared hp, hext.resolved.affects_iff]
  induction i, (h.place_lt hp).2 using h.wellFormed.induction generalizing p with
  | root =>
      obtain ⟨q, hq, hext⟩ := h.root
      rw [hp, Option.some.injEq] at hq
      subst hq
      simp [hown hp hext, SelectionTree.path_root]
  | child i parent hparent ih =>
      obtain ⟨q, above, hq, habove, hext⟩ := h.child i parent hparent
      rw [hp, Option.some.injEq] at hq
      subst hq
      simp only [hown hp hext, ih habove, h.wellFormed.path_child hparent, List.mem_append,
        List.mem_singleton, or_and_right, exists_or, exists_eq_left]

theorem inEffect_iff {i : Nat} {p : Place} (hp : index.place? i = some p) {name : String}
    {c : Column} (hc : p.scope.lookup name = some c) {s e : Systematic} :
    t.InEffect i name s e ↔ e = c.effective s := by
  have haffects (variation : String) :
      Affects variation (t.visible i) name ↔ variation ∈ c.affects := by
    rw [← h.scope_declared hp, (h.resolved hp).affects_iff, hc]
    simp
  constructor
  · rintro (hvaried | hunchanged | -)
    · simp [Column.effective, (haffects _).mp hvaried]
    · rw [haffects] at hunchanged
      simp [Column.effective, hunchanged]
    · rfl
  · rintro rfl
    cases s with
    | nominal => exact .nominal
    | variation name =>
        by_cases hmem : name ∈ c.affects
        · simpa [Column.effective, hmem] using .varied ((haffects name).mpr hmem)
        · simpa [Column.effective, hmem] using .unchanged fun h => hmem ((haffects name).mp h)

end ScopeIndex.Lawful
end SelectionPlan
