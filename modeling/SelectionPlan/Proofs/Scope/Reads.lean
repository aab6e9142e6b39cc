import SelectionPlan.Graph.Build
import SelectionPlan.Proofs.Scope.Resolved

/-!
# What a reader reads

A reader of some names reads the columns they mean and, through them, the columns those are computed
from.  The columns that a step needs are the computed ones among these, each once and after what it
reads.
-/

namespace SelectionPlan
namespace Scope

/-- A reader of `wanted` reads `c` under `s`, directly or through what it reads; `older` is what `c`
itself sees. -/
inductive Reads (s : Systematic) : Scope → List String → Column → Scope → Prop
  | direct {scope older : Scope} {wanted : List String} {name : String} {c : Column} :
      name ∈ wanted → scope.locate name = some (c, older) → Reads s scope wanted c older
  | through {scope older oldest : Scope} {wanted : List String} {c d : Column} :
      Reads s scope wanted c older → Reads s older (c.specUnder s).inputs d oldest →
      Reads s scope wanted d oldest

namespace Reads

variable {s : Systematic} {scope older oldest : Scope} {wanted wanted' : List String}
  {c d : Column}

theorem not_nil : ¬ Reads s scope [] d oldest := by
  intro h
  generalize hw : ([] : List String) = wanted at h
  induction h with
  | direct hname _ =>
      subst hw
      cases hname
  | through _ _ ih _ => exact ih hw

theorem mono (h : Reads s scope wanted d oldest) (hw : wanted ⊆ wanted') :
    Reads s scope wanted' d oldest := by
  induction h with
  | direct hname hloc => exact .direct (hw hname) hloc
  | through _ hcd ih _ => exact .through (ih hw) hcd

theorem suffix (h : Reads s scope wanted d oldest) : d :: oldest <:+ scope := by
  induction h with
  | direct _ hloc => exact (locate_suffix hloc).1
  | through _ _ ih ih' => exact ih'.trans ((List.suffix_cons _ _).trans ih)

theorem append_iff :
    Reads s scope (wanted ++ wanted') d oldest ↔
      Reads s scope wanted d oldest ∨ Reads s scope wanted' d oldest := by
  constructor
  · intro h
    generalize hw : wanted ++ wanted' = all at h
    induction h with
    | direct hname hloc =>
        subst hw
        rcases List.mem_append.mp hname with hname | hname
        · exact .inl (.direct hname hloc)
        · exact .inr (.direct hname hloc)
    | through _ hcd ih _ =>
        rcases ih hw with h | h
        · exact .inl (.through h hcd)
        · exact .inr (.through h hcd)
  · rintro (h | h)
    · exact h.mono (List.subset_append_left _ _)
    · exact h.mono (List.subset_append_right _ _)

/-- What is read with one more column in scope: that column with what it reads, if it is wanted, and
what the other names mean. -/
theorem cons_iff {rest : Scope} :
    Reads s (c :: rest) wanted d oldest ↔
      (c.name ∈ wanted ∧ ((d, oldest) = (c, rest) ∨ Reads s rest (c.specUnder s).inputs d oldest)) ∨
        Reads s rest (wanted.filter fun name => name != c.name) d oldest := by
  constructor
  · intro h
    generalize hsc : c :: rest = scope at h
    induction h with
    | @direct scope older wanted name d hname hloc =>
        subst hsc
        simp only [locate] at hloc
        split at hloc
        · rename_i heq
          cases hloc
          exact .inl ⟨heq ▸ hname, .inl rfl⟩
        · rename_i hne
          exact .inr (.direct (by simp [hname, Ne.symm hne]) hloc)
    | through _ hcd ih _ =>
        rcases ih hsc with ⟨hname, heq | hread⟩ | hread
        · cases heq
          exact .inl ⟨hname, .inr hcd⟩
        · exact .inl ⟨hname, .inr (.through hread hcd)⟩
        · exact .inr (.through hread hcd)
  · have lift (w : List String) (hw : c.name ∉ w) (h : Reads s rest w d oldest) :
        Reads s (c :: rest) w d oldest := by
      induction h with
      | @direct scope older w name d hname hloc =>
          have hne : ¬ c.name = name := fun heq => hw (heq ▸ hname)
          exact .direct hname (by simp [locate, hne, hloc])
      | through _ hcd ih _ => exact .through (ih hw) hcd
    have hself (hname : c.name ∈ wanted) : Reads s (c :: rest) wanted c rest :=
      .direct hname (by simp [locate])
    rintro (⟨hname, heq | hread⟩ | hread)
    · cases heq
      exact hself hname
    · exact .through (hself hname) hread
    · exact (lift _ (by simp) hread).mono (List.filter_subset_self _)

theorem affects_subset (h : Reads s scope wanted d oldest) (hr : scope.Resolved)
    {bound : List String}
    (hb : ∀ i ∈ wanted, ∀ e, scope.lookup i = some e → e.affects ⊆ bound) :
    d.affects ⊆ bound := by
  induction h with
  | direct hname hloc => exact hb _ hname _ (lookup_of_locate hloc)
  | through hc _ ih ih' =>
      have hcr := hr.suffix hc.suffix
      have hcb := ih hr hb
      refine ih' (hr.suffix ((List.suffix_cons _ _).trans hc.suffix)) ?_
      intro i hi e he
      exact List.Subset.trans (hcr.affects_input hi he) hcb

end Reads

section Needs

variable {s : Systematic} {scope older : Scope} {wanted : List String} {c : Column}

theorem mem_needs : (c, older) ∈ scope.needs s wanted ↔
    Reads s scope wanted c older ∧ c.isComputed s = true := by
  induction scope generalizing wanted with
  | nil =>
      simp only [needs, List.not_mem_nil, false_iff, not_and]
      intro h
      simpa using h.suffix
  | cons d rest ih =>
      rw [Reads.cons_iff]
      simp only [needs]
      split
      · rename_i hname
        split
        · rename_i hcomp
          simp only [List.mem_append, List.mem_singleton, ih, Reads.append_iff, hname, true_and]
          constructor
          · rintro (⟨h | h, hc⟩ | heq)
            · exact ⟨.inl (.inr h), hc⟩
            · exact ⟨.inr h, hc⟩
            · cases heq
              exact ⟨.inl (.inl rfl), hcomp⟩
          · rintro ⟨(heq | h) | h, hc⟩
            · exact .inr heq
            · exact .inl ⟨.inl h, hc⟩
            · exact .inl ⟨.inr h, hc⟩
        · rename_i hcomp
          have hbranch : (d.specUnder s).inputs = [] := by
            simp only [Column.isComputed, Bool.not_eq_true', Bool.not_eq_false] at hcomp
            cases hspec : d.specUnder s <;> simp_all [Specification.isBranch, Specification.inputs]
          simp only [ih, hname, true_and, hbranch]
          constructor
          · rintro ⟨h, hc⟩
            exact ⟨.inr h, hc⟩
          · rintro ⟨(heq | h) | h, hc⟩
            · cases heq
              exact absurd hc hcomp
            · exact absurd h Reads.not_nil
            · exact ⟨h, hc⟩
      · rename_i hname
        have hfilter : (wanted.filter fun name => name != d.name) = wanted := by
          rw [List.filter_eq_self]
          intro name hmem
          simp only [bne_iff_ne, ne_eq]
          exact fun heq => hname (heq ▸ hmem)
        simp [ih, hname, hfilter]

@[simp] theorem needs_nil (s : Systematic) (scope : Scope) : scope.needs s [] = [] := by
  induction scope with
  | nil => rfl
  | cons c older ih => simpa [needs] using ih

theorem pairwise_needs (s : Systematic) (scope : Scope) (wanted : List String) :
    (scope.needs s wanted).Pairwise fun a b => a.2.length < b.2.length := by
  induction scope generalizing wanted with
  | nil => exact List.Pairwise.nil
  | cons d rest ih =>
      simp only [needs]
      split
      · split
        · rw [List.pairwise_append]
          refine ⟨ih _, List.pairwise_singleton _ _, ?_⟩
          rintro ⟨c, older⟩ hc b hb
          rw [List.mem_singleton] at hb
          subst hb
          have hlen : older.length + 1 ≤ rest.length := (mem_needs.mp hc).1.suffix.length_le
          exact hlen
        · exact ih _
      · exact ih _

theorem mem_of_needs_split {pre post : List (Column × Scope)} {d : Column} {oldest : Scope}
    (hsplit : scope.needs s wanted = pre ++ (c, older) :: post)
    (hread : Reads s older (c.specUnder s).inputs d oldest) (hcomp : d.isComputed s = true) :
    (d, oldest) ∈ pre := by
  have hc : (c, older) ∈ scope.needs s wanted := by simp [hsplit]
  have hd : (d, oldest) ∈ scope.needs s wanted :=
    mem_needs.mpr ⟨.through (mem_needs.mp hc).1 hread, hcomp⟩
  have hlen : oldest.length < older.length := by
    have hsuffix : oldest.length + 1 ≤ older.length := hread.suffix.length_le
    omega
  have hord := pairwise_needs s scope wanted
  rw [hsplit, List.pairwise_append, List.pairwise_cons] at hord
  rw [hsplit, List.mem_append, List.mem_cons] at hd
  rcases hd with hd | heq | hd
  · exact hd
  · cases heq
    exact absurd hlen (Nat.lt_irrefl _)
  · exact absurd (hord.2.1.1 _ hd) (Nat.lt_asymm hlen)

theorem needs_congr {s' : Systematic}
    (h : ∀ c older, Reads s scope wanted c older → c.effective s = c.effective s') :
    scope.needs s wanted = scope.needs s' wanted := by
  induction scope generalizing wanted with
  | nil => rfl
  | cons d rest ih =>
      simp only [needs]
      split
      · rename_i hname
        have hd : d.effective s = d.effective s' :=
          h d rest (Reads.cons_iff.mpr (.inl ⟨hname, .inl rfl⟩))
        have hspec : d.specUnder s = d.specUnder s' := by simp only [Column.specUnder, hd]
        have hcomp : d.isComputed s = d.isComputed s' := by simp only [Column.isComputed, hspec]
        rw [hcomp, hspec]
        split
        · congr 1
          apply ih
          intro c older hread
          apply h c older
          rw [Reads.cons_iff]
          rcases Reads.append_iff.mp hread with hread | hread
          · exact .inl ⟨hname, .inr (hspec ▸ hread)⟩
          · exact .inr hread
        · exact ih fun c older hread => h c older (Reads.cons_iff.mpr (.inr hread))
      · rename_i hname
        apply ih
        intro c older hread
        refine h c older (Reads.cons_iff.mpr (.inr (hread.mono fun name hmem => ?_)))
        simp only [List.mem_filter, hmem, bne_iff_ne, ne_eq, true_and]
        exact fun heq => hname (heq ▸ hmem)

end Needs

end Scope
end SelectionPlan
