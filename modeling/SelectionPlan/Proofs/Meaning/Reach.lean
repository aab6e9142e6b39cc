import SelectionPlan.Proofs.Meaning.Naive
import SelectionPlan.Proofs.Scope.Reach

/-!
# Variations that change nothing

What is noted of variations at columns and places is exact.  A variation that is not noted at a
column leaves its values nominal, and one that is not noted at a place leaves the selection there
nominal, so that planning may use the nominal ones in their stead.
-/

namespace SelectionPlan
namespace ScopeIndex

/-- What an index notes of a tree is what the tree says, and leaves out only what does not matter
to any table. -/
structure Faithful (t : SelectionTree) (index : ScopeIndex) : Prop where
  /-- Every input of a variable, under any override, means one variable before it. -/
  input : ∀ a v, t.variableAt? a = some v → ∀ spec ∈ v.specs, ∀ i ∈ spec.inputs,
    ∃! b, t.Precedes b a ∧ (t.variableAt? b).map Variable.name = some i
  /-- Every input of a filter, under any override, means one variable on the way to its node. -/
  filterInput : ∀ node v, t.nodes[node]?.bind Node.filter = some v → ∀ spec ∈ v.specs,
    ∀ i ∈ spec.inputs,
      ∃! b, b.node ∈ t.path node ∧ (t.variableAt? b).map Variable.name = some i
  affects : ∀ a variation, variation ∈ index.affects a ↔
    ∃ b, Relation.ReflTransGen t.RefersTo a b ∧ t.OverriddenAt variation b
  place : ∀ i < t.size, ∃ p, index.place? i = some p
  chain : ∀ i p, index.place? i = some p → ∀ variation, variation ∈ p.chain ↔
    ∃ m ∈ t.path i, ∃ v, t.nodes[m]?.bind Node.filter = some v ∧
      (variation ∈ v.overridden ∨ ∃ b, t.FilterRefersTo m b ∧ variation ∈ index.affects b)
  chain_subset : ∀ i p, index.place? i = some p → ∀ m ∈ t.path i, ∀ q, index.place? m = some q →
    q.chain ⊆ p.chain
  /-- From wherever a variable is read, a variation that does not affect it does not show. -/
  value : ∀ a v, t.variableAt? a = some v → ∀ i < t.size, a.node ∈ t.path i →
    ∀ variation ∉ index.affects a, ∀ (table : EventTable) (row : Nat),
      table.read (.variation variation) row (t.visible i) v.name =
        table.read .nominal row (t.visible i) v.name
  selection : ∀ i p, index.place? i = some p → ∀ variation ∉ p.chain, ∀ table : EventTable,
    t.selectedRows table (.variation variation) i = t.selectedRows table .nominal i

namespace Lawful

variable {t : SelectionTree} {index : ScopeIndex} (h : Lawful t index)
include h

theorem read_unaffected {a : ColumnRef} {v : Variable} (ha : t.variableAt? a = some v) {i : Nat}
    (hi : i < t.size) (hnode : a.node ∈ t.path i) {variation : String}
    (haffects : variation ∉ index.affects a) (table : EventTable) (row : Nat) :
    table.read (.variation variation) row (t.visible i) v.name =
      table.read .nominal row (t.visible i) v.name := by
  obtain ⟨p, hp⟩ := h.exists_place hi
  have hname : (t.variableAt? a).map Variable.name = some v.name := by rw [ha, Option.map_some]
  obtain ⟨c, hc, rfl⟩ := (h.lookup_scope hp).mpr ⟨hnode, hname⟩
  obtain ⟨older, hdecl⟩ := declares_of_mem hp ((h.resolved hp).lookup_eq_some.mp hc).1
  rw [h.affects_of_declares hdecl] at haffects
  rw [← h.scope_declared hp]
  refine (h.resolved hp).read_congr fun d hd => ?_
  rw [hc, Option.some.injEq] at hd
  rw [← hd]
  exact if_neg haffects

theorem selectedRows_unaffected {i : Nat} {p : Place} (hp : index.place? i = some p)
    {variation : String} (hchain : variation ∉ p.chain) (table : EventTable) :
    t.selectedRows table (.variation variation) i = t.selectedRows table .nominal i := by
  have hpasses (row : Nat) : ∀ m ∈ t.path i, t.passes table (.variation variation) row m =
      t.passes table .nominal row m := by
    intro m hm
    have hi := (h.place_lt hp).2
    obtain ⟨q, hq⟩ := h.exists_place (Nat.lt_of_le_of_lt (h.wellFormed.le_of_mem_path hi hm) hi)
    have hnominal : q.chainUnder (.variation variation) = .nominal :=
      if_neg fun hmem => hchain (h.chain_subset hp hq hm hmem)
    rw [← h.passes_chainUnder hq (.variation variation), hnominal]
  refine List.filter_congr fun row _ => ?_
  rw [Bool.eq_iff_iff, List.all_eq_true, List.all_eq_true]
  exact forall₂_congr fun m hm => by rw [hpasses row m hm]

end Lawful

/-- How far variations reach is computed exactly, and it is sound to leave out the others. -/
theorem faithful_of_build {t : SelectionTree} {index : ScopeIndex} (ht : t.Reachable)
    (hindex : build t = .ok index) : index.Faithful t := by
  have h := lawful_of_build ht.wellFormed hindex
  constructor
  case input => exact fun a v ha spec hspec i hi => h.existsUnique_input ha hspec hi
  case filterInput =>
    exact fun node v hv spec hspec i hi => h.existsUnique_filterInput hv hspec hi
  case affects => exact fun a variation => h.mem_affects
  case place => exact fun i hi => h.exists_place hi
  case chain => exact fun i p hp variation => h.mem_chain_iff hp
  case chain_subset => exact fun i p hp m hm q hq => h.chain_subset hp hq hm
  case value =>
    exact fun a v ha i hi hnode variation hvariation table row =>
      h.read_unaffected ha hi hnode hvariation table row
  case selection =>
    exact fun i p hp variation hvariation table => h.selectedRows_unaffected hp hvariation table

/-- In the sample, `up` reaches the score, which reads the column that it overrides. -/
theorem faithful_of_build_sample : ∃ index, build Sample.tree = .ok index ∧
    index.Faithful Sample.tree ∧ "up" ∈ index.affects ⟨0, 1⟩ := by
  obtain ⟨index, hindex⟩ : ∃ index, build Sample.tree = .ok index :=
    exists_ok_of_isOk (by decide)
  have hfaithful := faithful_of_build Sample.tree_reachable hindex
  refine ⟨index, hindex, hfaithful, (hfaithful.affects ⟨0, 1⟩ "up").mpr ⟨⟨0, 0⟩, ?_, ?_⟩⟩
  · refine .single ⟨Sample.score, Sample.pt, rfl, rfl, .inr ⟨rfl, Nat.zero_lt_one⟩, ?_⟩
    exact ⟨Sample.score.nominal, List.mem_cons_self, List.mem_cons_self⟩
  · exact ⟨Sample.pt, rfl, by decide⟩

end ScopeIndex
end SelectionPlan
