import SelectionPlan.Proofs.Meaning.Reach
import SelectionPlan.Proofs.Tree.Weighing

/-!
# Weights are products

The weight of a node is the product of the factors of the weighed nodes on the way to it, from the
last one that replaces what it inherits.  Each product reads the one above it and the factor of its
own node, so it has their values and is changed by the variations that change them.
-/

namespace SelectionPlan

theorem Scope.Resolved.lookup_suffix {scope older : Scope} (h : scope.Resolved)
    (hs : older <:+ scope) {name : String} {c : Column} (hc : older.lookup name = some c) :
    scope.lookup name = some c := by
  obtain ⟨hmem, hname⟩ := (h.suffix hs).lookup_eq_some.mp hc
  exact h.lookup_eq_some.mpr ⟨hs.subset hmem, hname⟩

theorem Scope.Resolved.read_suffix {scope older : Scope} (h : scope.Resolved)
    (hs : older <:+ scope) {name : String} {c : Column} (hc : older.lookup name = some c)
    (table : EventTable) (s : Systematic) (row : Nat) :
    table.read s row (scope.map Column.declared) name =
      table.read s row (older.map Column.declared) name := by
  obtain ⟨oldest, hlocate⟩ := Scope.exists_locate hc
  obtain ⟨hsuffix, rfl⟩ := Scope.locate_suffix hlocate
  rw [Scope.read_located hlocate, Scope.read_located (h.locate_name (hsuffix.trans hs))]

/-- The weighings in effect among those on a path: the last one that replaces what was above it, or
the topmost one, and those after it. -/
structure InEffect (along : List Weighing) (first : Weighing) (rest : List Weighing) : Prop where
  suffix : first :: rest <:+ along
  multiplies : ∀ w ∈ rest, w.strategy = .multiplicative
  starts : first.strategy = .replace ∨ first :: rest = along

theorem InEffect.concat {along rest : List Weighing} {first w : Weighing}
    (h : InEffect along first rest) (hw : w.strategy = .multiplicative) :
    InEffect (along ++ [w]) first (rest ++ [w]) := by
  constructor
  · obtain ⟨before, hbefore⟩ := h.suffix
    exact ⟨before, by rw [← hbefore, List.append_assoc, List.cons_append]⟩
  · intro w' hw'
    rcases List.mem_append.mp hw' with hw' | hw'
    · exact h.multiplies w' hw'
    · rw [List.mem_singleton.mp hw', hw]
  · rcases h.starts with hreplace | hall
    · exact .inl hreplace
    · exact .inr (by rw [← hall, List.cons_append])

namespace SelectionTree

def weighingsAlong (t : SelectionTree) (log : List Weighing) (i : Nat) : List Weighing :=
  (t.path i).filterMap fun m => log.find? fun w => w.node = m

theorem Weighed.find?_eq_some {t : SelectionTree} {log : List Weighing} (h : t.Weighed log)
    {i : Nat} {w : Weighing} : (log.find? fun w => decide (w.node = i)) = some w ↔
      w ∈ log ∧ w.node = i := by
  constructor
  · intro hw
    exact ⟨List.mem_of_find?_eq_some hw, by simpa using List.find?_some hw⟩
  · rintro ⟨hmem, hnode⟩
    cases hfind : log.find? fun w => decide (w.node = i) with
    | none => exact absurd hnode (by simpa using List.find?_eq_none.mp hfind w hmem)
    | some w' =>
        have hnode' : w'.node = i := by simpa using List.find?_some hfind
        have hsame := List.inj_on_of_nodup_map h.nodup (List.mem_of_find?_eq_some hfind) hmem
          (hnode'.trans hnode.symm)
        rw [hsame]

theorem Weighed.ownWeight_eq_none {t : SelectionTree} {log : List Weighing} (h : t.Weighed log)
    {i : Nat} : t.ownWeight i = none ↔ (log.find? fun w => decide (w.node = i)) = none := by
  rw [← Option.not_isSome_iff_eq_none, List.find?_eq_none]
  constructor
  · intro hi w hw hnode
    have hnode : w.node = i := of_decide_eq_true hnode
    subst hnode
    obtain ⟨-, -, -, hsome⟩ := stands_ownWeight (h.stands w hw)
    exact hi hsome
  · intro hnone hsome
    obtain ⟨w, hw, hnode⟩ := List.mem_map.mp (h.logged i hsome)
    exact hnone w hw (decide_eq_true hnode)

theorem WellFormed.weight_eq_or {t : SelectionTree} (ht : t.WellFormed) (i : Nat) :
    t.weight i = (t.ownWeight i).or (t.inheritedWeight i) := by
  rw [weight_eq, ht.inheritedWeight_eq]
  conv_lhs => rw [← t.dropLast_path i]
  rw [List.reverse_append, List.findSome?_append, List.reverse_singleton, List.findSome?_singleton]

end SelectionTree

/-- The value of the factor of a weighing, read at the node that it weighs. -/
def Weighing.value (t : SelectionTree) (table : EventTable) (s : Systematic) (row : Nat)
    (w : Weighing) : Float := table.read s row (t.visible w.node) w.factor.name

namespace ScopeIndex

def columnAt? (index : ScopeIndex) (node : Nat) (name : String) : Option Column :=
  (index.place? node).bind fun p => p.scope.lookup name

/-- A column that can be read at a node is the product of the factors of some weighings. -/
structure Multiplies (t : SelectionTree) (index : ScopeIndex) (node : Nat) (column : String)
    (first : Weighing) (rest : List Weighing) : Prop where
  value : ∀ (table : EventTable) (s : Systematic) (row : Nat),
    table.read s row (t.visible node) column =
      rest.foldl (fun total w => total * w.value t table s row) (first.value t table s row)
  affects : ∃ c, index.columnAt? node column = some c ∧ ∀ variation, variation ∈ c.affects ↔
    ∃ w ∈ first :: rest, ∃ d, index.columnAt? w.node w.factor.name = some d ∧
      variation ∈ d.affects

namespace Lawful

variable {t : SelectionTree} {index : ScopeIndex} (h : Lawful t index)
include h

theorem columnAt?_of_defines {i : Nat} {node : Node} (hnode : t.nodes[i]? = some node)
    {name : String} (hdefines : node.defines name = true) :
    ∃ c, index.columnAt? i name = some c ∧ c.ref.node = i := by
  simp only [Node.defines, List.any_eq_true, beq_iff_eq] at hdefines
  obtain ⟨v, hv, rfl⟩ := hdefines
  obtain ⟨slot, hslot⟩ := List.getElem?_of_mem hv
  have hi := (List.getElem?_eq_some_iff.mp hnode).1
  obtain ⟨p, hp⟩ := h.exists_place hi
  have hvariable : (t.variableAt? ⟨i, slot⟩).map Variable.name = some v.name := by
    simp [SelectionTree.variableAt?, SelectionTree.own, hnode, hslot]
  obtain ⟨c, hc, href⟩ := (h.lookup_scope hp).mpr ⟨h.wellFormed.mem_path_self hi, hvariable⟩
  exact ⟨c, by rw [columnAt?, hp, Option.bind_some, hc], by rw [href]⟩

theorem multiplies_child {i parent : Nat} (hparent : t.parent? i = some parent) {column : String}
    {first : Weighing} {rest : List Weighing} (hm : Multiplies t index parent column first rest) :
    Multiplies t index i column first rest := by
  obtain ⟨p, q, hp, hq, hext⟩ := h.child i parent hparent
  obtain ⟨c, hc, haffects⟩ := hm.affects
  rw [columnAt?, hq, Option.bind_some] at hc
  constructor
  · intro table s row
    have hread := hext.resolved.read_suffix hext.suffix hc table s row
    rw [h.scope_declared hp, h.scope_declared hq] at hread
    rw [hread, hm.value]
  · exact ⟨c, by rw [columnAt?, hp, Option.bind_some, hext.resolved.lookup_suffix hext.suffix hc],
      haffects⟩

theorem multiplies_alone {w : Weighing} {node : Node} (hnode : t.nodes[w.node]? = some node)
    (hdefines : node.defines w.factor.name = true) :
    Multiplies t index w.node w.factor.name w [] := by
  obtain ⟨c, hc, -⟩ := h.columnAt?_of_defines hnode hdefines
  constructor
  · intro table s row
    rfl
  · exact ⟨c, hc, fun variation => by simp [hc]⟩

theorem multiplies_product {w : Weighing} {node : Node} {total inherited : String}
    (hnode : t.nodes[w.node]? = some node)
    (hproduct : Variable.product total inherited w.factor.name ∈ node.ownVariables)
    {first : Weighing} {rest : List Weighing}
    (hm : Multiplies t index w.node inherited first rest) :
    Multiplies t index w.node total first (rest ++ [w]) := by
  obtain ⟨p, hp⟩ := h.exists_place (List.getElem?_eq_some_iff.mp hnode).1
  have hresolved := h.resolved hp
  -- The column of the product, and what it sees.
  obtain ⟨c, older, hsuffix, hdeclared⟩ : ∃ c older, c :: older <:+ p.scope ∧
      c.declared = .product total inherited w.factor.name := by
    obtain ⟨scope, chain, hext⟩ := h.extends_of_place hp
    obtain ⟨node', hnode', -, -, -, hdecl⟩ := hext.declaration
    rw [hnode, Option.some.injEq] at hnode'
    subst hnode'
    have hmem : Variable.product total inherited w.factor.name ∈ p.scope.map Column.declared := by
      simp [hdecl, hproduct]
    obtain ⟨c, hc, hdeclared⟩ := List.mem_map.mp hmem
    obtain ⟨older, hsuffix⟩ := Scope.exists_suffix hc
    exact ⟨c, older, hsuffix, hdeclared⟩
  have hname : c.name = total := by rw [Column.name, hdeclared]; rfl
  have hlocate : p.scope.locate total = some (c, older) := hname ▸ hresolved.locate_name hsuffix
  have holder : older <:+ p.scope := (List.suffix_cons c older).trans hsuffix
  have hinputs : ∀ i, i ∈ c.declared.allInputs ↔ i = inherited ∨ i = w.factor.name := by
    intro i
    simp [hdeclared, Variable.mem_allInputs_iff, Variable.product, Variable.computed,
      Variable.specs, Specification.inputs]
  cases hresolved.suffix hsuffix with
  | cons _ _ hfound haffects =>
      obtain ⟨d, hd⟩ := hfound inherited ((hinputs _).mpr (.inl rfl))
      obtain ⟨e, he⟩ := hfound w.factor.name ((hinputs _).mpr (.inr rfl))
      have hd' : index.columnAt? w.node inherited = some d := by
        rw [columnAt?, hp, Option.bind_some, hresolved.lookup_suffix holder hd]
      have he' : index.columnAt? w.node w.factor.name = some e := by
        rw [columnAt?, hp, Option.bind_some, hresolved.lookup_suffix holder he]
      constructor
      · intro table s row
        have hspec : ∀ s, c.declared.spec s =
            (Variable.product total inherited w.factor.name).nominal := by
          intro s
          rw [hdeclared]
          cases s <;> rfl
        have hvalue : table.read s row (p.scope.map Column.declared) total =
            table.read s row (older.map Column.declared) inherited *
              table.read s row (older.map Column.declared) w.factor.name := by
          rw [Scope.read_located hlocate, hspec]
          rfl
        rw [← hresolved.read_suffix holder hd, ← hresolved.read_suffix holder he,
          h.scope_declared hp, hm.value] at hvalue
        rw [hvalue, List.foldl_append]
        rfl
      · refine ⟨c, ?_, fun variation => ?_⟩
        · rw [columnAt?, hp, Option.bind_some, Scope.lookup_of_locate hlocate]
        · obtain ⟨d', hinherited, hfactors⟩ := hm.affects
          rw [hd', Option.some.injEq] at hinherited
          subst hinherited
          have hnone : c.declared.overridden = [] := by rw [hdeclared]; rfl
          rw [haffects, hnone, ← List.cons_append]
          simp only [List.mem_append, or_and_right, exists_or, ← hfactors, hinputs,
            List.not_mem_nil, false_or, exists_eq_left, hd, he, Option.some.injEq,
            exists_eq_left', List.mem_singleton, he']

/-- The weight at a node, given what it inherits. -/
theorem weight_step {log : List Weighing} (hw : t.Weighed log) {i : Nat}
    (hinherited : (t.inheritedWeight i = none ↔
      ((t.path i).dropLast.filterMap fun m => log.find? fun w => decide (w.node = m)) = []) ∧
      ∀ column, t.inheritedWeight i = some column → ∃ first rest,
        InEffect ((t.path i).dropLast.filterMap fun m => log.find? fun w => decide (w.node = m))
          first rest ∧
        Multiplies t index i column first rest) :
    (t.weight i = none ↔ t.weighingsAlong log i = []) ∧
      ∀ column, t.weight i = some column → ∃ first rest,
        InEffect (t.weighingsAlong log i) first rest ∧
          Multiplies t index i column first rest := by
  have halong : t.weighingsAlong log i =
      ((t.path i).dropLast.filterMap fun m => log.find? fun w => decide (w.node = m)) ++
        (log.find? fun w => decide (w.node = i)).toList := by
    rw [SelectionTree.weighingsAlong]
    conv_lhs => rw [← t.dropLast_path i]
    rw [List.filterMap_append]
    cases hfind : log.find? fun w => decide (w.node = i) <;> simp [hfind]
  obtain ⟨hnone, hsome⟩ := hinherited
  rw [halong, h.wellFormed.weight_eq_or]
  cases hfind : log.find? fun w => decide (w.node = i) with
  | none =>
      rw [hw.ownWeight_eq_none.mpr hfind, Option.none_or, Option.toList_none, List.append_nil]
      exact ⟨hnone, hsome⟩
  | some w =>
      obtain ⟨hmem, rfl⟩ := hw.find?_eq_some.mp hfind
      rw [Option.toList_some]
      cases hw.stands w hmem with
      | alone hnode hdefines halone hweight =>
          have hown : t.ownWeight w.node = some w.factor.name := by
            rw [SelectionTree.ownWeight, hnode, Option.bind_some, hweight]
          rw [hown, Option.some_or]
          refine ⟨by simp, fun column hcolumn => ?_⟩
          cases hcolumn
          refine ⟨w, [], ⟨List.suffix_append _ _, by simp, ?_⟩, h.multiplies_alone hnode hdefines⟩
          rcases halone with hreplace | hnothing
          · exact .inl hreplace
          · exact .inr (by rw [hnone.mp hnothing, List.nil_append])
      | @product node inherited hnode hdefines hstrategy hbelow hproduct hweight =>
          have hown : t.ownWeight w.node = some ("weight_" ++ node.name) := by
            rw [SelectionTree.ownWeight, hnode, Option.bind_some, hweight]
          rw [hown, Option.some_or]
          refine ⟨by simp, fun column hcolumn => ?_⟩
          cases hcolumn
          obtain ⟨first, rest, heffect, hm⟩ := hsome inherited hbelow
          exact ⟨first, rest ++ [w], heffect.concat hstrategy,
            h.multiplies_product hnode hproduct hm⟩

theorem weight_multiplies {log : List Weighing} (hw : t.Weighed log) {i : Nat} (hi : i < t.size) :
    (t.weight i = none ↔ t.weighingsAlong log i = []) ∧
      ∀ column, t.weight i = some column → ∃ first rest,
        InEffect (t.weighingsAlong log i) first rest ∧
          Multiplies t index i column first rest := by
  induction i, hi using h.wellFormed.induction with
  | root =>
      refine h.weight_step hw ⟨?_, ?_⟩
      · simp [SelectionTree.inheritedWeight, h.wellFormed.parent_root, SelectionTree.path_root]
      · simp [SelectionTree.inheritedWeight, h.wellFormed.parent_root]
  | child i parent hparent ih =>
      have hinherited : t.inheritedWeight i = t.weight parent := by
        rw [SelectionTree.inheritedWeight, hparent, Option.bind_some]
      refine h.weight_step hw ?_
      rw [hinherited, h.wellFormed.path_child hparent, List.dropLast_concat]
      refine ⟨ih.1, fun column hcolumn => ?_⟩
      obtain ⟨first, rest, heffect, hm⟩ := ih.2 column hcolumn
      exact ⟨first, rest, heffect, h.multiplies_child hparent hm⟩

end Lawful
end ScopeIndex
end SelectionPlan
