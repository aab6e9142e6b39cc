import SelectionPlan.Proofs.Scope.Place

/-!
# Trees in which every name means something

Names are resolved exactly if every one that is read is that of an older variable on the path, and
no two variables on a path share theirs.  Otherwise the error names a variable or a filter where
this fails.
-/

namespace SelectionPlan

theorem Variable.mem_allInputs_iff {v : Variable} {i : String} :
    i ∈ v.allInputs ↔ ∃ spec ∈ v.specs, i ∈ spec.inputs := by
  rw [Variable.allInputs, mem_sortDistinct, List.mem_flatMap]

namespace Scope

variable {scope : Scope} {path : String} {node : Nat}

theorem lookup_eq_none {name : String} : scope.lookup name = none ↔
    name ∉ (scope.map Column.declared).map Variable.name := by
  simp [lookup, Column.name]

theorem lookup_isSome {name : String} : (scope.lookup name).isSome ↔
    name ∈ (scope.map Column.declared).map Variable.name := by
  rw [Option.isSome_iff_ne_none, ne_eq, lookup_eq_none, not_not]

theorem reach_meets (own inputs : List String) (reader : String) :
    Meets (scope.reach own inputs reader path) (fun _ => True) fun e =>
      ∃ i ∈ inputs, scope.lookup i = none ∧ e = .unresolved i reader .nominal path := by
  refine Meets.foldlM (I := fun _ _ => True) trivial fun done i reached hpre _ => ?_
  have hi : i ∈ inputs := hpre.subset (by simp)
  cases hlookup : scope.lookup i with
  | none =>
      rw [require, hlookup]
      exact ⟨i, hi, hlookup, rfl⟩
  | some c =>
      rw [require, hlookup]
      trivial

theorem declare_meets (v : Variable) (slot : Nat) :
    Meets (scope.declare path node (v, slot))
      (fun grown => grown.map Column.declared = v :: scope.map Column.declared) fun e =>
        (∃ i ∈ v.allInputs, scope.lookup i = none ∧ e = .unresolved i v.name .nominal path) ∨
        (scope.lookup v.name).isSome ∧ e = .naming (.duplicateDefinition v.name path) := by
  rw [declare]
  refine ((reach_meets _ _ _).excused fun e he => .inl he).bind fun affects _ => ?_
  split
  · exact .inr ⟨‹_›, rfl⟩
  · rfl

end Scope

namespace SelectionTree

def own (t : SelectionTree) (node : Nat) : List Variable :=
  (t.nodes[node]?.map Node.ownVariables).getD []

def inherited (t : SelectionTree) (node : Nat) : List Variable :=
  (t.path node).dropLast.flatMap t.own

/-- The name of a variable of a strict ancestor, or of one that its node declares before `slot`. -/
def Sees (t : SelectionTree) (node slot : Nat) (name : String) : Prop :=
  name ∈ (t.inherited node ++ (t.own node).take slot).map Variable.name

/-- Trees in which every input means an older variable and no path has two variables of one name. -/
structure Readable (t : SelectionTree) : Prop where
  /-- A variable reads ancestors' variables and earlier ones of its node, nominally and under every
  override. -/
  inputs : ∀ node slot v, (t.own node)[slot]? = some v → ∀ spec ∈ v.specs, ∀ i ∈ spec.inputs,
    t.Sees node slot i
  /-- A filter reads variables on the path to its node. -/
  filterInputs : ∀ node v, t.nodes[node]?.bind Node.filter = some v → ∀ spec ∈ v.specs,
    ∀ i ∈ spec.inputs, i ∈ (t.visible node).map Variable.name
  names : ∀ node < t.size, ((t.visible node).map Variable.name).Nodup

inductive Misread (t : SelectionTree) : BuildError → Prop
  | input {node slot : Nat} {v : Variable} {i : String} : (t.own node)[slot]? = some v →
      i ∈ v.allInputs → ¬ t.Sees node slot i →
      Misread t (.unresolved i v.name .nominal (t.pathText node))
  | filterInput {node : Nat} {n : Node} {v : Variable} {i : String} : t.nodes[node]? = some n →
      n.filter = some v → i ∈ v.allInputs → i ∉ (t.visible node).map Variable.name →
      Misread t (.unresolved i n.name .nominal (t.pathText node))
  | duplicate {node slot : Nat} {v : Variable} : (t.own node)[slot]? = some v →
      t.Sees node slot v.name →
      Misread t (.naming (.duplicateDefinition v.name (t.pathText node)))

variable {t : SelectionTree}

theorem dropLast_path (t : SelectionTree) (node : Nat) :
    (t.path node).dropLast ++ [node] = t.path node := by
  cases node with
  | zero => rfl
  | succ i =>
      rw [path, pathWithin]
      cases t.parent? (i + 1) with
      | none => rfl
      | some parent => simp only [List.dropLast_concat]

theorem visible_eq (t : SelectionTree) (node : Nat) :
    t.visible node = (t.inherited node ++ t.own node).reverse := by
  have happend : (t.path node).flatMap t.own = t.inherited node ++ t.own node := by
    rw [← t.dropLast_path node, List.flatMap_append, inherited, List.flatMap_singleton]
  rw [visible, ← happend]
  rfl

theorem WellFormed.inherited_child (ht : t.WellFormed) {node parent : Nat}
    (hparent : t.parent? node = some parent) : t.inherited node = (t.visible parent).reverse := by
  rw [inherited, ht.path_child hparent, List.dropLast_concat, visible, List.reverse_reverse]
  rfl

theorem lt_size_of_own {node slot : Nat} {v : Variable} (h : (t.own node)[slot]? = some v) :
    node < t.size := by
  by_contra hge
  rw [own, List.getElem?_eq_none (Nat.le_of_not_lt hge)] at h
  cases h

theorem own_split {node slot : Nat} {v : Variable} (h : (t.own node)[slot]? = some v) :
    t.own node = (t.own node).take slot ++ v :: (t.own node).drop (slot + 1) := by
  obtain ⟨hlt, rfl⟩ := List.getElem?_eq_some_iff.mp h
  rw [List.getElem_cons_drop, List.take_append_drop]

theorem Readable.not_misread (h : t.Readable) (e : BuildError) : ¬ t.Misread e := by
  intro hmisread
  cases hmisread with
  | input hslot hi hunseen =>
      obtain ⟨spec, hspec, hi⟩ := Variable.mem_allInputs_iff.mp hi
      exact hunseen (h.inputs _ _ _ hslot spec hspec _ hi)
  | @filterInput node n v i hnode hfilter hi hunseen =>
      obtain ⟨spec, hspec, hi⟩ := Variable.mem_allInputs_iff.mp hi
      exact hunseen (h.filterInputs node v (by simp [hnode, hfilter]) spec hspec _ hi)
  | @duplicate node slot v hslot hseen =>
      have hnames := h.names node (lt_size_of_own hslot)
      rw [visible_eq, List.map_reverse, List.nodup_reverse, own_split hslot, ← List.append_assoc,
        List.map_append, List.map_cons] at hnames
      exact (List.nodup_append.mp hnames).2.2 _ hseen _ List.mem_cons_self rfl

private theorem declare_slot {scope : Scope} {node slot : Nat} {v : Variable}
    (hslot : (t.own node)[slot]? = some v)
    (hscope : scope.map Column.declared = (t.inherited node ++ (t.own node).take slot).reverse) :
    Meets (scope.declare (t.pathText node) node (v, slot))
      (fun grown => grown.map Column.declared =
        (t.inherited node ++ (t.own node).take (slot + 1)).reverse) t.Misread := by
  have hsees (name : String) : t.Sees node slot name ↔
      name ∈ (scope.map Column.declared).map Variable.name := by
    rw [hscope, Sees, List.map_reverse, List.mem_reverse]
  refine ((Scope.declare_meets v slot).excused ?_).mono ?_
  · rintro e (⟨i, hi, hunseen, rfl⟩ | ⟨hseen, rfl⟩)
    · rw [Scope.lookup_eq_none, ← hsees] at hunseen
      exact .input hslot hi hunseen
    · rw [Scope.lookup_isSome, ← hsees] at hseen
      exact .duplicate hslot hseen
  · intro grown hgrown
    rw [hgrown, hscope, List.take_add_one, hslot]
    simp

private theorem declare_own {scope : Scope} {node : Nat}
    (hscope : scope.map Column.declared = (t.inherited node).reverse) :
    Meets ((t.own node).zipIdx.foldlM (Scope.declare (t.pathText node) node) scope)
      (fun grown => grown.map Column.declared = t.visible node) t.Misread := by
  have hloop : Meets ((t.own node).zipIdx.foldlM (Scope.declare (t.pathText node) node) scope)
      (fun grown => grown.map Column.declared = (t.inherited node ++
        (t.own node).take (t.own node).zipIdx.length).reverse) t.Misread := by
    refine Meets.foldlM (I := fun done (grown : Scope) => grown.map Column.declared =
      (t.inherited node ++ (t.own node).take done.length).reverse) (by simpa using hscope) ?_
    rintro done ⟨v, slot⟩ grown ⟨rest, hsplit⟩ hgrown
    have hget : (t.own node).zipIdx[done.length]? = some (v, slot) := by simp [← hsplit]
    rw [List.getElem?_zipIdx] at hget
    obtain ⟨w, hw, heq⟩ := Option.map_eq_some_iff.mp hget
    cases heq
    rw [Nat.zero_add, List.length_append, List.length_singleton]
    exact declare_slot hw hgrown
  rwa [List.length_zipIdx, List.take_length, ← visible_eq] at hloop

theorem placeBelow_meets {scope : Scope} {node : Nat} (hnode : node < t.size)
    (hscope : scope.map Column.declared = (t.inherited node).reverse) (chain : List String) :
    Meets (t.placeBelow scope chain node)
      (fun p => p.scope.map Column.declared = t.visible node) t.Misread := by
  have hget : t.nodes[node]? = some t.nodes[node] := List.getElem?_eq_getElem hnode
  have hown : t.own node = t.nodes[node].ownVariables := by simp [own, hget]
  have hdeclare := declare_own hscope
  rw [hown] at hdeclare
  simp only [placeBelow, hget]
  refine hdeclare.bind fun grown hgrown => ?_
  refine ((Scope.reach_meets _ _ _).excused ?_).bind fun _ _ => hgrown
  rintro e ⟨i, hi, hunseen, rfl⟩
  rw [Scope.lookup_eq_none, hgrown] at hunseen
  cases hfilter : t.nodes[node].filter with
  | none => simp [hfilter] at hi
  | some v =>
      rw [hfilter, Option.map_some, Option.getD_some] at hi
      exact .filterInput hget hfilter hi hunseen

theorem WellFormed.place_meets (ht : t.WellFormed) {node : Nat} (hnode : node < t.size) :
    Meets (t.place node) (fun p => p.scope.map Column.declared = t.visible node) t.Misread := by
  induction node, hnode using ht.induction with
  | root =>
      rw [place_root]
      exact placeBelow_meets ht.size_pos (by simp [inherited, path_root]) []
  | child node parent hparent ih =>
      rw [ht.place_child hparent]
      refine ih.bind fun p hp => ?_
      refine placeBelow_meets (ht.parent_lt hparent).2 ?_ p.chain
      rw [hp, ht.inherited_child hparent, List.reverse_reverse]

end SelectionTree

namespace ScopeIndex

variable {t : SelectionTree} {index : ScopeIndex}

theorem build_meets (ht : t.WellFormed) : Meets (build t) (fun _ => True) t.Misread := by
  have hplaces := Meets.mapM fun node hnode => ht.place_meets (ht.lt_of_mem_preorder hnode)
  exact hplaces.bind fun places _ => trivial

namespace Lawful

variable (h : Lawful t index)
include h

theorem exists_column {node slot : Nat} {v : Variable} (hslot : (t.own node)[slot]? = some v) :
    ∃ p c older, index.place? node = some p ∧ c :: older <:+ p.scope ∧ c.declared = v ∧
      older.map Column.declared = (t.inherited node ++ (t.own node).take slot).reverse := by
  obtain ⟨p, hp⟩ := h.exists_place (SelectionTree.lt_size_of_own hslot)
  have hscope := h.scope_declared hp
  rw [t.visible_eq, SelectionTree.own_split hslot, ← List.append_assoc, List.reverse_append,
    List.reverse_cons, List.append_assoc, List.singleton_append] at hscope
  obtain ⟨newer, rest, hsplit, -, hrest⟩ := List.map_eq_append_iff.mp hscope
  obtain ⟨c, older, rfl, hc, holder⟩ := List.map_eq_cons_iff.mp hrest
  exact ⟨p, c, older, hp, ⟨newer, hsplit.symm⟩, hc, holder⟩

/-- A tree that is resolved is readable. -/
theorem readable : t.Readable := by
  constructor
  case inputs =>
    intro node slot v hslot spec hspec i hi
    obtain ⟨p, c, older, hp, hsuffix, rfl, holder⟩ := h.exists_column hslot
    have hresolved := (h.resolved hp).suffix hsuffix
    cases hresolved with
    | cons _ _ hinputs _ =>
        obtain ⟨d, hd⟩ := hinputs i (Variable.mem_allInputs_iff.mpr ⟨spec, hspec, hi⟩)
        have hseen := Scope.lookup_isSome.mp (Option.isSome_iff_exists.mpr ⟨d, hd⟩)
        rwa [holder, List.map_reverse, List.mem_reverse] at hseen
  case filterInputs =>
    intro node v hfilter spec hspec i hi
    obtain ⟨n, hn, hnv⟩ := Option.bind_eq_some_iff.mp hfilter
    obtain ⟨p, hp⟩ := h.exists_place (List.getElem?_eq_some_iff.mp hn).1
    obtain ⟨scope, chain, hext⟩ := h.extends_of_place hp
    obtain ⟨n', hn', -, -, hpfilter, -⟩ := hext.declaration
    rw [hn, Option.some.injEq] at hn'
    subst hn'
    obtain ⟨c, hc⟩ := hext.filter_input v (hpfilter.trans hnv) i
      (Variable.mem_allInputs_iff.mpr ⟨spec, hspec, hi⟩)
    have hseen := Scope.lookup_isSome.mp (Option.isSome_iff_exists.mpr ⟨c, hc⟩)
    rwa [h.scope_declared hp] at hseen
  case names =>
    intro node hnode
    obtain ⟨p, hp⟩ := h.exists_place hnode
    rw [← h.scope_declared hp]
    exact (h.resolved hp).nodup_names

theorem length_inherited (node : Nat) : (t.inherited node).length =
    ((t.parent? node).bind index.place?).elim 0 fun above => above.scope.length := by
  cases hparent : t.parent? node with
  | none =>
      have hpath : t.path node = [node] := by
        cases node with
        | zero => rfl
        | succ i => simp only [SelectionTree.path, SelectionTree.pathWithin, hparent]
      simp [SelectionTree.inherited, hpath]
  | some parent =>
      obtain ⟨-, above, -, habove, -⟩ := h.child node parent hparent
      rw [h.wellFormed.inherited_child hparent, ← h.scope_declared habove]
      simp [habove]

theorem own_of_declares {c : Column} {older : Scope} (hc : index.Declares c older) :
    (t.own c.ref.node)[c.ref.slot]? = some c.declared := by
  obtain ⟨i, p, hp, hsuffix⟩ := hc
  obtain ⟨q, hq, ⟨newer, hsplit⟩, -, -, hlength⟩ :=
    h.column_home (h.place_lt hp).2 p c older hp hsuffix
  have hvisible := h.scope_declared hq
  rw [← hsplit, t.visible_eq, List.map_append, List.map_cons, eq_comm, List.reverse_eq_iff,
    List.reverse_append, List.reverse_cons, List.append_assoc] at hvisible
  have hget := congrArg (fun vs => vs[older.length]?) hvisible
  rw [← h.length_inherited] at hlength
  simp only [hlength] at hget
  rw [List.getElem?_append_right (Nat.le_add_right _ _), Nat.add_sub_cancel_left] at hget
  rw [hget, List.getElem?_append_right (by simp [hlength])]
  simp [hlength]

end Lawful
end ScopeIndex
end SelectionPlan
