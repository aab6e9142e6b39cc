import SelectionPlan.Proofs.Tree.Edits
import SelectionPlan.Proofs.Tree.Weighing
import Mathlib.Data.List.DropRight

/-!
# Names of nodes

The names on the way to a node tell it from all others: only the root has the root's name, no name
is empty or has a slash in it, and siblings have different names.  So the text of a path leads back
to the node.
-/

namespace SelectionPlan

structure IsNodeName (name : String) : Prop where
  ne_empty : name ≠ ""
  no_slash : '/' ∉ name.toList
  ne_root : name ≠ rootName

namespace SelectionTree

variable {t t' : SelectionTree}

structure WellNamed (t : SelectionTree) : Prop where
  root : t.nameOf 0 = rootName
  named : ∀ i, 0 < i → i < t.size → IsNodeName (t.nameOf i)
  siblings : ∀ i j parent, t.parent? i = some parent → t.parent? j = some parent →
    t.nameOf i = t.nameOf j → i = j
  own_nodup : ∀ (i : Nat) (n : Node), t.nodes[i]? = some n →
    (n.ownVariables.map Variable.name).Nodup

/-! ### What edits check -/

theorem addChild_checks {parent n : NodeId} {name : String} {filter : Variable}
    {label : Option String} (h : t.addChild parent name filter label = .ok (n, t')) :
    IsNodeName name ∧ t.child? parent.index name = none := by
  simp only [SelectionTree.addChild] at h
  split at h
  · cases h
  · rename_i hname
    split at h
    · cases h
    · rename_i hroot
      simp only [bind_eq_ok] at h
      obtain ⟨⟨⟩, -, m, -, h⟩ := h
      split at h
      · cases h
      · rename_i hchild
        rw [not_or] at hname
        exact ⟨⟨hname.1, hname.2, hroot⟩, by simpa using hchild⟩

theorem define_checks {n : NodeId} {v : Variable} (h : t.define n v = .ok t') :
    t.isVisible n.index v.name = false := by
  simp only [SelectionTree.define, bind_eq_ok] at h
  obtain ⟨⟨⟩, -, m, -, h⟩ := h
  split at h
  · cases h
  · rename_i hvisible
    simpa using hvisible

theorem defines_iff {n : Node} {name : String} :
    n.defines name = true ↔ name ∈ n.ownVariables.map Variable.name := by
  simp [Node.defines]

theorem WellFormed.not_defines_of_hidden (h : t.WellFormed) {i : Nat} {n : Node} {name : String}
    (hn : t.nodes[i]? = some n) (hhidden : t.isVisible i name = false) :
    name ∉ n.ownVariables.map Variable.name := by
  have hi : i < t.size := (List.getElem?_eq_some_iff.mp hn).1
  have hmem := h.mem_path_self hi
  rw [isVisible, List.any_eq_false] at hhidden
  have hdefines := hhidden i hmem
  rw [← defines_iff]
  simpa [hn] using hdefines

/-! ### Every tree is well named -/

theorem nameOf_eq {i : Nat} {n : Node} (h : t.nodes[i]? = some n) : t.nameOf i = n.name := by
  rw [nameOf, h]
  rfl

theorem Keeps.nameOf_eq {i : Nat} (h : t.Keeps t') (hi : i < t.size) :
    t'.nameOf i = t.nameOf i := by
  have hn := List.getElem?_eq_getElem hi
  obtain ⟨n', hn', hkeeps⟩ := h i _ hn
  rw [SelectionTree.nameOf_eq hn, SelectionTree.nameOf_eq hn', hkeeps.name]

theorem WellNamed.keeps (h : t.WellNamed) (hkeeps : t.Keeps t') (hsize : t'.size = t.size)
    (hpos : 0 < t.size) (hown : ∀ (i : Nat) (n : Node), t'.nodes[i]? = some n →
      (n.ownVariables.map Variable.name).Nodup) : t'.WellNamed := by
  have hparent {i p : Nat} (hp : t'.parent? i = some p) :
      i < t.size ∧ t.parent? i = some p := by
    have hi : i < t'.size := by
      obtain ⟨n, hn, -⟩ := Option.bind_eq_some_iff.mp hp
      exact (List.getElem?_eq_some_iff.mp hn).1
    rw [hsize] at hi
    exact ⟨hi, by rw [← hkeeps.parent?_eq hi, hp]⟩
  constructor
  · rw [hkeeps.nameOf_eq hpos, h.root]
  · intro i hi hlt
    rw [hsize] at hlt
    rw [hkeeps.nameOf_eq hlt]
    exact h.named i hi hlt
  · intro i j p hi hj hname
    obtain ⟨hilt, hi⟩ := hparent hi
    obtain ⟨hjlt, hj⟩ := hparent hj
    rw [hkeeps.nameOf_eq hilt, hkeeps.nameOf_eq hjlt] at hname
    exact h.siblings i j p hi hj hname
  · exact hown

@[simp] theorem size_modify (t : SelectionTree) (index : Nat) (f : Node → Node) :
    (t.modify index f).size = t.size := by
  simp [SelectionTree.size, modify]

theorem WellNamed.own_nodup_modify (h : t.WellNamed) {index : Nat} {f : Node → Node}
    (hf : ∀ n, t.nodes[index]? = some n → ((f n).ownVariables.map Variable.name).Nodup) :
    ∀ (i : Nat) (n : Node), (t.modify index f).nodes[i]? = some n →
      (n.ownVariables.map Variable.name).Nodup := by
  intro i n hn
  by_cases hi : index = i
  · subst hi
    simp only [SelectionTree.modify, List.getElem?_modify, if_true] at hn
    obtain ⟨m, hm, rfl⟩ := Option.map_eq_some_iff.mp hn
    exact hf m hm
  · rw [getElem?_modify_ne f hi] at hn
    exact h.own_nodup i n hn

theorem wellNamed_new (id : Nat) (label : Option String) : (new id label).WellNamed := by
  have hone : (new id label).size = 1 := rfl
  constructor
  · rfl
  · intro i hi hlt
    omega
  · intro i j parent hi
    cases i <;> simp [new, parent?, Node.parent] at hi
  · intro i n hn
    cases i with
    | zero =>
        simp only [new, List.getElem?_cons_zero, Option.some.injEq] at hn
        subst hn
        exact List.nodup_nil
    | succ i => simp [new] at hn

theorem WellNamed.define (h : t.WellNamed) (hwf : t.WellFormed) {n : NodeId} {v : Variable}
    (hdefine : t.define n v = .ok t') : t'.WellNamed := by
  have hhidden := define_checks hdefine
  have hgrows := grows_define hdefine
  obtain ⟨-, rfl⟩ := define_eq_ok hdefine
  apply h.keeps hgrows.keeps (t.size_modify _ _) hwf.size_pos
  apply h.own_nodup_modify
  intro m hm
  have hfresh := hwf.not_defines_of_hidden hm hhidden
  simp only [List.map_append, List.map_cons, List.map_nil]
  rw [← List.concat_eq_append, List.nodup_concat]
  exact ⟨hfresh, h.own_nodup _ m hm⟩

theorem WellNamed.assignWeight (h : t.WellNamed) (hwf : t.WellFormed) (index : Nat)
    (column : String) : (t.assignWeight index column).WellNamed := by
  apply h.keeps (keeps_assignWeight t index column) (t.size_modify _ _) hwf.size_pos
  apply h.own_nodup_modify
  intro m hm
  exact h.own_nodup _ m hm

theorem WellNamed.declareSystematic (h : t.WellNamed) (name : String) :
    (t.declareSystematic name).WellNamed :=
  ⟨h.root, h.named, h.siblings, h.own_nodup⟩

theorem WellNamed.addVariant (h : t.WellNamed) (hwf : t.WellFormed)
    (logical systematic physical : String) :
    (t.addVariant logical systematic physical).WellNamed := by
  have hgrows := t.grows_addVariant logical systematic physical
  apply h.keeps hgrows.keeps (t.size_modify _ _) hwf.size_pos
  apply h.own_nodup_modify
  intro m hm
  have hnodup := h.own_nodup _ m hm
  simp only
  split
  · rename_i slot hslot
    rw [map_name_modify_vary]
    exact hnodup
  · rename_i hnone
    have hfresh : logical ∉ m.ownVariables.map Variable.name := by
      simpa [List.findIdx?_eq_none_iff] using hnone
    simp only [List.map_append, List.map_cons, List.map_nil]
    rw [← List.concat_eq_append, List.nodup_concat]
    exact ⟨hfresh, hnodup⟩

theorem child?_eq_none {index : Nat} {name : String} (h : t.child? index name = none) {i : Nat}
    (hp : t.parent? i = some index) (hi : i < t.size) : t.nameOf i ≠ name := by
  rw [child?, List.find?_eq_none] at h
  simpa using h i (mem_children.mpr ⟨hi, hp⟩)

theorem WellNamed.addChild (h : t.WellNamed) (hwf : t.WellFormed) {parent n : NodeId}
    {name : String} {filter : Variable} {label : Option String}
    (hadd : t.addChild parent name filter label = .ok (n, t')) : t'.WellNamed := by
  obtain ⟨hname, hchild⟩ := addChild_checks hadd
  have hkeeps := (grows_addChild hadd).keeps
  have hwf' := hwf.addChild hadd
  obtain ⟨-, rfl⟩ := addChild_eq_ok hadd
  set t' : SelectionTree := { t with nodes := t.nodes ++
    [{ name, attachment := some ⟨parent.index, filter⟩, label }] }
  have hsize : t'.size = t.size + 1 := by simp [t', SelectionTree.size]
  have hlast : t'.nodes[t.size]? =
      some { name, attachment := some ⟨parent.index, filter⟩, label } := List.getElem?_concat_length
  have hlastName : t'.nameOf t.size = name := nameOf_eq hlast
  have hlastParent : t'.parent? t.size = some parent.index := by
    rw [parent?, hlast]
    rfl
  have hcases {i : Nat} (hi : i < t'.size) : i < t.size ∨ i = t.size := by omega
  -- an older node is a sibling of the new one only under another name
  have hother {i : Nat} (hi : i < t.size) (hp : t'.parent? i = some parent.index) :
      t'.nameOf i ≠ name := by
    rw [hkeeps.parent?_eq hi] at hp
    rw [hkeeps.nameOf_eq hi]
    exact child?_eq_none hchild hp hi
  constructor
  · rw [hkeeps.nameOf_eq hwf.size_pos, h.root]
  · intro i hi hlt
    rcases hcases hlt with hlt | rfl
    · rw [hkeeps.nameOf_eq hlt]
      exact h.named i hi hlt
    · rwa [hlastName]
  · intro i j p hi hj hnames
    rcases hcases (hwf'.parent_lt hi).2 with hilt | rfl <;>
      rcases hcases (hwf'.parent_lt hj).2 with hjlt | rfl
    · rw [hkeeps.parent?_eq hilt] at hi
      rw [hkeeps.parent?_eq hjlt] at hj
      rw [hkeeps.nameOf_eq hilt, hkeeps.nameOf_eq hjlt] at hnames
      exact h.siblings i j p hi hj hnames
    · rw [hlastParent, Option.some.injEq] at hj
      subst hj
      exact absurd (hnames.trans hlastName) (hother hilt hi)
    · rw [hlastParent, Option.some.injEq] at hi
      subst hi
      exact absurd (hnames.symm.trans hlastName) (hother hjlt hj)
    · rfl
  · intro i m hm
    rcases hcases (List.getElem?_eq_some_iff.mp hm).1 with hlt | rfl
    · exact h.own_nodup i m (by rwa [← List.getElem?_append_left hlt])
    · rw [hlast, Option.some.injEq] at hm
      subst hm
      exact List.nodup_nil

theorem invariant_wellNamed : Invariant fun t => t.WellFormed ∧ t.WellNamed where
  new := fun id label => ⟨wellFormed_new id label, wellNamed_new id label⟩
  addChild := fun ⟨hwf, h⟩ hadd => ⟨hwf.addChild hadd, h.addChild hwf hadd⟩
  define := fun ⟨hwf, h⟩ hdefine => ⟨hwf.define hdefine, h.define hwf hdefine⟩
  assignWeight := fun hdefine ⟨hwf, h⟩ => ⟨hwf.assignWeight hdefine, h.assignWeight hwf _ _⟩
  addVariant := fun logical systematic physical ⟨hwf, h⟩ =>
    ⟨hwf.addVariant logical systematic physical, h.addVariant hwf logical systematic physical⟩
  declareSystematic := fun name ⟨hwf, h⟩ => ⟨hwf.congr rfl, h.declareSystematic name⟩

theorem Reachable.wellNamed (h : t.Reachable) : t.WellNamed := (h.invariant invariant_wellNamed).2

/-! ### Paths as texts -/

theorem WellNamed.no_slash (h : t.WellNamed) {i : Nat} (hi : i < t.size) :
    '/' ∉ (t.nameOf i).toList := by
  rcases Nat.eq_zero_or_pos i with rfl | hpos
  · rw [h.root]
    decide
  · exact (h.named i hpos hi).no_slash

theorem WellNamed.ne_empty (h : t.WellNamed) {i : Nat} (hi : i < t.size) : t.nameOf i ≠ "" := by
  rcases Nat.eq_zero_or_pos i with rfl | hpos
  · rw [h.root]
    decide
  · exact (h.named i hpos hi).ne_empty

theorem WellFormed.lt_of_mem_path (h : t.WellFormed) {index i : Nat} (hi : index < t.size)
    (hmem : i ∈ t.path index) : i < t.size :=
  Nat.lt_of_le_of_lt (h.le_of_mem_path hi hmem) hi

theorem WellNamed.split_pathText (h : t.WellNamed) (hwf : t.WellFormed) {i : Nat}
    (hi : i < t.size) :
    (splitOnChar '/' (t.pathText i).toList).map String.ofList = (t.path i).map t.nameOf := by
  have hne : (t.path i).map (String.toList ∘ t.nameOf) ≠ [] := by
    rw [Ne, List.map_eq_nil_iff]
    exact List.ne_nil_of_mem (hwf.mem_path_self hi)
  have hslash : ∀ part ∈ (t.path i).map (String.toList ∘ t.nameOf), '/' ∉ part := by
    intro part hpart
    obtain ⟨j, hj, rfl⟩ := List.mem_map.mp hpart
    exact h.no_slash (hwf.lt_of_mem_path hi hj)
  have hlist : (t.pathText i).toList =
      ['/'].intercalate ((t.path i).map (String.toList ∘ t.nameOf)) := by
    rw [pathText, String.toList_intercalate, List.map_map]
    rfl
  rw [hlist, splitOnChar_intercalate hne hslash, List.map_map]
  simp [Function.comp_def]

theorem WellFormed.path_eq_cons (h : t.WellFormed) {i : Nat} (hi : i < t.size) :
    ∃ below, t.path i = 0 :: below ∧ ∀ j ∈ below, 0 < j := by
  induction i, hi using h.induction with
  | root => exact ⟨[], path_root, by simp⟩
  | child i parent hp ih =>
      obtain ⟨below, hbelow, hpos⟩ := ih
      refine ⟨below ++ [i], by rw [h.path_child hp, hbelow, List.cons_append], ?_⟩
      intro j hj
      rcases List.mem_append.mp hj with hj | hj
      · exact hpos j hj
      · rw [List.mem_singleton.mp hj]
        exact Nat.zero_lt_of_lt (h.parent_lt hp).1

theorem WellNamed.child?_eq (h : t.WellNamed) (hwf : t.WellFormed) {i parent : Nat}
    (hp : t.parent? i = some parent) : t.child? parent (t.nameOf i) = some i := by
  have hmem : i ∈ t.children parent := mem_children.mpr ⟨(hwf.parent_lt hp).2, hp⟩
  cases hfind : t.child? parent (t.nameOf i) with
  | none => exact absurd rfl (child?_eq_none hfind hp (hwf.parent_lt hp).2)
  | some j =>
      have hname : t.nameOf j = t.nameOf i := by simpa using List.find?_some hfind
      have hj := (mem_children.mp (List.mem_of_find?_eq_some hfind)).2
      rw [h.siblings j i parent hj hp hname]

theorem WellNamed.descend (h : t.WellNamed) (hwf : t.WellFormed) {i : Nat} (hi : i < t.size) :
    ((t.path i).tail.map t.nameOf).foldlM t.child? 0 = some i := by
  induction i, hi using hwf.induction with
  | root => rfl
  | child i parent hp ih =>
      have hne : t.path parent ≠ [] :=
        List.ne_nil_of_mem (hwf.mem_path_self (hwf.parent_lt_size hp))
      rw [hwf.path_child hp, List.tail_append_of_ne_nil hne, List.map_append, List.foldlM_append,
        ih]
      simp [h.child?_eq hwf hp]

/-- The text of a path leads back to its node. -/
theorem WellNamed.find_pathText (h : t.WellNamed) (hwf : t.WellFormed) {i : Nat}
    (hi : i < t.size) : t.find (t.pathText i) = some i := by
  obtain ⟨below, hbelow, hpos⟩ := hwf.path_eq_cons hi
  have hnamed {j : Nat} (hj : j ∈ below) : IsNodeName (t.nameOf j) :=
    h.named j (hpos j hj) (hwf.lt_of_mem_path hi (hbelow ▸ List.mem_cons_of_mem 0 hj))
  have hfilter : ((t.path i).map t.nameOf).filter (fun part => part != "") =
      (t.path i).map t.nameOf := by
    rw [List.filter_eq_self]
    intro part hpart
    obtain ⟨j, hj, rfl⟩ := List.mem_map.mp hpart
    simpa using h.ne_empty (hwf.lt_of_mem_path hi hj)
  have hdrop : ((t.path i).map t.nameOf).dropWhile (fun part => part == rootName) =
      (t.path i).tail.map t.nameOf := by
    rw [hbelow, List.map_cons, h.root, List.dropWhile_cons_of_pos (by simp), List.tail_cons,
      List.dropWhile_eq_self_iff]
    intro hlt
    rw [List.length_map] at hlt
    simpa using (hnamed (List.getElem_mem hlt)).ne_root
  simp only [find]
  rw [h.split_pathText hwf hi, hfilter, hdrop]
  exact h.descend hwf hi

end SelectionTree
end SelectionPlan
