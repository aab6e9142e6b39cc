import SelectionPlan.Proofs.Tree.Edits
import SelectionPlan.Proofs.Tree.Weighing
import Mathlib.Data.List.Induction

/-!
# Trees with stored links

A tree may keep with every node its children and its depth instead of computing them from the links
to the parents.  Only a new node changes them.  The two representations stay in step under every
edit.
-/

namespace SelectionPlan

/-- A tree with the children of every node, the oldest first, and with every node's depth. -/
structure LinkedTree where
  tree : SelectionTree
  children : List (List Nat)
  depths : List Nat

namespace LinkedTree

def new (id : Nat) (label : Option String) : LinkedTree :=
  { tree := .new id label, children := [[]], depths := [0] }

def childrenOf (a : LinkedTree) (i : Nat) : List Nat := a.children.getD i []

def depthOf (a : LinkedTree) (i : Nat) : Nat := a.depths.getD i 0

def child? (a : LinkedTree) (i : Nat) (name : String) : Option Nat :=
  (a.childrenOf i).find? fun child => a.tree.nameOf child == name

def addChild (a : LinkedTree) (parent : NodeId) (name : String) (filter : Variable)
    (label : Option String) : Except BuildError LinkedTree := do
  if name = "" ∨ '/' ∈ name.toList then throw (.invalidNode name .badName)
  if name = rootName then throw (.invalidNode name .reservedName)
  filter.checkCost
  let _ ← a.tree.node parent
  if (a.child? parent.index name).isSome then throw (.invalidNode name .siblingExists)
  let node : Node := { name, attachment := some ⟨parent.index, filter⟩, label }
  return {
    tree := { a.tree with nodes := a.tree.nodes ++ [node] }
    children := a.children.modify parent.index (· ++ [a.tree.size]) ++ [[]]
    depths := a.depths ++ [a.depthOf parent.index + 1] }

def edit (a : LinkedTree) : Edit → LinkedTree
  | .addChild parent name filter label =>
    match a.addChild parent name filter label with
    | .ok a' => a'
    | .error _ => a
  | e => { a with tree := a.tree.edit e }

def ofEdits (id : Nat) (label : Option String) (edits : List Edit) : LinkedTree :=
  edits.foldl edit (.new id label)

end LinkedTree

namespace SelectionTree

variable {t t' : SelectionTree}

def linked (t : SelectionTree) : LinkedTree where
  tree := t
  children := (List.range t.size).map t.children
  depths := (List.range t.size).map t.depthOf

theorem WellFormed.children_eq_nil (h : t.WellFormed) {i : Nat} (hi : t.size ≤ i + 1) :
    t.children i = [] := by
  rw [List.eq_nil_iff_forall_not_mem]
  intro child hchild
  have hlt := h.parent_lt (mem_children.mp hchild).2
  omega

theorem WellFormed.childrenOf_linked (h : t.WellFormed) (i : Nat) :
    t.linked.childrenOf i = t.children i := by
  simp only [LinkedTree.childrenOf, linked, List.getD_eq_getElem?_getD, List.getElem?_map]
  by_cases hi : i < t.size
  · simp [List.getElem?_range hi]
  · have hnone : (List.range t.size)[i]? = none := by simpa using hi
    rw [hnone, h.children_eq_nil (by omega)]
    rfl

theorem depthOf_linked {i : Nat} (hi : i < t.size) : t.linked.depthOf i = t.depthOf i := by
  simp [LinkedTree.depthOf, linked, hi]

theorem WellFormed.child?_linked (h : t.WellFormed) (i : Nat) (name : String) :
    t.linked.child? i name = t.child? i name := by
  rw [LinkedTree.child?, h.childrenOf_linked]
  rfl

/-! ### Edits that add no node -/

theorem pathWithin_congr (h : ∀ i, t'.parent? i = t.parent? i) (bound i : Nat) :
    t'.pathWithin bound i = t.pathWithin bound i := by
  induction bound generalizing i with
  | zero => rfl
  | succ bound ih =>
      simp only [pathWithin, h i]
      cases t.parent? i with
      | none => rfl
      | some parent => simp only [ih parent]

theorem parent?_eq_join (t : SelectionTree) (i : Nat) :
    t.parent? i = (t.nodes.map Node.parent)[i]?.join := by
  rw [parent?, List.getElem?_map]
  cases t.nodes[i]? <;> rfl

/-- The links to the parents determine the others. -/
theorem linked_congr (h : t'.nodes.map Node.parent = t.nodes.map Node.parent) :
    t'.linked = { t.linked with tree := t' } := by
  have hsize : t'.size = t.size := by
    have hlength := congrArg List.length h
    rwa [List.length_map, List.length_map] at hlength
  have hparent (i : Nat) : t'.parent? i = t.parent? i := by
    rw [parent?_eq_join, parent?_eq_join, h]
  have hchildren : t'.children = t.children := by
    funext i
    simp only [children, hsize, hparent]
  have hdepth : t'.depthOf = t.depthOf := by
    funext i
    rw [depthOf, depthOf, path, path, pathWithin_congr hparent]
  simp only [linked, hsize, hchildren, hdepth]

theorem parents_modify (t : SelectionTree) (index : Nat) (f : Node → Node)
    (hf : ∀ n, (f n).parent = n.parent) :
    (t.modify index f).nodes.map Node.parent = t.nodes.map Node.parent := by
  apply List.ext_getElem?
  intro i
  by_cases hi : index = i
  · subst hi
    simp [modify, Function.comp_def, hf]
  · simp [modify, hi]

theorem kept_parents (parents : List (Option Nat)) :
    Kept fun t => t.nodes.map Node.parent = parents where
  define := by
    intro t t' n v h hdefine
    obtain ⟨-, rfl⟩ := define_eq_ok hdefine
    apply (parents_modify _ _ _ _).trans h
    exact fun _ => rfl
  assignWeight := by
    intro t t' n v _ h
    apply (parents_modify _ _ _ _).trans h
    exact fun _ => rfl
  addVariant := by
    intro t logical systematic physical h
    apply (parents_modify _ _ _ _).trans h
    exact fun _ => rfl
  declareSystematic := fun _ h => h

/-! ### New nodes -/

section AddChild

variable {parent n : NodeId} {name : String} {filter : Variable} {label : Option String}

theorem children_addChild (hadd : t.addChild parent name filter label = .ok (n, t')) (i : Nat) :
    t'.children i =
      if i = parent.index then t.children i ++ [t.size] else t.children i := by
  have hkeeps := (grows_addChild hadd).keeps
  obtain ⟨-, rfl⟩ := addChild_eq_ok hadd
  have hnew : SelectionTree.parent? { t with nodes := t.nodes ++
      [{ name, attachment := some ⟨parent.index, filter⟩, label }] } t.size =
      some parent.index := by
    simp [parent?, SelectionTree.size, Node.parent]
  have hold : (List.range t.size).filter (fun child => SelectionTree.parent? { t with nodes :=
      t.nodes ++ [{ name, attachment := some ⟨parent.index, filter⟩, label }] } child = some i) =
      t.children i := by
    apply List.filter_congr
    intro child hchild
    rw [hkeeps.parent?_eq (List.mem_range.mp hchild)]
  rw [children, SelectionTree.size, List.length_append, List.length_singleton, List.range_succ,
    List.filter_append]
  rw [← SelectionTree.size, hold]
  by_cases hi : i = parent.index
  · simp [hnew, hi]
  · simp [hnew, hi, Ne.symm hi]

theorem WellFormed.depthOf_addChild (h : t.WellFormed)
    (hadd : t.addChild parent name filter label = .ok (n, t')) :
    (∀ i < t.size, t'.depthOf i = t.depthOf i) ∧
      t'.depthOf t.size = t.depthOf parent.index + 1 := by
  have hkeeps := (grows_addChild hadd).keeps
  have h' := h.addChild hadd
  have hparent := (addChild_eq_ok hadd).1
  have hchild : t.size ∈ t'.children parent.index := by
    rw [children_addChild hadd, if_pos rfl]
    exact List.mem_append_right _ (List.mem_singleton_self _)
  have hpos : 0 < (t.path parent.index).length := List.length_pos_of_mem (h.mem_path_self hparent)
  constructor
  · intro i hi
    rw [depthOf, depthOf, hkeeps.path_eq h h' hi]
  · rw [depthOf, depthOf, h'.path_child (mem_children.mp hchild).2, hkeeps.path_eq h h' hparent,
      List.length_append, List.length_singleton]
    omega

theorem WellFormed.linked_addChild (h : t.WellFormed)
    (hadd : t.addChild parent name filter label = .ok (n, t')) :
    t'.linked =
      { tree := t'
        children := t.linked.children.modify parent.index (· ++ [t.size]) ++ [[]]
        depths := t.linked.depths ++ [t.linked.depthOf parent.index + 1] } := by
  have hchildren := children_addChild hadd
  obtain ⟨holdDepth, hnewDepth⟩ := h.depthOf_addChild hadd
  obtain ⟨hparent, heq⟩ := addChild_eq_ok hadd
  have hsize : t'.size = t.size + 1 := by
    rw [heq, SelectionTree.size, List.length_append, List.length_singleton]
    rfl
  have hold : (List.range t.size).map t'.children =
      ((List.range t.size).map t.children).modify parent.index (· ++ [t.size]) := by
    apply List.ext_getElem?
    intro i
    by_cases hi : i < t.size
    · by_cases hp : i = parent.index
      · subst hp
        simp [hchildren, hi]
      · simp [hchildren, hi, hp, Ne.symm hp]
    · simp [hi]
  have hlast : t'.children t.size = [] := by
    rw [hchildren, if_neg (Nat.ne_of_gt hparent), h.children_eq_nil (Nat.le_succ _)]
  have hdepths : (List.range t.size).map t'.depthOf = (List.range t.size).map t.depthOf :=
    List.map_congr_left fun i hi => holdDepth i (List.mem_range.mp hi)
  rw [depthOf_linked hparent, ← hnewDepth]
  simp only [linked, hsize, List.range_succ, List.map_append, List.map_cons, List.map_nil, hold,
    hlast, hdepths]

end AddChild

theorem WellFormed.addChild_linked (h : t.WellFormed) (parent : NodeId) (name : String)
    (filter : Variable) (label : Option String) :
    t.linked.addChild parent name filter label =
      (t.addChild parent name filter label).map fun result => result.2.linked := by
  have hstored : t.linked.addChild parent name filter label =
      (t.addChild parent name filter label).map fun result =>
        { tree := result.2
          children := t.linked.children.modify parent.index (· ++ [t.size]) ++ [[]]
          depths := t.linked.depths ++ [t.linked.depthOf parent.index + 1] } := by
    have htree : t.linked.tree = t := rfl
    simp only [LinkedTree.addChild, SelectionTree.addChild, h.child?_linked, htree]
    split
    · rfl
    · split
      · rfl
      · cases filter.checkCost with
        | error e => rfl
        | ok _ =>
            cases t.node parent with
            | error e => rfl
            | ok _ =>
                simp only [bind, Except.bind]
                split <;> rfl
  rw [hstored]
  cases hadd : t.addChild parent name filter label with
  | ok result => exact congrArg Except.ok (h.linked_addChild hadd).symm
  | error e => rfl

/-- The stored links and depths stay those of the tree. -/
theorem WellFormed.edit_linked (h : t.WellFormed) (e : Edit) :
    t.linked.edit e = (t.edit e).linked := by
  cases e with
  | addChild parent name filter label =>
      simp only [LinkedTree.edit, SelectionTree.edit, attempt, h.addChild_linked]
      cases t.addChild parent name filter label <;> rfl
  | define n v =>
      apply (linked_congr _).symm
      simp only [SelectionTree.edit, attempt]
      split
      · exact (kept_parents _).define rfl ‹_›
      · rfl
  | setWeight n factor strategy =>
      exact (linked_congr ((kept_parents _).setWeight rfl n factor strategy)).symm
  | declareColumns namer columns =>
      exact (linked_congr ((kept_parents _).declareColumns rfl namer columns)).symm
  | declareSystematic name =>
      apply (linked_congr _).symm
      rfl

theorem linked_ofEdits (id : Nat) (label : Option String) (edits : List Edit) :
    LinkedTree.ofEdits id label edits = (ofEdits id label edits).linked := by
  induction edits using List.reverseRecOn with
  | nil => rfl
  | append_singleton edits e ih =>
      have hwf := (reachable_ofEdits id label edits).wellFormed
      rw [ofEdits_concat, ← hwf.edit_linked, ← ih]
      simp [LinkedTree.ofEdits]

end SelectionTree
end SelectionPlan
