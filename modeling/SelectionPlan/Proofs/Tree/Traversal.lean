import SelectionPlan.Proofs.Tree.Linked
import SelectionPlan.Proofs.Tree.Named
import Mathlib.Data.List.Chain
import Mathlib.Logic.Relation

/-!
# Going through a tree

From a node one comes to the root by following the links to the parents, and from the root to every
node by following the links to the children.  Both ways end, and they meet every node in the right
place: the parents on the way up, and each subtree in one piece on the way down.
-/

namespace SelectionPlan
namespace LinkedTree

/-- The path that ends with `below`, followed upwards from `current`, if it takes no more than
`turns` turns. -/
def climb (a : LinkedTree) : (turns : Nat) → (current : Option Nat) → (below : List Nat) →
    Option (List Nat)
  | _, none, below => some below
  | 0, some _, _ => none
  | turns + 1, some i, below => a.climb turns (a.tree.parent? i) (i :: below)

/-- The nodes that a stack leads to, each before its children, if it takes no more than `turns`
turns to empty the stack. -/
def walk (a : LinkedTree) : (turns : Nat) → (stack : List Nat) → Option (List Nat)
  | _, [] => some []
  | 0, _ :: _ => none
  | turns + 1, i :: stack =>
    match a.tree.nodes[i]? with
    | some _ => (a.walk turns (a.childrenOf i ++ stack)).map (i :: ·)
    | none => a.walk turns stack

/-- The node at a path of names below the root.  Empty names and a leading root are passed
over. -/
def find (a : LinkedTree) (path : String) : Option Nat :=
  let parts := (splitOnChar '/' path.toList).map String.ofList
  let below := (parts.filter fun part => part != "").dropWhile fun part => part == rootName
  below.foldlM a.child? 0

end LinkedTree

namespace SelectionTree

variable {t : SelectionTree}

/-! ### Upwards -/

def ChildOf (t : SelectionTree) (child parent : Nat) : Prop := t.parent? child = some parent

/-- No way up comes back to where it started. -/
theorem WellFormed.acyclic (h : t.WellFormed) (i : Nat) : ¬ Relation.TransGen t.ChildOf i i := by
  have hlt {i j : Nat} (hup : Relation.TransGen t.ChildOf i j) : j < i := by
    induction hup with
    | single hp => exact (h.parent_lt hp).1
    | tail _ hp ih => exact Nat.lt_trans (h.parent_lt hp).1 ih
  intro hup
  exact Nat.lt_irrefl i (hlt hup)

theorem WellFormed.mem_path_iff (h : t.WellFormed) {i j : Nat} (hj : j < t.size) :
    i ∈ t.path j ↔ Relation.ReflTransGen t.ChildOf j i := by
  constructor
  · intro hi
    induction j, hj using h.induction with
    | root =>
        rw [path_root, List.mem_singleton] at hi
        rw [hi]
    | child j parent hp ih =>
        rw [h.path_child hp, List.mem_append, List.mem_singleton] at hi
        rcases hi with hi | rfl
        · exact .head hp (ih hi)
        · exact .refl
  · intro hup
    induction hup with
    | refl => exact h.mem_path_self hj
    | tail hup hp ih =>
        apply h.path_subset hj ih
        rw [h.path_child hp]
        exact List.mem_append_left _ (h.mem_path_self (h.parent_lt_size hp))

theorem WellFormed.getLast?_path (h : t.WellFormed) {i : Nat} (hi : i < t.size) :
    (t.path i).getLast? = some i := by
  rcases Nat.eq_zero_or_pos i with rfl | hpos
  · rfl
  · obtain ⟨parent, hp⟩ := h.exists_parent hpos hi
    rw [h.path_child hp, List.getLast?_concat]

theorem WellFormed.isChain_path (h : t.WellFormed) {i : Nat} (hi : i < t.size) :
    (t.path i).IsChain fun parent child => t.ChildOf child parent := by
  induction i, hi using h.induction with
  | root => simp [path_root]
  | child i parent hp ih =>
      rw [h.path_child hp]
      apply ih.append (List.isChain_singleton i)
      intro x hx y hy
      rw [h.getLast?_path (h.parent_lt_size hp), Option.mem_some_iff] at hx
      rw [List.head?_cons, Option.mem_some_iff] at hy
      rwa [← hx, ← hy]

theorem WellFormed.climb_eq (h : t.WellFormed) {i : Nat} (hi : i < t.size) {turns : Nat}
    (hturns : i < turns) (below : List Nat) :
    t.linked.climb turns (some i) below = some (t.path i ++ below) := by
  induction i, hi using h.induction generalizing turns below with
  | root =>
      obtain ⟨n, rfl⟩ : ∃ n, turns = n + 1 := ⟨turns - 1, by omega⟩
      have hroot : t.linked.tree.parent? 0 = none := h.parent_root
      rw [LinkedTree.climb, hroot]
      cases n <;> rfl
  | child i parent hp ih =>
      obtain ⟨n, rfl⟩ : ∃ n, turns = n + 1 := ⟨turns - 1, by omega⟩
      have hparent : t.linked.tree.parent? i = some parent := hp
      have hlt := (h.parent_lt hp).1
      rw [LinkedTree.climb, hparent, ih (by omega) (i :: below), h.path_child hp,
        List.append_assoc, List.singleton_append]

/-! ### Downwards -/

def subtree (t : SelectionTree) (i : Nat) : List Nat := t.preorderWithin t.size i

theorem WellFormed.preorderWithin_eq (h : t.WellFormed) {i : Nat} (bound bound' : Nat)
    (hb : t.size ≤ bound + i + 1) (hb' : t.size ≤ bound' + i + 1) :
    t.preorderWithin bound i = t.preorderWithin bound' i := by
  induction bound generalizing bound' i with
  | zero =>
      have hnone : t.children i = [] := h.children_eq_nil (by omega)
      cases bound' <;> simp [preorderWithin, hnone]
  | succ bound ih =>
      cases bound' with
      | zero =>
          have hnone : t.children i = [] := h.children_eq_nil (by omega)
          simp [preorderWithin, hnone]
      | succ bound' =>
          rw [preorderWithin, preorderWithin, List.cons.injEq]
          refine ⟨rfl, List.flatMap_congr fun child hchild => ?_⟩
          have hlt := (h.parent_lt (mem_children.mp hchild).2).1
          exact ih bound' (by omega) (by omega)

theorem WellFormed.subtree_eq (h : t.WellFormed) (i : Nat) :
    t.subtree i = i :: (t.children i).flatMap t.subtree := by
  rw [subtree, h.preorderWithin_eq t.size (t.size + 1) (by omega) (by omega)]
  rfl

theorem WellFormed.mem_subtree_iff (h : t.WellFormed) {i j : Nat} (hi : i < t.size) :
    j ∈ t.subtree i ↔ j < t.size ∧ i ∈ t.path j := by
  constructor
  · exact h.mem_path_of_mem_preorderWithin hi
  · rintro ⟨hj, hmem⟩
    have hself : i ∈ t.subtree i := by
      rw [h.subtree_eq]
      exact List.mem_cons_self
    induction j, hj using h.induction with
    | root =>
        rw [path_root, List.mem_singleton] at hmem
        rwa [← hmem]
    | child j parent hp ih =>
        rw [h.path_child hp, List.mem_append, List.mem_singleton] at hmem
        rcases hmem with hmem | rfl
        · have hchild := preorderWithin_child (ih hmem)
            (mem_children.mpr ⟨(h.parent_lt hp).2, hp⟩)
          rwa [subtree, h.preorderWithin_eq t.size (t.size + 1) (by omega) (by omega)]
        · exact hself

theorem WellFormed.subtree_infix (h : t.WellFormed) {i : Nat} (hi : i < t.size) :
    t.subtree i <:+: t.preorder := by
  induction i, hi using h.induction with
  | root => exact List.infix_rfl
  | child i parent hp ih =>
      have hchild : i ∈ t.children parent := mem_children.mpr ⟨(h.parent_lt hp).2, hp⟩
      have hbelow : t.subtree i <:+: t.subtree parent := by
        rw [h.subtree_eq parent]
        exact (List.infix_flatMap_of_mem hchild t.subtree).trans (List.suffix_cons _ _).isInfix
      exact hbelow.trans ih

theorem WellFormed.preorder_perm (h : t.WellFormed) : t.preorder.Perm (List.range t.size) := by
  apply (List.perm_ext_iff_of_nodup h.nodup_preorder List.nodup_range).mpr
  intro i
  rw [List.mem_range]
  exact ⟨h.lt_of_mem_preorder, h.mem_preorder⟩

theorem WellFormed.walk_eq (h : t.WellFormed) {turns : Nat} {stack : List Nat}
    (hstack : ∀ i ∈ stack, i < t.size) (hturns : (stack.flatMap t.subtree).length ≤ turns) :
    t.linked.walk turns stack = some (stack.flatMap t.subtree) := by
  induction turns generalizing stack with
  | zero =>
      cases stack with
      | nil => rfl
      | cons i stack =>
          rw [List.flatMap_cons, h.subtree_eq] at hturns
          simp at hturns
  | succ turns ih =>
      cases stack with
      | nil => rfl
      | cons i stack =>
          rw [List.forall_mem_cons] at hstack
          have hsubtree : (i :: stack).flatMap t.subtree =
              i :: (t.children i ++ stack).flatMap t.subtree := by
            rw [List.flatMap_cons, h.subtree_eq i, List.flatMap_append, List.cons_append]
          have hnext : ∀ j ∈ t.children i ++ stack, j < t.size := by
            intro j hj
            rcases List.mem_append.mp hj with hj | hj
            · exact (mem_children.mp hj).1
            · exact hstack.2 j hj
          have hnode : t.linked.tree.nodes[i]? = some (t.nodes.get ⟨i, hstack.1⟩) :=
            List.getElem?_eq_getElem hstack.1
          rw [hsubtree, List.length_cons, Nat.add_le_add_iff_right] at hturns
          simp only [LinkedTree.walk, hnode, h.childrenOf_linked, ih hnext hturns, hsubtree,
            Option.map_some]

theorem WellFormed.find_linked (h : t.WellFormed) (path : String) :
    t.linked.find path = t.find path := by
  have hchild : t.linked.child? = t.child? := by
    funext i name
    exact h.child?_linked i name
  rw [LinkedTree.find, hchild]
  rfl

end SelectionTree

/-! ### Every tree is in order -/

structure LinkedTree.Orderly (a : LinkedTree) : Prop where
  stored : a.children.length = a.tree.size ∧ a.depths.length = a.tree.size
  mirrored : ∀ parent child, child ∈ a.childrenOf parent ↔ a.tree.ChildOf child parent
  /-- Nodes are numbered as they are added. -/
  oldest_first : ∀ parent, (a.childrenOf parent).Pairwise (· < ·)
  acyclic : ∀ i, ¬ Relation.TransGen a.tree.ChildOf i i
  climb : ∀ i < a.tree.size, ∃ path,
    (∀ turns, a.tree.size ≤ turns → a.climb turns (some i) [] = some path) ∧
    path = a.tree.path i ∧ path.head? = some 0 ∧ path.getLast? = some i ∧
    path.IsChain (fun parent child => a.tree.ChildOf child parent) ∧
    a.depthOf i = path.length - 1
  /-- The walk has every node once and after its parent.  A subtree starts with its node, goes on
  with the subtrees of the children in order and is one piece of the walk. -/
  walk : ∃ subtree : Nat → List Nat,
    (∀ turns, a.tree.size ≤ turns → a.walk turns [0] = some (subtree 0)) ∧
    (subtree 0).Perm (List.range a.tree.size) ∧
    (∀ before i after parent, subtree 0 = before ++ i :: after → a.tree.ChildOf i parent →
      parent ∈ before) ∧
    ∀ i < a.tree.size, subtree i = i :: (a.childrenOf i).flatMap subtree ∧
      subtree i <:+: subtree 0 ∧
      ∀ j, j ∈ subtree i ↔ j < a.tree.size ∧ Relation.ReflTransGen a.tree.ChildOf j i
  own_nodup : ∀ (i : Nat) (n : Node), a.tree.nodes[i]? = some n →
    (n.ownVariables.map Variable.name).Nodup
  find : ∀ i < a.tree.size, a.find (a.tree.pathText i) = some i
  distinct : ∀ i < a.tree.size, ∀ j < a.tree.size, a.tree.pathText i = a.tree.pathText j → i = j

namespace SelectionTree

variable {t : SelectionTree}

theorem WellFormed.orderly (h : t.WellFormed) (hn : t.WellNamed) : t.linked.Orderly where
  stored := by simp [linked]
  mirrored := by
    intro parent child
    rw [h.childrenOf_linked, mem_children]
    exact and_iff_right_of_imp fun hp => (h.parent_lt hp).2
  oldest_first := by
    intro parent
    rw [h.childrenOf_linked]
    exact List.pairwise_lt_range.filter _
  acyclic := h.acyclic
  climb := by
    intro i hi
    obtain ⟨below, hbelow, -⟩ := h.path_eq_cons hi
    refine ⟨t.path i, ?_, rfl, by rw [hbelow, List.head?_cons], h.getLast?_path hi,
      h.isChain_path hi, depthOf_linked hi⟩
    intro turns hturns
    rw [h.climb_eq hi (Nat.lt_of_lt_of_le hi hturns), List.append_nil]
  walk := by
    refine ⟨t.subtree, ?_, h.preorder_perm, ?_, ?_⟩
    · intro turns hturns
      have hlength : (t.subtree 0).length = t.size :=
        h.preorder_perm.length_eq.trans List.length_range
      have hwalk : t.linked.walk turns [0] = some ([0].flatMap t.subtree) :=
        h.walk_eq (by simpa using h.size_pos) (by simpa using hlength.trans_le hturns)
      simpa using hwalk
    · intro before i after parent hsplit hp
      exact h.parent_mem_preorder hsplit hp
    · intro i hi
      refine ⟨?_, h.subtree_infix hi, ?_⟩
      · have hchildren : t.linked.childrenOf = t.children := funext h.childrenOf_linked
        rw [hchildren]
        exact h.subtree_eq i
      · intro j
        rw [h.mem_subtree_iff hi]
        exact and_congr_right fun hj => h.mem_path_iff hj
  own_nodup := hn.own_nodup
  find := by
    intro i hi
    rw [h.find_linked]
    exact hn.find_pathText h hi
  distinct := by
    intro i hi j hj htext
    have hfind : t.find (t.pathText i) = some i := hn.find_pathText h hi
    have htext : t.pathText i = t.pathText j := htext
    rw [htext, hn.find_pathText h hj, Option.some.injEq] at hfind
    exact hfind.symm

/-- After any edits, successful or failed, the tree with the links that the edits themselves keep is
in order. -/
theorem orderly_of_edits (id : Nat) (label : Option String) (edits : List Edit) :
    (LinkedTree.ofEdits id label edits).tree = ofEdits id label edits ∧
      (LinkedTree.ofEdits id label edits).Orderly := by
  have ht := reachable_ofEdits id label edits
  rw [linked_ofEdits]
  exact ⟨rfl, ht.wellFormed.orderly ht.wellNamed⟩

end SelectionTree
end SelectionPlan
