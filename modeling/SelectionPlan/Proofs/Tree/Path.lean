import SelectionPlan.Proofs.Tree.Reachable
import Mathlib.Data.List.Nodup

/-!
# Paths and preorder

In a well-formed tree the path to a node is the path to its parent and the node itself, and the
preorder lists every node after its parent.
-/

namespace SelectionPlan
namespace SelectionTree

variable {t : SelectionTree}

theorem WellFormed.parent_lt (h : t.WellFormed) {index parent : Nat}
    (hp : t.parent? index = some parent) : parent < index ∧ index < t.size := by
  obtain ⟨n, hn, hparent⟩ := Option.bind_eq_some_iff.mp hp
  obtain ⟨a, ha, rfl⟩ := Option.map_eq_some_iff.mp hparent
  cases index with
  | zero =>
      obtain ⟨m, hm, hroot⟩ := h.root
      rw [hn, Option.some.injEq] at hm
      rw [hm, hroot] at ha
      cases ha
  | succ index =>
      obtain ⟨b, hb, hlt⟩ := h.attached _ n (Nat.succ_pos index) hn
      rw [ha, Option.some.injEq] at hb
      subst hb
      exact ⟨hlt, (List.getElem?_eq_some_iff.mp hn).1⟩

theorem WellFormed.parent_root (h : t.WellFormed) : t.parent? 0 = none := by
  cases hp : t.parent? 0 with
  | none => rfl
  | some parent => exact absurd (h.parent_lt hp).1 (Nat.not_lt_zero parent)

theorem WellFormed.exists_parent (h : t.WellFormed) {index : Nat} (hi : 0 < index)
    (hsize : index < t.size) : ∃ parent, t.parent? index = some parent := by
  have hn : t.nodes[index]? = some t.nodes[index] := List.getElem?_eq_getElem hsize
  obtain ⟨a, ha, -⟩ := h.attached index _ hi hn
  refine ⟨a.parent, ?_⟩
  simp only [parent?, hn, Option.bind_some, Node.parent, ha, Option.map_some]

theorem WellFormed.size_pos (h : t.WellFormed) : 0 < t.size := by
  obtain ⟨n, hn, -⟩ := h.root
  exact (List.getElem?_eq_some_iff.mp hn).1

theorem WellFormed.parent_lt_size (h : t.WellFormed) {index parent : Nat}
    (hp : t.parent? index = some parent) : parent < t.size :=
  Nat.lt_trans (h.parent_lt hp).1 (h.parent_lt hp).2

/-- What holds at the root and passes from a node to its children holds at every node. -/
theorem WellFormed.induction (h : t.WellFormed) {motive : (index : Nat) → index < t.size → Prop}
    (root : motive 0 h.size_pos)
    (child : ∀ index parent (hp : t.parent? index = some parent),
      motive parent (h.parent_lt_size hp) → motive index (h.parent_lt hp).2)
    (index : Nat) (hi : index < t.size) : motive index hi := by
  induction index using Nat.strongRecOn with
  | _ index ih =>
      rcases Nat.eq_zero_or_pos index with rfl | hpos
      · exact root
      · obtain ⟨parent, hp⟩ := h.exists_parent hpos hi
        exact child index parent hp (ih parent (h.parent_lt hp).1 (h.parent_lt_size hp))

private theorem pathWithin_stable (h : t.WellFormed) {bound index : Nat} (hb : index ≤ bound) :
    t.pathWithin bound index = t.path index := by
  induction index using Nat.strongRecOn generalizing bound with
  | _ index ih =>
      cases hp : t.parent? index with
      | none => cases bound <;> cases index <;> simp [SelectionTree.path, pathWithin, hp]
      | some parent =>
          have hlt := (h.parent_lt hp).1
          obtain ⟨i, rfl⟩ : ∃ i, index = i + 1 := ⟨index - 1, by omega⟩
          obtain ⟨b, rfl⟩ : ∃ b, bound = b + 1 := ⟨bound - 1, by omega⟩
          have hleft := ih parent hlt (show parent ≤ b by omega)
          have hright := ih parent hlt (show parent ≤ i by omega)
          simp only [SelectionTree.path, pathWithin, hp, hleft, hright]

theorem path_root : t.path 0 = [0] := rfl

theorem WellFormed.path_child (h : t.WellFormed) {index parent : Nat}
    (hp : t.parent? index = some parent) : t.path index = t.path parent ++ [index] := by
  have hlt := (h.parent_lt hp).1
  obtain ⟨i, rfl⟩ : ∃ i, index = i + 1 := ⟨index - 1, by omega⟩
  have hstable := pathWithin_stable h (show parent ≤ i by omega)
  simp only [SelectionTree.path, pathWithin, hp]
  rw [hstable, SelectionTree.path]

theorem WellFormed.mem_path_self (h : t.WellFormed) {index : Nat} (hi : index < t.size) :
    index ∈ t.path index := by
  rcases Nat.eq_zero_or_pos index with rfl | hpos
  · simp [path_root]
  · obtain ⟨parent, hp⟩ := h.exists_parent hpos hi
    simp [h.path_child hp]

theorem WellFormed.le_of_mem_path (h : t.WellFormed) {index i : Nat} (hi : index < t.size)
    (hmem : i ∈ t.path index) : i ≤ index := by
  induction index, hi using h.induction with
  | root => simpa [path_root] using hmem
  | child index parent hp ih =>
      rw [h.path_child hp, List.mem_append, List.mem_singleton] at hmem
      rcases hmem with hmem | rfl
      · exact Nat.le_trans (ih hmem) (Nat.le_of_lt (h.parent_lt hp).1)
      · exact Nat.le_refl _

theorem WellFormed.nodup_path (h : t.WellFormed) {index : Nat} (hi : index < t.size) :
    (t.path index).Nodup := by
  induction index, hi using h.induction with
  | root => simp [path_root]
  | child index parent hp ih =>
      obtain ⟨hlt, hsize⟩ := h.parent_lt hp
      rw [h.path_child hp, ← List.concat_eq_append, List.nodup_concat]
      refine ⟨fun hmem => ?_, ih⟩
      exact absurd (h.le_of_mem_path (Nat.lt_trans hlt hsize) hmem) (Nat.not_le_of_lt hlt)

theorem WellFormed.path_prefix (h : t.WellFormed) {index i : Nat} (hi : index < t.size)
    (hmem : i ∈ t.path index) : t.path i <+: t.path index := by
  induction index, hi using h.induction with
  | root =>
      rw [path_root, List.mem_singleton] at hmem
      subst hmem
      exact List.prefix_refl _
  | child index parent hp ih =>
      rw [h.path_child hp, List.mem_append, List.mem_singleton] at hmem
      rcases hmem with hmem | rfl
      · rw [h.path_child hp]
        exact (ih hmem).trans (List.prefix_append _ _)
      · exact List.prefix_refl _

theorem WellFormed.path_subset (h : t.WellFormed) {index i : Nat} (hi : index < t.size)
    (hmem : i ∈ t.path index) : t.path i ⊆ t.path index :=
  (h.path_prefix hi hmem).subset

theorem WellFormed.eq_of_siblings (h : t.WellFormed) {index i j parent : Nat}
    (hindex : index < t.size) (hi : i ∈ t.path index) (hj : j ∈ t.path index)
    (hpi : t.parent? i = some parent) (hpj : t.parent? j = some parent) : i = j := by
  have hlen : (t.path i).length ≤ (t.path j).length := by simp [h.path_child hpi, h.path_child hpj]
  have hpre := List.prefix_of_prefix_length_le (h.path_prefix hindex hi)
    (h.path_prefix hindex hj) hlen
  rw [h.path_child hpi, h.path_child hpj, List.prefix_append_right_inj] at hpre
  simpa using hpre

theorem mem_children {index child : Nat} :
    child ∈ t.children index ↔ child < t.size ∧ t.parent? child = some index := by
  simp [children]

theorem preorderWithin_child {bound index i child : Nat}
    (hi : i ∈ t.preorderWithin bound index) (hchild : child ∈ t.children i) :
    child ∈ t.preorderWithin (bound + 1) index := by
  induction bound generalizing index with
  | zero =>
      simp only [preorderWithin, List.mem_singleton] at hi
      subst hi
      simp [preorderWithin, hchild]
  | succ bound ih =>
      rw [preorderWithin, List.mem_cons, List.mem_flatMap] at hi
      rw [preorderWithin, List.mem_cons, List.mem_flatMap]
      rcases hi with rfl | ⟨c, hc, hi⟩
      · refine .inr ⟨child, hchild, ?_⟩
        cases bound <;> simp [preorderWithin]
      · exact .inr ⟨c, hc, ih hi⟩

theorem WellFormed.mem_preorder (h : t.WellFormed) {index : Nat} (hi : index < t.size) :
    index ∈ t.preorder := by
  have hdepth (i : Nat) (hi : i < t.size) : ∀ bound, i ≤ bound → i ∈ t.preorderWithin bound 0 := by
    induction i, hi using h.induction with
    | root =>
        intro bound _
        cases bound <;> simp [preorderWithin]
    | child index parent hp ih =>
        obtain ⟨hlt, hsize⟩ := h.parent_lt hp
        intro bound hb
        obtain ⟨b, rfl⟩ : ∃ b, bound = b + 1 := ⟨bound - 1, by omega⟩
        exact preorderWithin_child (ih b (by omega)) (mem_children.mpr ⟨hsize, hp⟩)
  exact hdepth index hi t.size (Nat.le_of_lt hi)

theorem WellFormed.mem_path_of_mem_preorderWithin (h : t.WellFormed) {bound start i : Nat}
    (hs : start < t.size) (hi : i ∈ t.preorderWithin bound start) :
    i < t.size ∧ start ∈ t.path i := by
  induction bound generalizing start with
  | zero =>
      simp only [preorderWithin, List.mem_singleton] at hi
      subst hi
      exact ⟨hs, h.mem_path_self hs⟩
  | succ bound ih =>
      rw [preorderWithin, List.mem_cons, List.mem_flatMap] at hi
      rcases hi with rfl | ⟨child, hchild, hi⟩
      · exact ⟨hs, h.mem_path_self hs⟩
      · obtain ⟨hsize, hp⟩ := mem_children.mp hchild
        obtain ⟨hlt, hmem⟩ := ih hsize hi
        refine ⟨hlt, h.path_subset hlt hmem ?_⟩
        rw [h.path_child hp]
        exact List.mem_append_left _ (h.mem_path_self hs)

theorem WellFormed.lt_of_mem_preorder (h : t.WellFormed) {index : Nat}
    (hi : index ∈ t.preorder) : index < t.size :=
  (h.mem_path_of_mem_preorderWithin h.size_pos hi).1

theorem WellFormed.nodup_preorder (h : t.WellFormed) : t.preorder.Nodup := by
  have hwithin (bound : Nat) : ∀ start, start < t.size → (t.preorderWithin bound start).Nodup := by
    induction bound with
    | zero => exact fun start _ => List.nodup_singleton start
    | succ bound ih =>
        intro start hs
        have hbelow {child i : Nat} (hchild : child ∈ t.children start)
            (hi : i ∈ t.preorderWithin bound child) : i < t.size ∧ child ∈ t.path i :=
          h.mem_path_of_mem_preorderWithin (mem_children.mp hchild).1 hi
        rw [preorderWithin, List.nodup_cons, List.nodup_flatMap]
        refine ⟨fun hmem => ?_, fun child hchild => ih child (mem_children.mp hchild).1, ?_⟩
        · obtain ⟨child, hchild, hi⟩ := List.mem_flatMap.mp hmem
          have hle := h.le_of_mem_path hs (hbelow hchild hi).2
          have hlt := (h.parent_lt (mem_children.mp hchild).2).1
          omega
        · have hchildren : (t.children start).Nodup := List.nodup_range.filter _
          refine hchildren.imp_of_mem fun {i j} hi hj hne => ?_
          intro k hki hkj
          obtain ⟨hk, hik⟩ := hbelow hi hki
          have hjk := (hbelow hj hkj).2
          exact hne (h.eq_of_siblings hk hik hjk (mem_children.mp hi).2 (mem_children.mp hj).2)
  exact hwithin t.size 0 h.size_pos

private theorem preorderWithin_parent {bound index : Nat} {before after : List Nat} {i : Nat}
    (hsplit : t.preorderWithin bound index = before ++ i :: after) :
    before = [] ∧ i = index ∨ ∃ parent ∈ before, t.parent? i = some parent := by
  induction bound generalizing index before after with
  | zero =>
      cases before with
      | nil => simp_all [preorderWithin]
      | cons b bs => simp [preorderWithin] at hsplit
  | succ bound ih =>
      rw [preorderWithin] at hsplit
      cases before with
      | nil =>
          simp only [List.nil_append, List.cons.injEq] at hsplit
          exact .inl ⟨rfl, hsplit.1.symm⟩
      | cons b bs =>
          right
          simp only [List.cons_append, List.cons.injEq] at hsplit
          obtain ⟨rfl, hsplit⟩ := hsplit
          have hblocks : ∀ (children : List Nat) (bs : List Nat),
              (∀ c ∈ children, t.parent? c = some index) →
              children.flatMap (t.preorderWithin bound) = bs ++ i :: after →
              ∃ parent ∈ index :: bs, t.parent? i = some parent := by
            intro children
            induction children with
            | nil => intro bs _ h; simp at h
            | cons c cs ihc =>
                intro bs hc h
                rw [List.flatMap_cons, List.append_eq_append_iff] at h
                rcases h with ⟨rest, rfl, h⟩ | ⟨rest, hblock, h⟩
                · obtain ⟨parent, hmem, hp⟩ :=
                    ihc rest (fun c' hc' => hc c' (List.mem_cons_of_mem _ hc')) h
                  refine ⟨parent, ?_, hp⟩
                  simp only [List.mem_cons, List.mem_append] at hmem ⊢
                  tauto
                · cases rest with
                  | nil =>
                      simp only [List.append_nil, List.nil_append] at hblock h
                      obtain ⟨parent, hmem, hp⟩ :=
                        ihc [] (fun c' hc' => hc c' (List.mem_cons_of_mem _ hc')) h.symm
                      refine ⟨parent, ?_, hp⟩
                      simp only [List.mem_cons, List.not_mem_nil, or_false] at hmem ⊢
                      exact .inl hmem
                  | cons j rest =>
                      simp only [List.cons_append, List.cons.injEq] at h
                      obtain ⟨rfl, -⟩ := h
                      rcases ih hblock with ⟨rfl, rfl⟩ | ⟨parent, hmem, hp⟩
                      · exact ⟨index, by simp, hc i (by simp)⟩
                      · exact ⟨parent, List.mem_cons_of_mem _ hmem, hp⟩
          exact hblocks _ bs (fun c hc => (mem_children.mp hc).2) hsplit

theorem WellFormed.parent_mem_preorder (h : t.WellFormed) {before after : List Nat}
    {i parent : Nat} (hsplit : t.preorder = before ++ i :: after)
    (hp : t.parent? i = some parent) : parent ∈ before := by
  rcases preorderWithin_parent hsplit with ⟨-, rfl⟩ | ⟨parent', hmem, hp'⟩
  · rw [h.parent_root] at hp
    cases hp
  · rw [hp, Option.some.injEq] at hp'
    exact hp' ▸ hmem

theorem WellFormed.node_eq (h : t.WellFormed) {index : Nat} (hi : index < t.size) :
    ∃ node, t.nodes[index]? = some node ∧ (node.attachment = none ↔ index = 0) ∧
      node.parent = t.parent? index := by
  refine ⟨t.nodes[index], List.getElem?_eq_getElem hi, ?_, ?_⟩
  · rcases Nat.eq_zero_or_pos index with rfl | hpos
    · obtain ⟨m, hm, hroot⟩ := h.root
      rw [List.getElem?_eq_getElem hi, Option.some.injEq] at hm
      simp [hm, hroot]
    · obtain ⟨a, ha, -⟩ := h.attached index _ hpos (List.getElem?_eq_getElem hi)
      simp only [ha, reduceCtorEq, false_iff]
      omega
  · simp [parent?, List.getElem?_eq_getElem hi]

end SelectionTree
end SelectionPlan
