import SelectionPlan.Proofs.Scope.Resolved
import SelectionPlan.Proofs.Tree.Path

/-!
# The places of an index

The place of a node extends the place of its parent: its scope by the node's variables, its chain by
the variations that change the node's filter.  A column is the same from wherever it is seen.
-/

namespace SelectionPlan

namespace Place

theorem chainUnder_chainUnder {p q : Place} (h : q.chain ⊆ p.chain) (s : Systematic) :
    q.chainUnder (p.chainUnder s) = q.chainUnder s := by
  cases s with
  | nominal => rfl
  | variation name =>
      by_cases hp : name ∈ p.chain
      · simp [chainUnder, hp]
      · have hq : name ∉ q.chain := fun hq => hp (h hq)
        simp [chainUnder, hp, hq]

/-- What a node's place adds to the scope and the chain above it. -/
structure Extends (t : SelectionTree) (scope : Scope) (chain : List String) (index : Nat)
    (p : Place) : Prop where
  node_eq : p.node = index
  path_eq : p.path = t.pathText index
  declaration : ∃ node, t.nodes[index]? = some node ∧ p.name = node.name ∧
    p.parent = node.parent ∧ p.filter = node.filter ∧
    p.scope.map Column.declared = node.ownVariables.reverse ++ scope.map Column.declared
  resolved : p.scope.Resolved
  suffix : scope <:+ p.scope
  own_column : ∀ c older, c :: older <:+ p.scope → c :: older <:+ scope ∨
    c.ref.node = index ∧ c.path = p.path ∧ older.length = scope.length + c.ref.slot
  filter_input : ∀ v, p.filter = some v → ∀ i ∈ v.allInputs, ∃ c, p.scope.lookup i = some c
  mem_chain : ∀ x, x ∈ p.chain ↔ x ∈ chain ∨ ∃ v, p.filter = some v ∧ (x ∈ v.overridden ∨
    ∃ i ∈ v.allInputs, ∃ c, p.scope.lookup i = some c ∧ x ∈ c.affects)

end Place

private theorem declare_all {path : String} {index k : Nat} {vs : List Variable}
    {scope scope' : Scope}
    (h : (vs.zipIdx k).foldlM (Scope.declare path index) scope = .ok scope')
    (hr : scope.Resolved) :
    scope'.Resolved ∧ scope <:+ scope' ∧
      scope'.map Column.declared = vs.reverse ++ scope.map Column.declared ∧
      ∀ c older, c :: older <:+ scope' → c :: older <:+ scope ∨
        c.ref.node = index ∧ c.path = path ∧ older.length + k = scope.length + c.ref.slot := by
  induction vs generalizing k scope with
  | nil =>
      cases h
      exact ⟨hr, List.suffix_refl _, by simp, fun _ _ hs => .inl hs⟩
  | cons v vs ih =>
      simp only [List.zipIdx_cons, List.foldlM_cons, bind_eq_ok] at h
      obtain ⟨grown, hgrown, hrest⟩ := h
      obtain ⟨hgr, affects, rfl⟩ := Scope.declare_eq_ok hgrown hr
      obtain ⟨hr', hs, hdecl, hown⟩ := ih hrest hgr
      refine ⟨hr', (List.suffix_cons _ _).trans hs, by simp [hdecl], ?_⟩
      intro c older hc
      rcases hown c older hc with hc | ⟨hnode, hpath, hlen⟩
      · rcases List.suffix_cons_iff.mp hc with hc | hc
        · cases hc
          exact .inr ⟨rfl, rfl, rfl⟩
        · exact .inl hc
      · refine .inr ⟨hnode, hpath, ?_⟩
        simp only [List.length_cons] at hlen
        omega

namespace SelectionTree

def visible (t : SelectionTree) (node : Nat) : List Variable :=
  ((t.path node).flatMap fun i => (t.nodes[i]?.map Node.ownVariables).getD []).reverse

variable {t : SelectionTree}

theorem placeBelow_eq_ok {scope : Scope} {chain : List String} {index : Nat} {p : Place}
    (h : t.placeBelow scope chain index = .ok p) (hr : scope.Resolved) :
    p.Extends t scope chain index := by
  simp only [placeBelow] at h
  split at h
  · cases h
  · rename_i node hnode
    simp only [bind_eq_ok] at h
    obtain ⟨scope', hscope, chain', hchain, h⟩ := h
    cases h
    obtain ⟨hr', hs, hdecl, hown⟩ := declare_all hscope hr
    obtain ⟨hfound, hmem⟩ := Scope.reach_eq_ok hchain
    refine ⟨rfl, rfl, ⟨node, hnode, rfl, rfl, rfl, hdecl⟩, hr', hs, hown, ?_, ?_⟩
    · intro v hv i hi
      simp only at hv
      simp only [hv, Option.map_some, Option.getD_some] at hfound
      exact hfound i hi
    · intro x
      simp only [hmem x]
      cases hv : node.filter with
      | none => simp
      | some v => simp [or_assoc, or_comm]

theorem placeAlong_append {scope : Scope} {chain : List String} {path : List Nat} {index : Nat}
    (hpath : path ≠ []) :
    t.placeAlong scope chain (path ++ [index]) =
      t.placeAlong scope chain path >>= fun p => t.placeBelow p.scope p.chain index := by
  induction path generalizing scope chain with
  | nil => exact absurd rfl hpath
  | cons i rest ih =>
      cases rest with
      | nil => rfl
      | cons j rest =>
          simp only [List.cons_append, placeAlong] at ih ⊢
          rw [bind_assoc]
          congr 1
          funext p
          exact ih (by simp)

theorem place_root : t.place 0 = t.placeBelow [] [] 0 := by
  simp only [place, path_root, placeAlong]

theorem WellFormed.place_child (h : t.WellFormed) {index parent : Nat}
    (hp : t.parent? index = some parent) :
    t.place index = t.place parent >>= fun p => t.placeBelow p.scope p.chain index := by
  have hne : t.path parent ≠ [] := by
    intro hnil
    have := h.mem_path_self (h.parent_lt_size hp)
    rw [hnil] at this
    cases this
  rw [place, h.path_child hp, placeAlong_append hne]
  rfl

theorem WellFormed.weight_child (h : t.WellFormed) {index parent : Nat}
    (hp : t.parent? index = some parent) {node : Node} (hn : t.nodes[index]? = some node) :
    t.weight index = node.weight.or (t.weight parent) := by
  simp only [weight, h.path_child hp, List.reverse_append, List.reverse_cons, List.reverse_nil,
    List.nil_append, List.singleton_append, List.findSome?_cons, hn, Option.bind_some]
  cases node.weight <;> rfl

end SelectionTree

namespace ScopeIndex

variable {t : SelectionTree} {index : ScopeIndex}

theorem build_eq_ok (h : build t = .ok index) : index.tree = t ∧
    List.Forall₂ (fun i p => t.place i = .ok p) t.preorder index.places := by
  simp only [build, bind_eq_ok] at h
  obtain ⟨places, hplaces, h⟩ := h
  cases h
  exact ⟨rfl, mapM_eq_ok.mp hplaces⟩

/-- The places of a well-formed tree whose names all mean something. -/
structure Lawful (t : SelectionTree) (index : ScopeIndex) : Prop where
  wellFormed : t.WellFormed
  tree_eq : index.tree = t
  places_node : index.places.map Place.node = t.preorder
  place_of_mem : ∀ p ∈ index.places, index.place? p.node = some p
  root : ∃ p, index.place? 0 = some p ∧ p.Extends t [] [] 0
  child : ∀ i parent, t.parent? i = some parent → ∃ p q, index.place? i = some p ∧
    index.place? parent = some q ∧ p.Extends t q.scope q.chain i

private theorem place_extends (ht : t.WellFormed) {i : Nat} (hi : i < t.size) :
    ∀ p, t.place i = .ok p → p.node = i ∧ p.scope.Resolved := by
  induction i, hi using ht.induction with
  | root =>
      intro p hp
      rw [SelectionTree.place_root] at hp
      have hext := SelectionTree.placeBelow_eq_ok hp .nil
      exact ⟨hext.node_eq, hext.resolved⟩
  | child i parent hparent ih =>
      intro p hp
      rw [ht.place_child hparent, bind_eq_ok] at hp
      obtain ⟨q, hq, hp⟩ := hp
      have hext := SelectionTree.placeBelow_eq_ok hp (ih q hq).2
      exact ⟨hext.node_eq, hext.resolved⟩

private theorem place_of_mem_places (ht : t.WellFormed) (h : build t = .ok index) {p : Place}
    (hp : p ∈ index.places) : p.node < t.size ∧ t.place p.node = .ok p := by
  obtain ⟨-, hplaces⟩ := build_eq_ok h
  obtain ⟨k, hk, rfl⟩ := List.getElem_of_mem hp
  have hk' : k < t.preorder.length := hplaces.length_eq ▸ hk
  have hlt := ht.lt_of_mem_preorder (List.getElem_mem hk')
  have hplace : t.place t.preorder[k] = .ok index.places[k] := hplaces.get hk' hk
  obtain ⟨hnode, -⟩ := place_extends ht hlt _ hplace
  rw [hnode]
  exact ⟨hlt, hplace⟩

private theorem place?_of_build (ht : t.WellFormed) (h : build t = .ok index) {i : Nat}
    (hi : i < t.size) : ∃ p, index.place? i = some p ∧ t.place i = .ok p := by
  obtain ⟨-, hplaces⟩ := build_eq_ok h
  obtain ⟨k, hk, hki⟩ := List.getElem_of_mem (ht.mem_preorder hi)
  have hk' : k < index.places.length := hplaces.length_eq ▸ hk
  have hpk : t.place i = .ok index.places[k] := hki ▸ hplaces.get hk hk'
  cases hfind : index.place? i with
  | none =>
      have := List.find?_eq_none.mp hfind _ (List.getElem_mem hk')
      simp [(place_extends ht hi _ hpk).1] at this
  | some p =>
      have hpi : p.node = i := by simpa using List.find?_some hfind
      have hplace := (place_of_mem_places ht h (List.mem_of_find?_eq_some hfind)).2
      exact ⟨p, rfl, hpi ▸ hplace⟩

theorem lawful_of_build (ht : t.WellFormed) (h : build t = .ok index) : Lawful t index where
  wellFormed := ht
  tree_eq := (build_eq_ok h).1
  places_node := by
    have hall : ∀ (is : List Nat) (ps : List Place), (∀ i ∈ is, i < t.size) →
        List.Forall₂ (fun i p => t.place i = .ok p) is ps → ps.map Place.node = is := by
      intro is ps hlt hps
      induction hps with
      | nil => rfl
      | cons hp _ ih =>
          rw [List.map_cons, ih fun i hi => hlt i (List.mem_cons_of_mem _ hi),
            (place_extends ht (hlt _ (by simp)) _ hp).1]
    exact hall _ _ (fun i hi => ht.lt_of_mem_preorder hi) (build_eq_ok h).2
  place_of_mem := by
    intro p hp
    obtain ⟨hlt, hplace⟩ := place_of_mem_places ht h hp
    obtain ⟨q, hq, hplace'⟩ := place?_of_build ht h hlt
    rw [hplace, Except.ok.injEq] at hplace'
    exact hplace' ▸ hq
  root := by
    obtain ⟨p, hfind, hp⟩ := place?_of_build ht h ht.size_pos
    rw [SelectionTree.place_root] at hp
    exact ⟨p, hfind, SelectionTree.placeBelow_eq_ok hp .nil⟩
  child := by
    intro i parent hparent
    obtain ⟨p, hfind, hp⟩ := place?_of_build ht h (ht.parent_lt hparent).2
    obtain ⟨q, hfindq, hq⟩ := place?_of_build ht h (ht.parent_lt_size hparent)
    rw [ht.place_child hparent, hq] at hp
    have hr := (place_extends ht (ht.parent_lt_size hparent) q hq).2
    exact ⟨p, q, hfind, hfindq, SelectionTree.placeBelow_eq_ok hp hr⟩

def Declares (index : ScopeIndex) (c : Column) (older : Scope) : Prop :=
  ∃ i p, index.place? i = some p ∧ c :: older <:+ p.scope

namespace Lawful

variable (h : Lawful t index)
include h

theorem exists_place {i : Nat} (hi : i < t.size) : ∃ p, index.place? i = some p := by
  induction i, hi using h.wellFormed.induction with
  | root =>
      obtain ⟨p, hp, -⟩ := h.root
      exact ⟨p, hp⟩
  | child i parent hparent _ =>
      obtain ⟨p, -, hp, -⟩ := h.child i parent hparent
      exact ⟨p, hp⟩

theorem place_lt {i : Nat} {p : Place} (hp : index.place? i = some p) :
    p.node = i ∧ i < t.size := by
  have hnode : p.node = i := by simpa using List.find?_some hp
  have hmem : p.node ∈ index.places.map Place.node :=
    List.mem_map_of_mem (List.mem_of_find?_eq_some hp)
  rw [h.places_node, hnode] at hmem
  exact ⟨hnode, h.wellFormed.lt_of_mem_preorder hmem⟩

theorem extends_of_place {i : Nat} {p : Place} (hp : index.place? i = some p) :
    ∃ scope chain, p.Extends t scope chain i := by
  obtain ⟨-, hi⟩ := h.place_lt hp
  cases hparent : t.parent? i with
  | none =>
      rcases Nat.eq_zero_or_pos i with rfl | hpos
      · obtain ⟨q, hq, hext⟩ := h.root
        rw [hp, Option.some.injEq] at hq
        exact ⟨[], [], hq ▸ hext⟩
      · obtain ⟨parent, hsome⟩ := h.wellFormed.exists_parent hpos hi
        rw [hparent] at hsome
        cases hsome
  | some parent =>
      obtain ⟨p', q, hp', -, hext⟩ := h.child i parent hparent
      rw [hp, Option.some.injEq] at hp'
      exact ⟨q.scope, q.chain, hp' ▸ hext⟩

theorem resolved {i : Nat} {p : Place} (hp : index.place? i = some p) : p.scope.Resolved := by
  obtain ⟨_, _, hext⟩ := h.extends_of_place hp
  exact hext.resolved

theorem parent_eq {i : Nat} {p : Place} (hp : index.place? i = some p) :
    p.parent = t.parent? i := by
  obtain ⟨_, _, hext⟩ := h.extends_of_place hp
  obtain ⟨node, hnode, -, hparent, -⟩ := hext.declaration
  rw [hparent, SelectionTree.parent?, hnode, Option.bind_some]

theorem filter_isSome {i : Nat} {p : Place} (hp : index.place? i = some p) :
    p.filter.isSome = p.parent.isSome := by
  obtain ⟨_, _, hext⟩ := h.extends_of_place hp
  obtain ⟨node, -, -, hparent, hfilter, -⟩ := hext.declaration
  rw [hparent, hfilter, Node.filter, Node.parent, Option.isSome_map, Option.isSome_map]

theorem scope_declared {i : Nat} {p : Place} (hp : index.place? i = some p) :
    p.scope.map Column.declared = t.visible i := by
  induction i, (h.place_lt hp).2 using h.wellFormed.induction generalizing p with
  | root =>
      obtain ⟨q, hq, hext⟩ := h.root
      rw [hp, Option.some.injEq] at hq
      subst hq
      obtain ⟨node, hnode, -, -, -, hdecl⟩ := hext.declaration
      simp [hdecl, SelectionTree.visible, SelectionTree.path_root, hnode]
  | child i parent hparent ih =>
      obtain ⟨q, above, hq, habove, hext⟩ := h.child i parent hparent
      rw [hp, Option.some.injEq] at hq
      subst hq
      obtain ⟨node, hnode, -, -, -, hdecl⟩ := hext.declaration
      simp [hdecl, ih habove, SelectionTree.visible, h.wellFormed.path_child hparent, hnode]

/-- A column is in the scope of its own node, above those that the node inherits. -/
theorem column_home {i : Nat} (hi : i < t.size) : ∀ p c older, index.place? i = some p →
    c :: older <:+ p.scope → ∃ q, index.place? c.ref.node = some q ∧ c :: older <:+ q.scope ∧
      c.path = q.path ∧ c.ref.node ∈ t.path i ∧
      older.length = (((t.parent? c.ref.node).bind index.place?).elim 0 fun above =>
        above.scope.length) + c.ref.slot := by
  induction i, hi using h.wellFormed.induction with
  | root =>
      intro p c older hp hc
      obtain ⟨p', hp', hext⟩ := h.root
      rw [hp, Option.some.injEq] at hp'
      subst hp'
      rcases hext.own_column c older hc with hnil | ⟨hnode, hpath, hlen⟩
      · simp at hnil
      · rw [hnode]
        refine ⟨p, hp, hc, hpath, by simp [SelectionTree.path_root], ?_⟩
        simpa [h.wellFormed.parent_root] using hlen
  | child i parent hparent ih =>
      intro p c older hp hc
      obtain ⟨p', q, hp', hq, hext⟩ := h.child i parent hparent
      rw [hp, Option.some.injEq] at hp'
      subst hp'
      rcases hext.own_column c older hc with hc' | ⟨hnode, hpath, hlen⟩
      · obtain ⟨home, hhome, hsuf, hpath, hmem, hlen⟩ := ih q c older hq hc'
        refine ⟨home, hhome, hsuf, hpath, ?_, hlen⟩
        rw [h.wellFormed.path_child hparent]
        exact List.mem_append_left _ hmem
      · rw [hnode]
        refine ⟨p, hp, hc, hpath, h.wellFormed.mem_path_self (h.wellFormed.parent_lt hparent).2, ?_⟩
        simpa [hparent, hq] using hlen

theorem eq_of_ref {c c' : Column} {older older' : Scope} (hc : index.Declares c older)
    (hc' : index.Declares c' older') (href : c.ref = c'.ref) : c = c' ∧ older = older' := by
  obtain ⟨i, p, hp, hs⟩ := hc
  obtain ⟨i', p', hp', hs'⟩ := hc'
  obtain ⟨q, hq, hqs, -, -, hlen⟩ := h.column_home (h.place_lt hp).2 p c older hp hs
  obtain ⟨q', hq', hqs', -, -, hlen'⟩ := h.column_home (h.place_lt hp').2 p' c' older' hp' hs'
  rw [← href, hq, Option.some.injEq] at hq'
  subst hq'
  rw [← href, ← hlen] at hlen'
  have hcons := List.suffix_of_suffix_length_le hqs hqs' (by simp [hlen'])
  have heq := hcons.eq_of_length (by simp [hlen'])
  cases heq
  exact ⟨rfl, rfl⟩

theorem resolved_of_declares {c : Column} {older : Scope} (hc : index.Declares c older) :
    Scope.Resolved (c :: older) := by
  obtain ⟨i, p, hp, hs⟩ := hc
  exact (h.resolved hp).suffix hs

theorem exists_weight {i : Nat} {p : Place} (hp : index.place? i = some p) {w : String}
    (hw : t.weight i = some w) : ∃ c, p.scope.lookup w = some c := by
  have hi := (h.place_lt hp).2
  have hown {j : Nat} {q : Place} (hq : index.place? j = some q) {node : Node}
      (hn : t.nodes[j]? = some node) (hnw : node.weight = some w) :
      ∃ c, q.scope.lookup w = some c := by
    obtain ⟨scope, chain, hext⟩ := h.extends_of_place hq
    obtain ⟨node', hn', -, -, -, hdecl⟩ := hext.declaration
    rw [hn, Option.some.injEq] at hn'
    subst hn'
    have hdef := h.wellFormed.weight_defined j node w hn hnw
    simp only [Node.defines, List.any_eq_true, beq_iff_eq] at hdef
    obtain ⟨v, hv, hvw⟩ := hdef
    have hmem : v ∈ q.scope.map Column.declared := by simp [hdecl, hv]
    obtain ⟨c, hc, hcv⟩ := List.mem_map.mp hmem
    have hsome : (q.scope.lookup w).isSome := by
      rw [Scope.lookup, List.find?_isSome]
      exact ⟨c, hc, by simp [Column.name, hcv, hvw]⟩
    exact Option.isSome_iff_exists.mp hsome
  induction i, hi using h.wellFormed.induction generalizing p with
  | root =>
      obtain ⟨node, hn, -⟩ := h.wellFormed.node_eq h.wellFormed.size_pos
      have hroot : t.weight 0 = node.weight := by
        simp [SelectionTree.weight, SelectionTree.path_root, hn]
      exact hown hp hn (hroot ▸ hw)
  | child i parent hparent ih =>
      obtain ⟨node, hn, -⟩ := h.wellFormed.node_eq (h.wellFormed.parent_lt hparent).2
      rw [h.wellFormed.weight_child hparent hn, Option.or_eq_some_iff] at hw
      rcases hw with hw | ⟨-, hw⟩
      · exact hown hp hn hw
      · obtain ⟨p', q, hp', hq, hext⟩ := h.child i parent hparent
        rw [hp, Option.some.injEq] at hp'
        subst hp'
        obtain ⟨c, hc⟩ := ih hq hw
        rw [Scope.lookup] at hc
        have hname := List.find?_some hc
        have hsome : (p.scope.lookup w).isSome := by
          rw [Scope.lookup, List.find?_isSome]
          exact ⟨c, hext.suffix.subset (List.mem_of_find?_eq_some hc), hname⟩
        exact Option.isSome_iff_exists.mp hsome

end Lawful

end ScopeIndex
end SelectionPlan
