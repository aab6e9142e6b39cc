import SelectionPlan.Proofs.Scope.Readable

/-!
# Weighed nodes

Edits keep the nodes that they find.  So a weighing stays in force: the factor remains a variable of
its node, and the product with the inherited weight remains what it was, unless a node above is
weighed later.
-/

namespace SelectionPlan

structure Weighing where
  node : Nat
  factor : Variable
  strategy : WeightStrategy

structure Node.Keeps (i : Nat) (n n' : Node) : Prop where
  name : n'.name = n.name
  attachment : n'.attachment = n.attachment
  defines : ∀ x, n.defines x = true → n'.defines x = true
  own : 0 < i → n.ownVariables ⊆ n'.ownVariables

theorem Node.Keeps.refl {i : Nat} (n : Node) : n.Keeps i n := by
  constructor <;> simp

theorem Node.Keeps.trans {i : Nat} {n n' n'' : Node} (h : n.Keeps i n') (h' : n'.Keeps i n'') :
    n.Keeps i n'' := by
  constructor
  · rw [h'.name, h.name]
  · rw [h'.attachment, h.attachment]
  · intro x hx
    exact h'.defines x (h.defines x hx)
  · intro hi
    exact List.Subset.trans (h.own hi) (h'.own hi)

theorem Node.keeps_define {i : Nat} (n : Node) (v : Variable) :
    n.Keeps i { n with ownVariables := n.ownVariables ++ [v] } := by
  constructor
  · rfl
  · rfl
  · intro x hx
    simp only [Node.defines, List.any_append, Bool.or_eq_true] at hx ⊢
    exact .inl hx
  · intro _
    exact List.subset_append_left _ _

theorem findSome?_congr {α β : Type} {f g : α → Option β} {xs : List α}
    (h : ∀ x ∈ xs, f x = g x) : xs.findSome? f = xs.findSome? g := by
  induction xs with
  | nil => rfl
  | cons x xs ih =>
      rw [List.forall_mem_cons] at h
      rw [List.findSome?_cons, List.findSome?_cons, h.1, ih h.2]

namespace SelectionTree

variable {t t' t'' : SelectionTree} {i : Nat}

/-! ### Kept nodes -/

def ownWeight (t : SelectionTree) (i : Nat) : Option String := t.nodes[i]?.bind Node.weight

def Keeps (t t' : SelectionTree) : Prop :=
  ∀ (i : Nat) (n : Node), t.nodes[i]? = some n → ∃ n', t'.nodes[i]? = some n' ∧ n.Keeps i n'

theorem Keeps.refl (t : SelectionTree) : t.Keeps t := fun _ n hn => ⟨n, hn, .refl n⟩

theorem Keeps.trans (h : t.Keeps t') (h' : t'.Keeps t'') : t.Keeps t'' := by
  intro i n hn
  obtain ⟨n', hn', hkeeps⟩ := h i n hn
  obtain ⟨n'', hn'', hkeeps'⟩ := h' i n' hn'
  exact ⟨n'', hn'', hkeeps.trans hkeeps'⟩

theorem Keeps.lt_size (h : t.Keeps t') (hi : i < t.size) : i < t'.size := by
  obtain ⟨n', hn', -⟩ := h i _ (List.getElem?_eq_getElem hi)
  exact (List.getElem?_eq_some_iff.mp hn').1

theorem Keeps.parent?_eq (h : t.Keeps t') (hi : i < t.size) : t'.parent? i = t.parent? i := by
  have hn := List.getElem?_eq_getElem hi
  obtain ⟨n', hn', hkeeps⟩ := h i _ hn
  simp only [parent?, hn, hn', Option.bind_some, Node.parent, hkeeps.attachment]

theorem Keeps.path_eq (h : t.Keeps t') (ht : t.WellFormed) (ht' : t'.WellFormed)
    (hi : i < t.size) : t'.path i = t.path i := by
  induction i, hi using ht.induction with
  | root => rfl
  | child i parent hparent ih =>
      have hparent' : t'.parent? i = some parent := by
        rw [h.parent?_eq (ht.parent_lt hparent).2, hparent]
      rw [ht.path_child hparent, ht'.path_child hparent', ih]

theorem weight_eq (t : SelectionTree) (i : Nat) :
    t.weight i = (t.path i).reverse.findSome? t.ownWeight := rfl

theorem WellFormed.inheritedWeight_eq (ht : t.WellFormed) (i : Nat) :
    t.inheritedWeight i = (t.path i).dropLast.reverse.findSome? t.ownWeight := by
  rw [inheritedWeight]
  cases hparent : t.parent? i with
  | none =>
      have hpath : (t.path i).dropLast = [] := by
        cases i with
        | zero => rfl
        | succ i => simp [path, pathWithin, hparent]
      rw [hpath]
      rfl
  | some parent =>
      rw [ht.path_child hparent, List.dropLast_concat]
      rfl

theorem Keeps.inheritedWeight_eq (h : t.Keeps t') (ht : t.WellFormed) (ht' : t'.WellFormed)
    (hi : i < t.size) (hown : ∀ m ∈ (t.path i).dropLast, t'.ownWeight m = t.ownWeight m) :
    t'.inheritedWeight i = t.inheritedWeight i := by
  rw [ht.inheritedWeight_eq, ht'.inheritedWeight_eq, h.path_eq ht ht' hi]
  exact findSome?_congr fun m hm => hown m (List.mem_reverse.mp hm)

structure Grows (t t' : SelectionTree) : Prop where
  keeps : t.Keeps t'
  ownWeight : ∀ i, t'.ownWeight i = t.ownWeight i

theorem Grows.refl (t : SelectionTree) : t.Grows t := ⟨.refl t, fun _ => rfl⟩

theorem Grows.trans (h : t.Grows t') (h' : t'.Grows t'') : t.Grows t'' :=
  ⟨h.keeps.trans h'.keeps, fun i => (h'.ownWeight i).trans (h.ownWeight i)⟩

theorem getElem?_modify_self {index : Nat} {n : Node} (f : Node → Node)
    (h : t.nodes[index]? = some n) : (t.modify index f).nodes[index]? = some (f n) := by
  simp [modify, h]

theorem getElem?_modify_ne {index : Nat} (f : Node → Node) (h : index ≠ i) :
    (t.modify index f).nodes[i]? = t.nodes[i]? := by
  simp [modify, h]

theorem keeps_modify (t : SelectionTree) {index : Nat} {f : Node → Node}
    (hf : ∀ n : Node, n.Keeps index (f n)) : t.Keeps (t.modify index f) := by
  intro i n hn
  by_cases hi : index = i
  · subst hi
    exact ⟨f n, getElem?_modify_self f hn, hf n⟩
  · exact ⟨n, by rw [getElem?_modify_ne f hi, hn], .refl n⟩

theorem grows_modify (t : SelectionTree) {index : Nat} {f : Node → Node}
    (hf : ∀ n : Node, n.Keeps index (f n)) (hweight : ∀ n : Node, (f n).weight = n.weight) :
    t.Grows (t.modify index f) := by
  refine ⟨t.keeps_modify hf, fun i => ?_⟩
  by_cases hi : index = i
  · subst hi
    cases hn : t.nodes[index]? with
    | none => simp [ownWeight, modify, hn]
    | some n => simp [ownWeight, getElem?_modify_self f hn, hn, hweight]
  · rw [ownWeight, ownWeight, getElem?_modify_ne f hi]

theorem grows_addChild {parent n : NodeId} {name : String} {filter : Variable}
    {label : Option String} (h : t.addChild parent name filter label = .ok (n, t')) :
    t.Grows t' := by
  obtain ⟨-, rfl⟩ := addChild_eq_ok h
  constructor
  · intro i m hm
    refine ⟨m, ?_, .refl m⟩
    rw [List.getElem?_append_left (List.getElem?_eq_some_iff.mp hm).1, hm]
  · intro i
    simp only [ownWeight]
    by_cases hi : i < t.nodes.length
    · rw [List.getElem?_append_left hi]
    · have hnone : t.nodes[i]? = none := List.getElem?_eq_none (by omega)
      rw [List.getElem?_append_right (Nat.le_of_not_lt hi), hnone]
      cases i - t.nodes.length <;> rfl

theorem grows_define {n : NodeId} {v : Variable} (h : t.define n v = .ok t') : t.Grows t' := by
  obtain ⟨-, rfl⟩ := define_eq_ok h
  exact t.grows_modify (fun m => m.keeps_define v) fun _ => rfl

theorem grows_declareSystematic (t : SelectionTree) (name : String) :
    t.Grows (t.declareSystematic name) :=
  ⟨.refl t, fun _ => rfl⟩

theorem grows_addVariant (t : SelectionTree) (logical systematic physical : String) :
    t.Grows (t.addVariant logical systematic physical) := by
  apply Grows.trans _ (grows_declareSystematic _ systematic)
  apply grows_modify
  · intro n
    refine ⟨rfl, rfl, fun x hx => ?_, fun h => absurd h (Nat.lt_irrefl 0)⟩
    simp only [Node.defines] at hx ⊢
    split
    · rw [any_modify_vary]
      exact hx
    · rw [List.any_append, hx, Bool.true_or]
  · exact fun _ => rfl

theorem grows_declareParsed (t : SelectionTree) (columns : List SchemaColumn) :
    t.Grows (t.declareParsed columns).2 := by
  induction columns generalizing t with
  | nil => exact .refl t
  | cons column rest ih =>
      obtain ⟨logical, systematic, physical⟩ := column
      cases systematic with
      | nominal =>
          simp only [declareParsed]
          split
          · exact .refl t
          · rename_i hdefine
            exact (grows_define hdefine).trans (ih _)
      | variation systematic => exact (t.grows_addVariant logical systematic physical).trans (ih _)

theorem grows_declareColumns (t : SelectionTree) (namer : Namer) (columns : List String) :
    t.Grows (t.declareColumns namer columns).2 := by
  simp only [declareColumns]
  split
  · exact .refl t
  · exact t.grows_declareParsed _

/-! ### Weighings -/

/-- What a weighing makes of its node: the factor is defined there and is the weight, unless it
multiplies an inherited one. -/
inductive SetsWeight (t t' : SelectionTree) (n : NodeId) (factor : Variable)
    (strategy : WeightStrategy) : Prop
  | alone {weighted : SelectionTree} : t.define n factor = .ok weighted →
      strategy = .replace ∨ t.inheritedWeight n.index = none →
      t' = weighted.assignWeight n.index factor.name → SetsWeight t t' n factor strategy
  | product {weighted both : SelectionTree} {node : Node} {inherited : String} :
      t.nodes[n.index]? = some node → t.define n factor = .ok weighted →
      strategy = .multiplicative → t.inheritedWeight n.index = some inherited →
      weighted.define n (.product ("weight_" ++ node.name) inherited factor.name) = .ok both →
      t' = both.assignWeight n.index ("weight_" ++ node.name) → SetsWeight t t' n factor strategy

section SetWeight

variable {n : NodeId} {factor : Variable} {strategy : WeightStrategy}

theorem setWeight_eq_ok (h : t.setWeight n factor strategy = (.ok (), t')) :
    t.ownWeight n.index = none ∧ SetsWeight t t' n factor strategy := by
  rw [setWeight] at h
  split at h
  · cases h
  · rename_i node hnode
    have hnode := node_eq_ok hnode
    split at h
    · cases h
    · rename_i hfree
      split at h
      · cases h
      · rename_i weighted hfactor
        refine ⟨by simpa [ownWeight, hnode] using hfree, ?_⟩
        cases strategy with
        | replace =>
            cases h
            exact .alone hfactor (.inl rfl) rfl
        | multiplicative =>
            cases hinherited : t.inheritedWeight n.index with
            | none =>
                simp only [hinherited] at h
                cases h
                exact .alone hfactor (.inr hinherited) rfl
            | some inherited =>
                simp only [hinherited] at h
                split at h
                · cases h
                · rename_i both hboth
                  cases h
                  exact .product hnode hfactor rfl hinherited hboth rfl

theorem grows_setWeight {e : BuildError} (h : t.setWeight n factor strategy = (.error e, t')) :
    t.Grows t' := by
  rw [setWeight] at h
  split at h
  · cases h
    exact .refl t
  · split at h
    · cases h
      exact .refl t
    · split at h
      · cases h
        exact .refl t
      · rename_i weighted hfactor
        split at h
        · simp only at h
          split at h
          · cases h
            exact grows_define hfactor
          · cases h
        · cases h

end SetWeight

inductive History : SelectionTree → List Weighing → Prop
  | new (id : Nat) (label : Option String) : History (.new id label) []
  | addChild {t t' : SelectionTree} {log : List Weighing} {parent n : NodeId} {name : String}
      {filter : Variable} {label : Option String} : History t log →
      t.addChild parent name filter label = .ok (n, t') → History t' log
  | define {t t' : SelectionTree} {log : List Weighing} {n : NodeId} {v : Variable} :
      History t log → t.define n v = .ok t' → History t' log
  | setWeight {t t' : SelectionTree} {log : List Weighing} {n : NodeId} {factor : Variable}
      {strategy : WeightStrategy} : History t log →
      t.setWeight n factor strategy = (.ok (), t') →
      History t' (log ++ [⟨n.index, factor, strategy⟩])
  | setWeightFailed {t t' : SelectionTree} {log : List Weighing} {n : NodeId} {factor : Variable}
      {strategy : WeightStrategy} {e : BuildError} : History t log →
      t.setWeight n factor strategy = (.error e, t') → History t' log
  | declareSystematic {t : SelectionTree} {log : List Weighing} (name : String) :
      History t log → History (t.declareSystematic name) log
  | declareColumns {t : SelectionTree} {log : List Weighing} (namer : Namer)
      (columns : List String) : History t log → History (t.declareColumns namer columns).2 log

theorem History.reachable {log : List Weighing} (h : History t log) : t.Reachable := by
  induction h with
  | new id label => exact .new id label
  | addChild _ hadd ih => exact .addChild ih hadd
  | define _ hdefine ih => exact .define ih hdefine
  | @setWeight _ _ _ n factor strategy _ hset ih =>
      have hreachable := Reachable.setWeight n factor strategy ih
      rwa [hset] at hreachable
  | @setWeightFailed _ _ _ n factor strategy _ _ hset ih =>
      have hreachable := Reachable.setWeight n factor strategy ih
      rwa [hset] at hreachable
  | declareSystematic name _ ih => exact .declareSystematic name ih
  | declareColumns namer columns _ ih => exact .declareColumns namer columns ih

/-- No node was weighed after one below it. -/
def TopDown (t : SelectionTree) (log : List Weighing) : Prop :=
  log.Pairwise fun w later => later.node ∉ (t.path w.node).dropLast

/-! ### What weighings leave -/

end SelectionTree

/-- What a weighing leaves at its node: the factor, which is the weight unless it multiplies an
inherited one, and then the product. -/
inductive Weighing.Stands (t : SelectionTree) (w : Weighing) : Prop
  | alone {node : Node} : t.nodes[w.node]? = some node → node.defines w.factor.name = true →
      w.strategy = .replace ∨ t.inheritedWeight w.node = none →
      node.weight = some w.factor.name → Stands t w
  | product {node : Node} {inherited : String} : t.nodes[w.node]? = some node →
      node.defines w.factor.name = true → w.strategy = .multiplicative →
      t.inheritedWeight w.node = some inherited →
      .product ("weight_" ++ node.name) inherited w.factor.name ∈ node.ownVariables →
      node.weight = some ("weight_" ++ node.name) → Stands t w

namespace SelectionTree

variable {t t' : SelectionTree} {i : Nat} {w : Weighing} {log : List Weighing}

theorem stands_ownWeight (h : w.Stands t) :
    ∃ node, t.nodes[w.node]? = some node ∧ node.defines w.factor.name = true ∧
      (t.ownWeight w.node).isSome = true := by
  cases h with
  | alone hnode hdefines _ hweight =>
      exact ⟨_, hnode, hdefines, by simp [ownWeight, hnode, hweight]⟩
  | product hnode hdefines _ _ _ hweight =>
      exact ⟨_, hnode, hdefines, by simp [ownWeight, hnode, hweight]⟩

theorem stands_lt_size (h : w.Stands t) : w.node < t.size := by
  obtain ⟨node, hnode, -⟩ := stands_ownWeight h
  exact (List.getElem?_eq_some_iff.mp hnode).1

theorem WellFormed.pos_of_inheritedWeight (ht : t.WellFormed) {column : String}
    (h : t.inheritedWeight i = some column) : 0 < i := by
  obtain ⟨parent, hparent, -⟩ := Option.bind_eq_some_iff.mp h
  exact Nat.lt_of_le_of_lt (Nat.zero_le parent) (ht.parent_lt hparent).1

theorem Keeps.stands (h : t.Keeps t') (ht : t.WellFormed) (ht' : t'.WellFormed)
    (hown : ∀ m ∈ t.path w.node, t'.ownWeight m = t.ownWeight m) (hw : w.Stands t) :
    w.Stands t' := by
  have hlt := stands_lt_size hw
  have hinherited : t'.inheritedWeight w.node = t.inheritedWeight w.node :=
    h.inheritedWeight_eq ht ht' hlt fun m hm => hown m (List.dropLast_subset _ hm)
  have hsame (n n' : Node) (hn : t.nodes[w.node]? = some n) (hn' : t'.nodes[w.node]? = some n') :
      n'.weight = n.weight := by
    have hweight := hown w.node (ht.mem_path_self hlt)
    simpa [ownWeight, hn, hn'] using hweight
  cases hw with
  | alone hnode hdefines halone hweight =>
      obtain ⟨n', hn', hkeeps⟩ := h _ _ hnode
      rw [← hinherited] at halone
      exact .alone hn' (hkeeps.defines _ hdefines) halone ((hsame _ _ hnode hn').trans hweight)
  | product hnode hdefines hstrategy hbelow hproduct hweight =>
      obtain ⟨n', hn', hkeeps⟩ := h _ _ hnode
      have hpos := ht.pos_of_inheritedWeight hbelow
      refine .product hn' (hkeeps.defines _ hdefines) hstrategy (hinherited.trans hbelow) ?_ ?_
      · rw [hkeeps.name]
        exact hkeeps.own hpos hproduct
      · rw [hsame _ _ hnode hn', hkeeps.name, hweight]

theorem Grows.stands (h : t.Grows t') (ht : t.WellFormed) (ht' : t'.WellFormed)
    (hw : w.Stands t) : w.Stands t' :=
  h.keeps.stands ht ht' (fun m _ => h.ownWeight m) hw

section SetsWeight

variable {n : NodeId} {factor : Variable} {strategy : WeightStrategy}

theorem grows_defined {weighted : SelectionTree} (h : t.define n factor = .ok weighted)
    {node : Node} (hnode : t.nodes[n.index]? = some node) :
    weighted.nodes[n.index]? =
      some { node with ownVariables := node.ownVariables ++ [factor] } := by
  obtain ⟨-, rfl⟩ := define_eq_ok h
  rw [getElem?_modify_self _ hnode]

theorem Node.keeps_weight (node : Node) (column : String) :
    node.Keeps i { node with weight := some column } := by
  constructor
  · rfl
  · rfl
  · exact fun _ hx => hx
  · exact fun _ => List.Subset.refl _

theorem keeps_assignWeight (t : SelectionTree) (index : Nat) (column : String) :
    t.Keeps (t.assignWeight index column) := t.keeps_modify fun n => Node.keeps_weight n column

theorem ownWeight_assignWeight {index : Nat} (column : String) (h : i ≠ index) :
    (t.assignWeight index column).ownWeight i = t.ownWeight i := by
  rw [ownWeight, assignWeight, getElem?_modify_ne _ (Ne.symm h), ownWeight]

theorem SetsWeight.keeps (h : SetsWeight t t' n factor strategy) : t.Keeps t' := by
  cases h with
  | alone hfactor _ ht' =>
      subst ht'
      exact (grows_define hfactor).keeps.trans (keeps_assignWeight _ _ _)
  | product _ hfactor _ _ hproduct ht' =>
      subst ht'
      have hgrows := (grows_define hfactor).trans (grows_define hproduct)
      exact hgrows.keeps.trans (keeps_assignWeight _ _ _)

theorem SetsWeight.ownWeight_eq (h : SetsWeight t t' n factor strategy) (hi : i ≠ n.index) :
    t'.ownWeight i = t.ownWeight i := by
  cases h with
  | alone hfactor _ ht' =>
      subst ht'
      rw [ownWeight_assignWeight _ hi, (grows_define hfactor).ownWeight]
  | product _ hfactor _ _ hproduct ht' =>
      subst ht'
      have hgrows := (grows_define hfactor).trans (grows_define hproduct)
      rw [ownWeight_assignWeight _ hi, hgrows.ownWeight]

theorem SetsWeight.lt_size (h : SetsWeight t t' n factor strategy) : n.index < t.size := by
  cases h with
  | alone hfactor =>
      obtain ⟨⟨node, hnode⟩, -⟩ := define_eq_ok hfactor
      exact (List.getElem?_eq_some_iff.mp hnode).1
  | product hnode => exact (List.getElem?_eq_some_iff.mp hnode).1

theorem SetsWeight.stands (h : SetsWeight t t' n factor strategy) (ht : t.WellFormed)
    (ht' : t'.WellFormed) : Weighing.Stands t' ⟨n.index, factor, strategy⟩ := by
  have hlt := h.lt_size
  have hinherited : t'.inheritedWeight n.index = t.inheritedWeight n.index := by
    refine h.keeps.inheritedWeight_eq ht ht' hlt fun m hm => h.ownWeight_eq fun heq => ?_
    have hnodup := ht.nodup_path hlt
    rw [← t.dropLast_path, ← List.concat_eq_append, List.nodup_concat] at hnodup
    exact hnodup.1 (heq ▸ hm)
  have hnode := List.getElem?_eq_getElem hlt
  cases h with
  | alone hfactor halone ht' =>
      have hnode' := getElem?_modify_self (fun node => { node with weight := some factor.name })
        (grows_defined hfactor hnode)
      subst ht'
      rw [← hinherited] at halone
      exact .alone hnode' (by simp [Node.defines]) halone rfl
  | @product weighted both node inherited hnode hfactor hstrategy hbelow hproduct ht' =>
      have hnode' := getElem?_modify_self
        (fun m => { m with weight := some ("weight_" ++ node.name) })
        (grows_defined hproduct (grows_defined hfactor hnode))
      subst ht'
      exact .product hnode' (by simp [Node.defines]) hstrategy (hinherited.trans hbelow)
        (by simp) rfl

end SetsWeight

/-- The weighings of a tree all stand, and there is one for every node that has a weight. -/
structure Weighed (t : SelectionTree) (log : List Weighing) : Prop where
  stands : ∀ w ∈ log, w.Stands t
  nodup : (log.map Weighing.node).Nodup
  logged : ∀ i, (t.ownWeight i).isSome = true → i ∈ log.map Weighing.node

theorem Grows.weighed (h : t.Grows t') (ht : t.WellFormed) (ht' : t'.WellFormed)
    (hw : t.Weighed log) : t'.Weighed log where
  stands := fun w hmem => h.stands ht ht' (hw.stands w hmem)
  nodup := hw.nodup
  logged := by
    intro i hi
    rw [h.ownWeight i] at hi
    exact hw.logged i hi

theorem SetsWeight.weighed {n : NodeId} {factor : Variable} {strategy : WeightStrategy}
    (h : SetsWeight t t' n factor strategy) (hfree : t.ownWeight n.index = none)
    (ht : t.WellFormed) (ht' : t'.WellFormed)
    (habove : ∀ w ∈ log, n.index ∉ (t.path w.node).dropLast) (hw : t.Weighed log) :
    t'.Weighed (log ++ [⟨n.index, factor, strategy⟩]) := by
  have hother : ∀ w ∈ log, w.node ≠ n.index := by
    intro w hmem heq
    obtain ⟨-, -, -, hsome⟩ := stands_ownWeight (hw.stands w hmem)
    rw [heq, hfree] at hsome
    cases hsome
  constructor
  · intro w hmem
    rcases List.mem_append.mp hmem with hmem | hnew
    · refine h.keeps.stands ht ht' (fun m hm => h.ownWeight_eq fun heq => ?_) (hw.stands w hmem)
      rw [← t.dropLast_path, List.mem_append, List.mem_singleton] at hm
      rcases hm with hm | rfl
      · exact habove w hmem (heq ▸ hm)
      · exact hother w hmem heq
    · rw [List.mem_singleton.mp hnew]
      exact h.stands ht ht'
  · rw [List.map_append, List.map_singleton, ← List.concat_eq_append, List.nodup_concat]
    refine ⟨fun hmem => ?_, hw.nodup⟩
    obtain ⟨w, hmem, heq⟩ := List.mem_map.mp hmem
    exact hother w hmem heq
  · intro i hi
    rw [List.map_append, List.mem_append]
    by_cases heq : i = n.index
    · exact .inr (by simp [heq])
    · rw [h.ownWeight_eq heq] at hi
      exact .inl (hw.logged i hi)

theorem TopDown.mono (h : t'.TopDown log) (hkeeps : t.Keeps t') (ht : t.WellFormed)
    (ht' : t'.WellFormed) (hlt : ∀ w ∈ log, w.node < t.size) : t.TopDown log := by
  refine List.Pairwise.imp_of_mem (fun {w later} hw _ hnot => ?_) h
  rwa [hkeeps.path_eq ht ht' (hlt w hw)] at hnot

theorem Keeps.lt_of_weighings (h : t.Keeps t') (hlt : ∀ w ∈ log, w.node < t.size) :
    ∀ w ∈ log, w.node < t'.size := fun w hw => h.lt_size (hlt w hw)

theorem History.lt_size (h : History t log) : ∀ w ∈ log, w.node < t.size := by
  induction h with
  | new => simp
  | addChild _ hadd ih => exact (grows_addChild hadd).keeps.lt_of_weighings ih
  | define _ hdefine ih => exact (grows_define hdefine).keeps.lt_of_weighings ih
  | setWeight _ hset ih =>
      have hsets := (setWeight_eq_ok hset).2
      intro w hw
      rcases List.mem_append.mp hw with hw | hnew
      · exact hsets.keeps.lt_of_weighings ih w hw
      · rw [List.mem_singleton.mp hnew]
        exact hsets.keeps.lt_size hsets.lt_size
  | setWeightFailed _ hset ih => exact (grows_setWeight hset).keeps.lt_of_weighings ih
  | declareSystematic name _ ih => exact ih
  | @declareColumns t _ namer columns _ ih =>
      exact (t.grows_declareColumns namer columns).keeps.lt_of_weighings ih

theorem History.weighed_of_grows (h : History t log) (hgrows : t.Grows t') (ht' : t'.WellFormed)
    (hbefore : t.TopDown log → t.Weighed log) (htop : t'.TopDown log) : t'.Weighed log := by
  have ht := h.reachable.wellFormed
  have hlog := hbefore (htop.mono hgrows.keeps ht ht' h.lt_size)
  exact hgrows.weighed ht ht' hlog

/-- What a weighing found is unaffected by later ones if nodes are weighed from the root down. -/
theorem History.weighed (h : History t log) (htop : t.TopDown log) : t.Weighed log := by
  have ht := h.reachable.wellFormed
  induction h with
  | new id label =>
      refine ⟨by simp, List.nodup_nil, fun i hi => ?_⟩
      cases i with
      | zero => cases hi
      | succ i => simp [ownWeight, SelectionTree.new] at hi
  | addChild hedits hadd ih =>
      have hbefore := fun htop => ih htop hedits.reachable.wellFormed
      exact hedits.weighed_of_grows (grows_addChild hadd) ht hbefore htop
  | define hedits hdefine ih =>
      have hbefore := fun htop => ih htop hedits.reachable.wellFormed
      exact hedits.weighed_of_grows (grows_define hdefine) ht hbefore htop
  | @setWeight t t' log n factor strategy hedits hset ih =>
      have hpast := hedits.reachable.wellFormed
      obtain ⟨hfree, hsets⟩ := setWeight_eq_ok hset
      obtain ⟨hlog, -, hlater⟩ := List.pairwise_append.mp htop
      have habove : ∀ w ∈ log, n.index ∉ (t.path w.node).dropLast := by
        intro w hw
        rw [← hsets.keeps.path_eq hpast ht (hedits.lt_size w hw)]
        exact hlater w hw _ (List.mem_singleton_self _)
      have hbefore := ih (TopDown.mono hlog hsets.keeps hpast ht hedits.lt_size) hpast
      exact hsets.weighed hfree hpast ht habove hbefore
  | setWeightFailed hedits hset ih =>
      have hbefore := fun htop => ih htop hedits.reachable.wellFormed
      exact hedits.weighed_of_grows (grows_setWeight hset) ht hbefore htop
  | declareSystematic name hedits ih =>
      have hbefore := fun htop => ih htop hedits.reachable.wellFormed
      exact hedits.weighed_of_grows (grows_declareSystematic _ name) ht hbefore htop
  | @declareColumns t log namer columns hedits ih =>
      have hbefore := fun htop => ih htop hedits.reachable.wellFormed
      exact hedits.weighed_of_grows (t.grows_declareColumns namer columns) ht hbefore htop

end SelectionTree
end SelectionPlan
