import SelectionPlan.Tree.Edit
import SelectionPlan.Proofs.Triple

/-!
# Trees that edits can reach

Edits start from a lone root.  In whatever order they come, and whether they succeed or fail, every
node but the root hangs below an older one, and a node's weight is one of its own variables.
-/

namespace SelectionPlan
namespace SelectionTree

/-- The trees that edits make, failed edits included. -/
inductive Reachable : SelectionTree → Prop
  | new (id : Nat) (label : Option String) : Reachable (.new id label)
  | addChild {t t' : SelectionTree} {parent n : NodeId} {name : String} {filter : Variable}
      {label : Option String} : Reachable t → t.addChild parent name filter label = .ok (n, t') →
      Reachable t'
  | define {t t' : SelectionTree} {n : NodeId} {v : Variable} :
      Reachable t → t.define n v = .ok t' → Reachable t'
  | setWeight {t : SelectionTree} (n : NodeId) (factor : Variable) (strategy : WeightStrategy) :
      Reachable t → Reachable (t.setWeight n factor strategy).2
  | declareSystematic {t : SelectionTree} (name : String) :
      Reachable t → Reachable (t.declareSystematic name)
  | declareColumns {t : SelectionTree} (namer : Namer) (columns : List String) :
      Reachable t → Reachable (t.declareColumns namer columns).2

/-! ### Invariants -/

/-- A property that no change of what is there breaks. -/
structure Kept (P : SelectionTree → Prop) : Prop where
  define : ∀ {t t' : SelectionTree} {n : NodeId} {v : Variable}, P t → t.define n v = .ok t' → P t'
  /-- Weights are assigned to nodes at which they have been defined. -/
  assignWeight : ∀ {t t' : SelectionTree} {n : NodeId} {v : Variable}, t.define n v = .ok t' →
    P t' → P (t'.assignWeight n.index v.name)
  addVariant : ∀ {t : SelectionTree} (logical systematic physical : String), P t →
    P (t.addVariant logical systematic physical)
  declareSystematic : ∀ {t : SelectionTree} (name : String), P t → P (t.declareSystematic name)

structure Invariant (P : SelectionTree → Prop) : Prop extends Kept P where
  new : ∀ id label, P (.new id label)
  addChild : ∀ {t t' : SelectionTree} {parent n : NodeId} {name : String} {filter : Variable}
    {label : Option String}, P t → t.addChild parent name filter label = .ok (n, t') → P t'

section Invariant

variable {P : SelectionTree → Prop} {t : SelectionTree}

theorem Kept.setWeight (hP : Kept P) (h : P t) (n : NodeId) (factor : Variable)
    (strategy : WeightStrategy) : P (t.setWeight n factor strategy).2 := by
  simp only [SelectionTree.setWeight]
  split
  · exact h
  · split
    · exact h
    · split
      · exact h
      · rename_i weighted hfactor
        have hweighted := hP.define h hfactor
        split
        · split
          · exact hweighted
          · rename_i both hboth
            exact hP.assignWeight hboth (hP.define hweighted hboth)
        · exact hP.assignWeight hfactor hweighted

theorem Kept.declareParsed (hP : Kept P) (h : P t) (columns : List SchemaColumn) :
    P (t.declareParsed columns).2 := by
  induction columns generalizing t with
  | nil => exact h
  | cons column rest ih =>
      obtain ⟨logical, systematic, physical⟩ := column
      cases systematic with
      | nominal =>
          simp only [SelectionTree.declareParsed]
          split
          · exact h
          · rename_i hdefine
            exact ih (hP.define h hdefine)
      | variation systematic => exact ih (hP.addVariant logical systematic physical h)

theorem Kept.declareColumns (hP : Kept P) (h : P t) (namer : Namer) (columns : List String) :
    P (t.declareColumns namer columns).2 := by
  simp only [SelectionTree.declareColumns]
  split
  · exact h
  · exact hP.declareParsed h _

theorem Reachable.invariant (ht : t.Reachable) (hP : Invariant P) : P t := by
  induction ht with
  | new id label => exact hP.new id label
  | addChild _ hadd ih => exact hP.addChild ih hadd
  | define _ hdefine ih => exact hP.define ih hdefine
  | setWeight n factor strategy _ ih => exact hP.setWeight ih n factor strategy
  | declareSystematic name _ ih => exact hP.declareSystematic name ih
  | declareColumns namer columns _ ih => exact hP.declareColumns ih namer columns

end Invariant

/-! ### Well-formed trees -/

structure WellFormed (t : SelectionTree) : Prop where
  root : ∃ n, t.nodes[0]? = some n ∧ n.attachment = none
  attached : ∀ (i : Nat) (n : Node), 0 < i → t.nodes[i]? = some n →
    ∃ a, n.attachment = some a ∧ a.parent < i
  weight_defined : ∀ (i : Nat) (n : Node) (w : String), t.nodes[i]? = some n →
    n.weight = some w → n.defines w = true

theorem wellFormed_new (id : Nat) (label : Option String) : (new id label).WellFormed where
  root := ⟨_, rfl, rfl⟩
  attached := by
    intro i n hi hn
    cases i with
    | zero => exact absurd hi (Nat.lt_irrefl 0)
    | succ i => simp [new] at hn
  weight_defined := by
    intro i n w hn hw
    cases i with
    | zero =>
        simp only [new, List.getElem?_cons_zero, Option.some.injEq] at hn
        subst hn
        cases hw
    | succ i => simp [new] at hn

theorem WellFormed.congr {t t' : SelectionTree} (h : t.WellFormed) (hn : t'.nodes = t.nodes) :
    t'.WellFormed := by
  refine ⟨?_, ?_, ?_⟩ <;> rw [hn]
  · exact h.root
  · exact h.attached
  · exact h.weight_defined

theorem WellFormed.modify {t : SelectionTree} (h : t.WellFormed) (index : Nat) {f : Node → Node}
    (hplace : ∀ n, (f n).attachment = n.attachment)
    (hweight : ∀ n w, t.nodes[index]? = some n → (f n).weight = some w →
      (f n).defines w = true) : (t.modify index f).WellFormed := by
  have hget (i : Nat) (n : Node) (hn : (t.modify index f).nodes[i]? = some n) :
      ∃ m, t.nodes[i]? = some m ∧ n = if index = i then f m else m := by
    simp only [SelectionTree.modify, List.getElem?_modify] at hn
    obtain ⟨m, hm, hmn⟩ := Option.map_eq_some_iff.mp hn
    exact ⟨m, hm, hmn.symm⟩
  refine ⟨?_, ?_, ?_⟩
  · obtain ⟨n, hn, hroot⟩ := h.root
    refine ⟨if index = 0 then f n else n, ?_, ?_⟩
    · simp [SelectionTree.modify, List.getElem?_modify, hn]
    · split
      · rw [hplace, hroot]
      · exact hroot
  · intro i n hi hn
    obtain ⟨m, hm, rfl⟩ := hget i n hn
    obtain ⟨a, ha, hlt⟩ := h.attached i m hi hm
    refine ⟨a, ?_, hlt⟩
    split
    · rw [hplace, ha]
    · exact ha
  · intro i n w hn hw
    obtain ⟨m, hm, rfl⟩ := hget i n hn
    split at hw
    · rename_i hi
      subst hi
      rw [if_pos rfl]
      exact hweight m w hm hw
    · rename_i hi
      rw [if_neg hi]
      exact h.weight_defined i m w hm hw

theorem node_eq_ok {t : SelectionTree} {n : NodeId} {node : Node} (h : t.node n = .ok node) :
    t.nodes[n.index]? = some node := by
  simp only [SelectionTree.node] at h
  split at h
  · split at h
    · rename_i m hm
      cases h
      exact hm
    · cases h
  · cases h

theorem addChild_eq_ok {t t' : SelectionTree} {parent n : NodeId} {name : String}
    {filter : Variable} {label : Option String}
    (h : t.addChild parent name filter label = .ok (n, t')) :
    parent.index < t.size ∧ t' = { t with nodes := t.nodes ++
      [{ name, attachment := some ⟨parent.index, filter⟩, label }] } := by
  simp only [SelectionTree.addChild] at h
  split at h
  · cases h
  · split at h
    · cases h
    · simp only [bind_eq_ok] at h
      obtain ⟨⟨⟩, -, m, hm, h⟩ := h
      split at h
      · cases h
      · cases h
        exact ⟨(List.getElem?_eq_some_iff.mp (node_eq_ok hm)).1, rfl⟩

theorem WellFormed.append {t : SelectionTree} (h : t.WellFormed) {node : Node} {a : Attachment}
    (ha : node.attachment = some a) (hparent : a.parent < t.size) (hweight : node.weight = none) :
    ({ t with nodes := t.nodes ++ [node] } : SelectionTree).WellFormed := by
  have hlast {i : Nat} {m : Node} (hm : (t.nodes ++ [node])[i]? = some m) :
      t.nodes[i]? = some m ∨ (i = t.size ∧ m = node) := by
    rw [List.getElem?_append] at hm
    split at hm
    · exact .inl hm
    · obtain ⟨hi, rfl⟩ := List.getElem?_eq_some_iff.mp hm
      simp only [List.length_singleton] at hi
      exact .inr ⟨by simp only [SelectionTree.size]; omega, by simp⟩
  refine ⟨?_, ?_, ?_⟩
  · obtain ⟨m, hm, hroot⟩ := h.root
    refine ⟨m, ?_, hroot⟩
    rw [List.getElem?_append_left (List.getElem?_eq_some_iff.mp hm).1, hm]
  · intro i m hi hm
    rcases hlast hm with hm | ⟨rfl, rfl⟩
    · exact h.attached i m hi hm
    · exact ⟨a, ha, hparent⟩
  · intro i m w hm hw
    rcases hlast hm with hm | ⟨rfl, rfl⟩
    · exact h.weight_defined i m w hm hw
    · rw [hweight] at hw
      cases hw

theorem WellFormed.addChild {t t' : SelectionTree} (h : t.WellFormed) {parent n : NodeId}
    {name : String} {filter : Variable} {label : Option String}
    (hadd : t.addChild parent name filter label = .ok (n, t')) : t'.WellFormed := by
  obtain ⟨hparent, rfl⟩ := addChild_eq_ok hadd
  exact h.append rfl hparent rfl

theorem define_eq_ok {t t' : SelectionTree} {n : NodeId} {v : Variable}
    (h : t.define n v = .ok t') : (∃ node, t.nodes[n.index]? = some node) ∧
      t' = t.modify n.index fun node => { node with ownVariables := node.ownVariables ++ [v] } := by
  simp only [SelectionTree.define, bind_eq_ok] at h
  obtain ⟨⟨⟩, -, m, hm, h⟩ := h
  split at h
  · cases h
  · cases h
    exact ⟨⟨m, node_eq_ok hm⟩, rfl⟩

private theorem defines_append {n : Node} {v : Variable} {w : String} (h : n.defines w = true) :
    ({ n with ownVariables := n.ownVariables ++ [v] } : Node).defines w = true := by
  simp only [Node.defines, List.any_append, Bool.or_eq_true] at h ⊢
  exact .inl h

theorem WellFormed.define {t t' : SelectionTree} (h : t.WellFormed) {n : NodeId} {v : Variable}
    (hdef : t.define n v = .ok t') : t'.WellFormed := by
  obtain ⟨-, rfl⟩ := define_eq_ok hdef
  refine h.modify _ (fun _ => rfl) ?_
  intro m w hm hw
  exact defines_append (h.weight_defined _ m w hm hw)

theorem WellFormed.assignWeight {t t' : SelectionTree} (h : t'.WellFormed) {n : NodeId}
    {v : Variable} (hdef : t.define n v = .ok t') :
    (t'.assignWeight n.index v.name).WellFormed := by
  obtain ⟨-, rfl⟩ := define_eq_ok hdef
  refine h.modify _ (fun _ => rfl) ?_
  intro m w hm hw
  cases hw
  simp only [SelectionTree.modify, List.getElem?_modify, if_true] at hm
  obtain ⟨k, -, rfl⟩ := Option.map_eq_some_iff.mp hm
  simp [Node.defines]

theorem map_name_modify_vary (vs : List Variable) (slot : Nat) (systematic : String)
    (spec : Specification) :
    (vs.modify slot fun v => v.vary systematic spec).map Variable.name = vs.map Variable.name := by
  induction vs generalizing slot with
  | nil => simp
  | cons v vs ih =>
      cases slot with
      | zero => rfl
      | succ slot => simp [ih]

theorem any_modify_vary {vs : List Variable} (slot : Nat) (systematic : String)
    (spec : Specification) (w : String) :
    (vs.modify slot fun v => v.vary systematic spec).any (fun v => v.name == w) =
      vs.any fun v => v.name == w := by
  have hnames := congrArg (List.any · (· == w)) (map_name_modify_vary vs slot systematic spec)
  rwa [List.any_map, List.any_map] at hnames

theorem WellFormed.addVariant {t : SelectionTree} (h : t.WellFormed)
    (logical systematic physical : String) :
    (t.addVariant logical systematic physical).WellFormed := by
  simp only [SelectionTree.addVariant]
  refine WellFormed.congr (t := t.modify 0 _) ?_ rfl
  refine h.modify _ (fun _ => rfl) ?_
  intro m w hm hw
  have hdef := h.weight_defined _ m w hm hw
  simp only [Node.defines] at hdef ⊢
  split
  · rw [any_modify_vary]
    exact hdef
  · simp [hdef]

theorem invariant_wellFormed : Invariant WellFormed where
  new := wellFormed_new
  addChild := fun h hadd => h.addChild hadd
  define := fun h hdefine => h.define hdefine
  assignWeight := fun hdefine h => h.assignWeight hdefine
  addVariant := fun logical systematic physical h => h.addVariant logical systematic physical
  declareSystematic := fun _ h => h.congr rfl

theorem Reachable.wellFormed {t : SelectionTree} (h : t.Reachable) : t.WellFormed :=
  h.invariant invariant_wellFormed

end SelectionTree
end SelectionPlan
