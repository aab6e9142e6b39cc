import SelectionPlan.Proofs.Scope.Tables
import Mathlib.Data.Prod.Lex

/-!
# What names mean

After a node, a name means the one variable of this name on the path to the node.  Within a variable
it means the same one, if that belongs to a strict ancestor or to an earlier slot.  A tree has no
tables exactly if a path has two variables of one name, or a name that is read means nothing.
-/

namespace SelectionPlan

namespace SelectionTree

def nameAt? (t : SelectionTree) (c : ColumnRef) : Option String :=
  (t.variableAt? c).map Variable.name

/-- Some path from the root has two variables of one name. -/
def RepeatsName (t : SelectionTree) : Prop :=
  ∃ node b c name, b.node ∈ t.path node ∧ c.node ∈ t.path node ∧ b ≠ c ∧
    t.nameAt? b = some name ∧ t.nameAt? c = some name

/-- Some input of a variable is the name of no variable that precedes it, or some input of a filter
that of no variable on the way to its node. -/
def MissesInput (t : SelectionTree) : Prop :=
  (∃ a v, t.variableAt? a = some v ∧ ∃ spec ∈ v.specs, ∃ i ∈ spec.inputs,
    ∀ b, t.Precedes b a → t.nameAt? b ≠ some i) ∨
  ∃ node v, t.nodes[node]?.bind Node.filter = some v ∧ ∃ spec ∈ v.specs, ∃ i ∈ spec.inputs,
    ∀ b, b.node ∈ t.path node → t.nameAt? b ≠ some i

variable {t : SelectionTree} {name : String}

theorem nameAt?_eq_some {c : ColumnRef} :
    t.nameAt? c = some name ↔ ∃ v, (t.own c.node)[c.slot]? = some v ∧ v.name = name :=
  Option.map_eq_some_iff

theorem lt_size_of_nameAt? {c : ColumnRef} (h : t.nameAt? c = some name) : c.node < t.size := by
  obtain ⟨v, hv, -⟩ := nameAt?_eq_some.mp h
  exact lt_size_of_own hv

theorem lt_size_of_mem_path {i node : Nat} (hi : i ∈ t.path node) (hlt : i < t.size) :
    node < t.size := by
  by_contra hge
  have hparent : t.parent? node = none := by
    rw [parent?, List.getElem?_eq_none (Nat.le_of_not_lt hge), Option.bind_none]
  have hpath : t.path node = [node] := by
    cases node with
    | zero => rfl
    | succ k => simp only [path, pathWithin, hparent]
  rw [hpath, List.mem_singleton] at hi
  exact hge (hi ▸ hlt)

theorem mem_flatMap_own {nodes : List Nat} : name ∈ (nodes.flatMap t.own).map Variable.name ↔
    ∃ b : ColumnRef, b.node ∈ nodes ∧ t.nameAt? b = some name := by
  simp only [List.mem_map, List.mem_flatMap, nameAt?_eq_some]
  constructor
  · rintro ⟨v, ⟨node, hnode, hv⟩, hname⟩
    obtain ⟨slot, hslot⟩ := List.mem_iff_getElem?.mp hv
    exact ⟨⟨node, slot⟩, hnode, v, hslot, hname⟩
  · rintro ⟨b, hnode, v, hv, hname⟩
    exact ⟨v, ⟨b.node, hnode, List.mem_of_getElem? hv⟩, hname⟩

theorem mem_visible_iff {node : Nat} : name ∈ (t.visible node).map Variable.name ↔
    ∃ b : ColumnRef, b.node ∈ t.path node ∧ t.nameAt? b = some name := by
  rw [visible, List.map_reverse, List.mem_reverse]
  exact mem_flatMap_own

theorem sees_iff {node slot : Nat} : t.Sees node slot name ↔
    ∃ b : ColumnRef, t.Precedes b ⟨node, slot⟩ ∧ t.nameAt? b = some name := by
  rw [Sees, List.map_append, List.mem_append, inherited, mem_flatMap_own]
  have hown : name ∈ ((t.own node).take slot).map Variable.name ↔
      ∃ b : ColumnRef, (b.node = node ∧ b.slot < slot) ∧ t.nameAt? b = some name := by
    simp only [List.mem_map, List.mem_take_iff_getElem, nameAt?_eq_some]
    constructor
    · rintro ⟨v, ⟨k, hk, rfl⟩, hname⟩
      have hlt := lt_min_iff.mp hk
      exact ⟨⟨node, k⟩, ⟨rfl, hlt.1⟩, _, List.getElem?_eq_getElem hlt.2, hname⟩
    · rintro ⟨b, ⟨rfl, hslot⟩, v, hv, hname⟩
      obtain ⟨hlt, rfl⟩ := List.getElem?_eq_some_iff.mp hv
      exact ⟨_, ⟨b.slot, lt_min hslot hlt, rfl⟩, hname⟩
  simp only [hown, Precedes, or_and_right, exists_or]

theorem WellFormed.node_mem_of_precedes (ht : t.WellFormed) {b c : ColumnRef}
    (hc : c.node < t.size) (h : t.Precedes b c) : b.node ∈ t.path c.node := by
  rcases h with hnode | ⟨hnode, -⟩
  · exact (t.path c.node).dropLast_subset hnode
  · exact hnode.symm ▸ ht.mem_path_self hc

theorem WellFormed.not_mem_dropLast_path (ht : t.WellFormed) {node : Nat} (hnode : node < t.size) :
    node ∉ (t.path node).dropLast := by
  have hnodup := ht.nodup_path hnode
  rw [← t.dropLast_path, ← List.concat_eq_append, List.nodup_concat] at hnodup
  exact hnodup.1

theorem WellFormed.precedes_irrefl (ht : t.WellFormed) {c : ColumnRef} (hc : c.node < t.size) :
    ¬ t.Precedes c c := by
  rintro (hnode | ⟨-, hslot⟩)
  · exact ht.not_mem_dropLast_path hc hnode
  · exact Nat.lt_irrefl _ hslot

theorem WellFormed.idxOf_lt (ht : t.WellFormed) {node i : Nat} (hnode : node < t.size)
    (hi : i ∈ (t.path node).dropLast) : t.preorder.idxOf i < t.preorder.idxOf node := by
  induction node, hnode using ht.induction with
  | root => simp [path_root] at hi
  | child node parent hparent ih =>
      have hlt := (ht.parent_lt hparent).2
      obtain ⟨before, after, hsplit⟩ := List.append_of_mem (ht.mem_preorder hlt)
      have hmem := ht.parent_mem_preorder hsplit hparent
      have hfresh : node ∉ before := by
        have hnodup := ht.nodup_preorder
        rw [hsplit, List.nodup_middle, List.nodup_cons] at hnodup
        exact fun hmem => hnodup.1 (List.mem_append_left _ hmem)
      have hparentlt : t.preorder.idxOf parent < t.preorder.idxOf node := by
        rw [hsplit, List.idxOf_append_of_mem hmem, List.idxOf_append_of_notMem hfresh,
          List.idxOf_cons_self, Nat.add_zero]
        exact List.idxOf_lt_length_of_mem hmem
      rw [ht.path_child hparent, List.dropLast_concat, ← t.dropLast_path, List.mem_append,
        List.mem_singleton] at hi
      rcases hi with hi | rfl
      · exact Nat.lt_trans (ih hi) hparentlt
      · exact hparentlt

theorem WellFormed.repeats_or_misses (ht : t.WellFormed) {e : BuildError} (h : t.Misread e) :
    t.RepeatsName ∨ t.MissesInput := by
  cases h with
  | @input node slot v i hv hi hunseen =>
      obtain ⟨spec, hspec, hi⟩ := Variable.mem_allInputs_iff.mp hi
      refine .inr (.inl ⟨⟨node, slot⟩, v, hv, spec, hspec, i, hi, fun b hb hname => ?_⟩)
      exact hunseen (sees_iff.mpr ⟨b, hb, hname⟩)
  | @filterInput node n v i hn hv hi hunseen =>
      obtain ⟨spec, hspec, hi⟩ := Variable.mem_allInputs_iff.mp hi
      refine .inr (.inr ⟨node, v, by simp [hn, hv], spec, hspec, i, hi, fun b hb hname => ?_⟩)
      exact hunseen (mem_visible_iff.mpr ⟨b, hb, hname⟩)
  | @duplicate node slot v hv hseen =>
      obtain ⟨b, hb, hname⟩ := sees_iff.mp hseen
      have hlt := lt_size_of_own hv
      refine .inl ⟨node, b, ⟨node, slot⟩, v.name, ht.node_mem_of_precedes hlt hb,
        ht.mem_path_self hlt, ?_, hname, nameAt?_eq_some.mpr ⟨v, hv, rfl⟩⟩
      rintro rfl
      exact ht.precedes_irrefl hlt hb

end SelectionTree

namespace NameTables

variable {node slot : Nat} {vs : List Variable}

theorem exists_ownNames_append (node slot : Nat) (vs : List Variable) :
    ∃ newer, ownNames node vs = newer ++ ownNames node (vs.take slot) ∧
      ∀ entry ∈ newer, entry.2.node = node ∧ slot ≤ entry.2.slot := by
  have hsplit : vs.zipIdx =
      (vs.take slot).zipIdx ++ (vs.drop slot).zipIdx (vs.take slot).length := by
    conv_lhs => rw [← List.take_append_drop slot vs, List.zipIdx_append, Nat.zero_add]
  refine ⟨(((vs.drop slot).zipIdx (vs.take slot).length).map fun entry =>
    (entry.1.name, (⟨node, entry.2⟩ : ColumnRef))).reverse, ?_, ?_⟩
  · rw [ownNames, hsplit, List.map_append, List.reverse_append]
    rfl
  · intro entry hentry
    obtain ⟨⟨v, k⟩, hmem, rfl⟩ := List.mem_map.mp (List.mem_reverse.mp hentry)
    obtain ⟨hle, hget⟩ := List.mem_zipIdx_iff_le_and_getElem?_sub.mp hmem
    have hlt := (List.getElem?_eq_some_iff.mp hget).1
    rw [List.length_drop] at hlt
    rw [List.length_take] at hle hlt
    exact ⟨rfl, show slot ≤ k by omega⟩

end NameTables

namespace Scope

variable {scope above : Scope} {ref : ColumnRef} {vs : List Variable}

theorem names_before (hnames : scope.names = NameTables.ownNames ref.node vs ++ above.names)
    (habove : ∀ c ∈ above, c.ref.node ≠ ref.node) : (scope.before ref).names =
      NameTables.ownNames ref.node (vs.take ref.slot) ++ above.names := by
  obtain ⟨newer, hnewer, hlater⟩ := NameTables.exists_ownNames_append ref.node ref.slot vs
  let later (entry : String × ColumnRef) : Bool :=
    entry.2.node == ref.node && decide (ref.slot ≤ entry.2.slot)
  have hbefore : (scope.before ref).names = scope.names.dropWhile later := by
    rw [names, before, names, List.dropWhile_map]
    rfl
  rw [hbefore, hnames, hnewer, List.append_assoc, List.dropWhile_append_of_pos]
  · have hrest : ∀ entry ∈ NameTables.ownNames ref.node (vs.take ref.slot) ++ above.names,
        later entry = false := by
      rintro ⟨name, c⟩ hentry
      rcases List.mem_append.mp hentry with hown | habove'
      · obtain ⟨-, hslot⟩ := NameTables.mem_ownNames.mp hown
        obtain ⟨v, hv, -⟩ := Option.map_eq_some_iff.mp hslot
        have hlt := (List.getElem?_eq_some_iff.mp hv).1
        rw [List.length_take] at hlt
        have : ¬ ref.slot ≤ c.slot := by omega
        simp [later, this]
      · obtain ⟨d, hd, heq⟩ := List.mem_map.mp habove'
        cases heq
        simp [later, habove d hd]
    cases hrest' : NameTables.ownNames ref.node (vs.take ref.slot) ++ above.names with
    | nil => rfl
    | cons entry rest =>
        rw [List.dropWhile_cons, hrest entry (by simp [hrest'])]
        rfl
  · intro entry hentry
    obtain ⟨hnode, hslot⟩ := hlater entry hentry
    simp [later, hnode, hslot]

end Scope

theorem Place.Extends.names_eq {t : SelectionTree} {above : Scope} {chain : List String}
    {node : Nat} {p : Place} (h : p.Extends t above chain node) :
    p.scope.names = NameTables.ownNames node (t.own node) ++ above.names := by
  obtain ⟨n, hn, -, -, -, hdeclared⟩ := h.declaration
  obtain ⟨mine, hmine⟩ := h.suffix
  have hown : t.own node = n.ownVariables := by simp [SelectionTree.own, hn]
  rw [← hmine, List.map_append, List.append_left_inj] at hdeclared
  have hslots (later earlier : Scope) (hsplit : mine = later ++ earlier) :
      earlier.names = NameTables.ownNames node ((t.own node).take earlier.length) := by
    induction earlier generalizing later with
    | nil => rfl
    | cons c earlier ih =>
        have hsuffix : c :: (earlier ++ above) <:+ p.scope :=
          ⟨later, by rw [← hmine, hsplit, List.append_assoc, List.cons_append]⟩
        rcases h.own_column c _ hsuffix with hc | ⟨hnode, -, hlength⟩
        · have hle := hc.length_le
          rw [List.length_cons, List.length_append] at hle
          omega
        · have hslot : c.ref.slot = earlier.length := by
            rw [List.length_append] at hlength
            omega
          have hv : (t.own node)[earlier.length]? = some c.declared := by
            have hreverse := congrArg List.reverse hdeclared
            rw [List.reverse_reverse, hsplit, List.map_append, List.map_cons, List.reverse_append,
              List.reverse_cons, List.append_assoc, List.singleton_append] at hreverse
            rw [hown, ← hreverse, List.getElem?_append_right (by simp)]
            simp
          rw [List.length_cons, NameTables.ownNames_take_succ hv,
            ← ih (later ++ [c]) (by rw [hsplit, List.append_assoc, List.singleton_append]),
            ← hslot, ← hnode]
          rfl
  have hlength : mine.length = (t.own node).length := by
    simpa [hown] using congrArg List.length hdeclared
  rw [← hmine, Scope.names, List.map_append]
  have hall := hslots [] mine rfl
  rw [hlength, List.take_length] at hall
  rw [← hall]
  rfl

def ScopeIndex.scopeAbove (index : ScopeIndex) (t : SelectionTree) (node : Nat) : Scope :=
  (((t.parent? node).bind index.place?).map Place.scope).getD []

namespace ScopeIndex.Lawful

variable {t : SelectionTree} {index : ScopeIndex} (h : Lawful t index)
include h

theorem not_repeats : ¬ t.RepeatsName := by
  rintro ⟨node, b, c, name, hb, hc, hne, hbname, hcname⟩
  have hlt := SelectionTree.lt_size_of_mem_path hb (SelectionTree.lt_size_of_nameAt? hbname)
  obtain ⟨p, hp⟩ := h.exists_place hlt
  obtain ⟨d, hd, rfl⟩ := (h.lookup_scope hp).mpr ⟨hb, hbname⟩
  obtain ⟨d', hd', rfl⟩ := (h.lookup_scope hp).mpr ⟨hc, hcname⟩
  rw [hd, Option.some.injEq] at hd'
  exact hne (congrArg Column.ref hd')

theorem not_misses : ¬ t.MissesInput := by
  rintro (⟨a, v, hv, spec, hspec, i, hi, hmiss⟩ | ⟨node, v, hv, spec, hspec, i, hi, hmiss⟩)
  · obtain ⟨b, ⟨hb, hname⟩, -⟩ := h.existsUnique_input hv hspec hi
    exact hmiss b hb hname
  · obtain ⟨b, ⟨hb, hname⟩, -⟩ := h.existsUnique_filterInput hv hspec hi
    exact hmiss b hb hname

theorem extends_above {node : Nat} {p : Place} (hp : index.place? node = some p) :
    ∃ chain, p.Extends t (index.scopeAbove t node) chain node := by
  rcases Nat.eq_zero_or_pos node with rfl | hpos
  · obtain ⟨q, hq, hext⟩ := h.root
    rw [hp, Option.some.injEq] at hq
    exact ⟨[], by rwa [scopeAbove, h.wellFormed.parent_root, hq]⟩
  · obtain ⟨parent, hparent⟩ := h.wellFormed.exists_parent hpos (h.place_lt hp).2
    obtain ⟨q, home, hq, hhome, hext⟩ := h.child node parent hparent
    rw [hp, Option.some.injEq] at hq
    exact ⟨home.chain, by rwa [scopeAbove, hparent, Option.bind_some, hhome, hq]⟩

theorem mem_names {node : Nat} {p : Place} (hp : index.place? node = some p) {name : String}
    {b : ColumnRef} :
    (name, b) ∈ p.scope.names ↔ b.node ∈ t.path node ∧ t.nameAt? b = some name := by
  rw [SelectionTree.nameAt?, ← h.lookup_scope hp, Scope.names, List.mem_map]
  refine exists_congr fun d => ?_
  rw [(h.resolved hp).lookup_eq_some, Prod.mk.injEq, and_assoc]

theorem mem_above_names {node : Nat} (hnode : node < t.size) {name : String} {b : ColumnRef} :
    (name, b) ∈ (index.scopeAbove t node).names ↔
      b.node ∈ (t.path node).dropLast ∧ t.nameAt? b = some name := by
  rcases Nat.eq_zero_or_pos node with rfl | hpos
  · simp [scopeAbove, h.wellFormed.parent_root, Scope.names, SelectionTree.path_root]
  · obtain ⟨parent, hparent⟩ := h.wellFormed.exists_parent hpos hnode
    obtain ⟨q, hq⟩ := h.exists_place (h.wellFormed.parent_lt_size hparent)
    rw [scopeAbove, hparent, Option.bind_some, hq, h.wellFormed.path_child hparent,
      List.dropLast_concat]
    exact h.mem_names hq

theorem node_ne_of_mem_above {node : Nat} (hnode : node < t.size) {c : Column}
    (hc : c ∈ index.scopeAbove t node) : c.ref.node ≠ node := by
  rintro rfl
  have hmem := (h.mem_above_names hnode).mp (Scope.exists_names_of_mem hc)
  exact h.wellFormed.not_mem_dropLast_path hnode hmem.1

theorem names_eq {node : Nat} {p : Place} (hp : index.place? node = some p) :
    p.scope.names = NameTables.ownNames node (t.own node) ++ (index.scopeAbove t node).names := by
  obtain ⟨chain, hext⟩ := h.extends_above hp
  exact hext.names_eq

theorem names_before {c : ColumnRef} {p : Place} (hp : index.place? c.node = some p) :
    (p.scope.before c).names =
      NameTables.ownNames c.node ((t.own c.node).take c.slot) ++
        (index.scopeAbove t c.node).names :=
  Scope.names_before (h.names_eq hp) fun _ => h.node_ne_of_mem_above (h.place_lt hp).2

theorem mem_names_before {c : ColumnRef} {p : Place} (hp : index.place? c.node = some p)
    {name : String} {b : ColumnRef} :
    (name, b) ∈ (p.scope.before c).names ↔ t.Precedes b c ∧ t.nameAt? b = some name := by
  rw [h.names_before hp, List.mem_append, h.mem_above_names (h.place_lt hp).2,
    NameTables.mem_ownNames, SelectionTree.Precedes, or_and_right, or_comm]
  refine or_congr_right ?_
  rw [and_assoc]
  refine and_congr_right fun hnode => ?_
  rw [List.getElem?_take, SelectionTree.nameAt?, SelectionTree.variableAt?, hnode]
  split <;> simp [*]

theorem lookup_eq_some_iff_mem {node : Nat} {p : Place} (hp : index.place? node = some p)
    {scope : Scope} (hscope : scope <:+ p.scope) {name : String} {b : ColumnRef} :
    lookupKey name scope.names = some b ↔ (name, b) ∈ scope.names := by
  have hnodup := ((h.resolved hp).suffix hscope).nodup_names
  rw [List.map_map] at hnodup
  refine ⟨mem_of_lookupKey, lookupKey_of_mem ?_⟩
  rwa [Scope.names, List.map_map]

end ScopeIndex.Lawful

namespace NameTables

variable {tables : NameTables} {t : SelectionTree} {index : ScopeIndex}

structure Resolves (tables : NameTables) (t : SelectionTree) : Prop where
  /-- After a node a name means the one variable of this name on the path to the node. -/
  after : ∀ node name b, tables.lookup (.after node) name = some b ↔
    b.node ∈ t.path node ∧ t.nameAt? b = some name
  /-- Within a variable it means the same one if that is older, and nothing otherwise. -/
  within : ∀ c name b, tables.lookup (.within c) name = some b ↔
    tables.lookup (.after c.node) name = some b ∧ t.Precedes b c
  /-- No variable of a sibling or a descendant is seen, and none of a later slot. -/
  unseen : ∀ c name b, tables.lookup (.within c) name = some b →
    (t.parent? b.node = t.parent? c.node → b.node = c.node) ∧
    (c.node ∈ t.path b.node → b.node = c.node) ∧ (b.node = c.node → b.slot < c.slot)
  position : ∀ node, tables.position? node =
    if node < t.size then some (t.preorder.idxOf node) else none
  /-- What is read comes earlier in preorder, or at the same node in an earlier slot. -/
  decreasing : ∀ c name b, tables.lookup (.within c) name = some b →
    ∃ i j, tables.position? b.node = some i ∧ tables.position? c.node = some j ∧
      toLex (i, b.slot) < toLex (j, c.slot)

variable (h : tables.Tabulates t index.places)
include h

theorem Tabulates.lookup_after {node : Nat} {p : Place} (hp : index.place? node = some p)
    (name : String) : tables.lookup (.after node) name = (p.scope.lookup name).map Column.ref := by
  have hplace : index.places.find? (fun p => p.node = node) = some p := hp
  rw [lookup, visibleAt, h.visible_eq, hplace, Option.map_some, Option.getD_some,
    Scope.lookupKey_names]

variable (hindex : ScopeIndex.Lawful t index)
include hindex

theorem Tabulates.lookup_within {c : ColumnRef} {p : Place} (hp : index.place? c.node = some p)
    (name : String) :
    tables.lookup (.within c) name = ((p.scope.before c).lookup name).map Column.ref := by
  obtain ⟨n, hn, -, hparent⟩ := hindex.wellFormed.node_eq (hindex.place_lt hp).2
  have hown : t.own c.node = n.ownVariables := by simp [SelectionTree.own, hn]
  rw [NameTables.lookup_within (h.tree_eq ▸ hn), h.visibleAt_eq, ← Scope.lookupKey_names,
    hindex.names_before hp, hown, hparent]
  rfl

theorem Tabulates.lookup_outside {site : Site} (hsite : t.size ≤ site.node) (name : String) :
    tables.lookup site name = none := by
  cases site with
  | within c =>
      have hn : tables.tree.nodes[c.node]? = none := h.tree_eq ▸ List.getElem?_eq_none hsite
      rw [lookup, hn, Option.bind_none]
  | after node =>
      have hnone : (index.places.find? fun p => p.node = node) = none := by
        rw [List.find?_eq_none]
        intro p hp heq
        have hplace := hindex.place_of_mem p hp
        have hlt := (hindex.place_lt hplace).2
        rw [of_decide_eq_true heq] at hlt
        exact absurd hlt (Nat.not_lt_of_le hsite)
      rw [lookup, visibleAt, h.visible_eq, hnone]
      rfl

theorem Tabulates.after_iff {node : Nat} {name : String} {b : ColumnRef} :
    tables.lookup (.after node) name = some b ↔ b.node ∈ t.path node ∧ t.nameAt? b = some name := by
  rcases Nat.lt_or_ge node t.size with hlt | hge
  · obtain ⟨p, hp⟩ := hindex.exists_place hlt
    rw [h.lookup_after hp, ← Scope.lookupKey_names,
      hindex.lookup_eq_some_iff_mem hp (List.suffix_refl _), hindex.mem_names hp]
  · rw [h.lookup_outside hindex (show t.size ≤ (Site.after node).node from hge)]
    simp only [reduceCtorEq, false_iff, not_and]
    intro hmem hname
    have hlt := SelectionTree.lt_size_of_mem_path hmem (SelectionTree.lt_size_of_nameAt? hname)
    exact absurd hlt (Nat.not_lt_of_le hge)

theorem Tabulates.within_iff {c : ColumnRef} {name : String} {b : ColumnRef} :
    tables.lookup (.within c) name = some b ↔ t.Precedes b c ∧ t.nameAt? b = some name := by
  rcases Nat.lt_or_ge c.node t.size with hlt | hge
  · obtain ⟨p, hp⟩ := hindex.exists_place hlt
    rw [h.lookup_within hindex hp, ← Scope.lookupKey_names,
      hindex.lookup_eq_some_iff_mem hp (show p.scope.before c <:+ p.scope from
        List.dropWhile_suffix _),
      hindex.mem_names_before hp]
  · rw [h.lookup_outside hindex (show t.size ≤ (Site.within c).node from hge)]
    simp only [reduceCtorEq, false_iff, not_and]
    intro hb hname
    have hbnode := SelectionTree.lt_size_of_nameAt? hname
    rcases hb with hmem | ⟨hnode, -⟩
    · have hlt := SelectionTree.lt_size_of_mem_path ((t.path c.node).dropLast_subset hmem) hbnode
      exact absurd hlt (Nat.not_lt_of_le hge)
    · exact absurd (hnode ▸ hbnode) (Nat.not_lt_of_le hge)

theorem Tabulates.position_eq_idxOf (node : Nat) : tables.position? node =
    if node < t.size then some (t.preorder.idxOf node) else none := by
  have hmem : node ∈ t.preorder ↔ node < t.size :=
    ⟨hindex.wellFormed.lt_of_mem_preorder, hindex.wellFormed.mem_preorder⟩
  have hplaces : index.places.findIdx? (fun p => p.node = node) =
      t.preorder.findIdx? fun i => i == node := by
    rw [← hindex.places_node, List.findIdx?_map]
    rfl
  have hlt : t.preorder.findIdx (fun i => i == node) < t.preorder.length ↔ node < t.size := by
    rw [← hmem, ← List.idxOf_lt_length_iff]
    rfl
  rw [h.position_eq, hplaces, List.findIdx?_eq_guard_findIdx_lt, Option.guard]
  simp only [decide_eq_true_eq, hlt, List.idxOf]

/-- What is seen from a variable is on the path to it, and it is not the variable itself. -/
theorem Tabulates.resolves : tables.Resolves t := by
  have ht := hindex.wellFormed
  have hseen {c b : ColumnRef} {name : String} (hb : tables.lookup (.within c) name = some b) :
      c.node < t.size ∧ t.Precedes b c ∧ t.nameAt? b = some name := by
    refine ⟨?_, (h.within_iff hindex).mp hb⟩
    by_contra hge
    rw [h.lookup_outside hindex (show t.size ≤ (Site.within c).node from Nat.le_of_not_lt hge)]
      at hb
    cases hb
  constructor
  case after => exact fun node name b => h.after_iff hindex
  case position => exact h.position_eq_idxOf hindex
  case within =>
    intro c name b
    refine ⟨fun hb => ?_, fun ⟨hafter, hb⟩ => ?_⟩
    · obtain ⟨hc, hprecedes, hname⟩ := hseen hb
      exact ⟨(h.after_iff hindex).mpr ⟨ht.node_mem_of_precedes hc hprecedes, hname⟩, hprecedes⟩
    · exact (h.within_iff hindex).mpr ⟨hb, ((h.after_iff hindex).mp hafter).2⟩
  case unseen =>
    intro c name b hb
    obtain ⟨hc, hprecedes, hname⟩ := hseen hb
    have hmem := ht.node_mem_of_precedes hc hprecedes
    have hbnode := SelectionTree.lt_size_of_nameAt? hname
    refine ⟨fun hsiblings => ?_, fun hdescends => ?_, fun hsame => ?_⟩
    · cases hparent : t.parent? c.node with
      | some parent =>
          exact ht.eq_of_siblings hc hmem (ht.mem_path_self hc) (hsiblings.trans hparent) hparent
      | none =>
          have hroot {i : Nat} (hi : i < t.size) (hnone : t.parent? i = none) : i = 0 := by
            by_contra hne
            obtain ⟨parent, hsome⟩ := ht.exists_parent (Nat.pos_of_ne_zero hne) hi
            rw [hnone] at hsome
            cases hsome
          rw [hroot hbnode (hsiblings.trans hparent), hroot hc hparent]
    · exact Nat.le_antisymm (ht.le_of_mem_path hc hmem) (ht.le_of_mem_path hbnode hdescends)
    · rcases hprecedes with hstrict | ⟨-, hslot⟩
      · exact absurd (hsame ▸ hstrict) (ht.not_mem_dropLast_path hc)
      · exact hslot
  case decreasing =>
    intro c name b hb
    obtain ⟨hc, hprecedes, hname⟩ := hseen hb
    refine ⟨t.preorder.idxOf b.node, t.preorder.idxOf c.node, ?_, ?_, ?_⟩
    · rw [h.position_eq_idxOf hindex, if_pos (SelectionTree.lt_size_of_nameAt? hname)]
    · rw [h.position_eq_idxOf hindex, if_pos hc]
    · rw [Prod.Lex.toLex_lt_toLex]
      rcases hprecedes with hstrict | ⟨hsame, hslot⟩
      · exact .inl (ht.idxOf_lt hc hstrict)
      · exact .inr ⟨by rw [hsame], hslot⟩

end NameTables

namespace NameTables

/-- Either both ways to resolve the names of a tree fail with the same complaint, or the tables hold
what the places of the index do. -/
theorem build_cases {t : SelectionTree} (ht : t.WellFormed) :
    (∃ e, build t = .error e ∧ ScopeIndex.build t = .error e ∧ t.Misread e) ∨
    ∃ tables index, build t = .ok tables ∧ ScopeIndex.build t = .ok index ∧
      tables.Tabulates t index.places ∧ ScopeIndex.Lawful t index := by
  have hmeets := ScopeIndex.build_meets ht
  have halike := build_alike ht
  generalize hbuild : build t = r at halike
  generalize hindex : ScopeIndex.build t = r' at halike
  cases halike with
  | error heq =>
      subst heq
      exact .inl ⟨_, rfl, rfl, hmeets.of_eq_error hindex⟩
  | ok h => exact .inr ⟨_, _, rfl, rfl, h, ScopeIndex.lawful_of_build ht hindex⟩

def Answers (tables : NameTables) (index : ScopeIndex) : Prop :=
  ∀ node p, index.place? node = some p → ∀ name,
    tables.lookup (.after node) name = (p.scope.lookup name).map Column.ref ∧
    ∀ slot, tables.lookup (.within ⟨node, slot⟩) name =
      ((p.scope.before ⟨node, slot⟩).lookup name).map Column.ref

/-- A tree has tables exactly if it repeats no name on a path and misses no input, and in the tables
names mean what they should.  The index fails with the same error or gives the same answers. -/
theorem resolves_of_build {t : SelectionTree} (ht : t.Reachable) :
    ((∃ e, build t = .error e) ↔ t.RepeatsName ∨ t.MissesInput) ∧
    (∀ e, build t = .error e → t.Misread e) ∧
    (∀ tables, build t = .ok tables → tables.Resolves t) ∧
    Alike Eq Answers (build t) (ScopeIndex.build t) := by
  rcases build_cases ht.wellFormed with
    ⟨e, hbuild, hindex, hmisread⟩ | ⟨tables, index, hbuild, hindex, h, hlawful⟩
  · rw [hbuild, hindex]
    refine ⟨?_, ?_, ?_, .error rfl⟩
    · exact ⟨fun _ => ht.wellFormed.repeats_or_misses hmisread, fun _ => ⟨e, rfl⟩⟩
    · rintro _ ⟨⟩
      exact hmisread
    · rintro _ ⟨⟩
  · rw [hbuild, hindex]
    refine ⟨⟨?_, ?_⟩, ?_, ?_, .ok ?_⟩
    · rintro ⟨_, ⟨⟩⟩
    · rintro (hrepeats | hmisses)
      · exact absurd hrepeats hlawful.not_repeats
      · exact absurd hmisses hlawful.not_misses
    · rintro _ ⟨⟩
    · rintro _ ⟨⟩
      exact h.resolves hlawful
    · exact fun node p hp name =>
        ⟨h.lookup_after hp name, fun slot => h.lookup_within hlawful hp name⟩

end NameTables

/-! ### A tree that grows above what reads it -/

namespace Sample

def energy : Variable := .ofBranch "energy" "E"

def calibrated : Variable := .computed "calibrated" ["energy"] fun values => values.headD 0

def tight : Variable := .computed "tight" ["calibrated"] fun values => values.headD 0

/-- A child calibrates an energy; the root declares its variables afterwards. -/
def grown (late : List Variable) : SelectionTree :=
  { id := 0
    nodes :=
      [{ name := rootName, attachment := none, label := none, ownVariables := late },
        { name := "tight", attachment := some ⟨0, tight⟩, label := none,
          ownVariables := [calibrated] }] }

theorem grown_reachable : (grown []).Reachable ∧ (grown [energy]).Reachable ∧
    (grown [energy, calibrated]).Reachable := by
  have hadd : (SelectionTree.new 0 none).addChild ⟨0, 0⟩ "tight" tight none =
      .ok (⟨0, 1⟩, ⟨0, [⟨rootName, none, none, [], none⟩,
        ⟨"tight", some ⟨0, tight⟩, none, [], none⟩], []⟩) := rfl
  have hchild : (grown []).Reachable :=
    .define (n := ⟨0, 1⟩) (v := calibrated) (.addChild (.new 0 none) hadd) rfl
  have henergy : (grown [energy]).Reachable := .define (n := ⟨0, 0⟩) (v := energy) hchild rfl
  exact ⟨hchild, henergy, .define (n := ⟨0, 0⟩) (v := calibrated) henergy rfl⟩

end Sample

/-- The child reads what the root declares later, and does not see itself.  If the root declares
nothing the child misses its input, and if the root takes the child's name too the path to the child
repeats it. -/
theorem NameTables.resolves_of_build_grown :
    (∃ tables, build (Sample.grown [Sample.energy]) = .ok tables ∧
      tables.lookup (.within ⟨1, 0⟩) "energy" = some ⟨0, 0⟩ ∧
      tables.lookup (.after 1) "calibrated" = some ⟨1, 0⟩ ∧
      ∀ b, tables.lookup (.within ⟨1, 0⟩) "calibrated" ≠ some b) ∧
    (∃ e, build (Sample.grown []) = .error e ∧ (Sample.grown []).Misread e) ∧
    ∃ e, build (Sample.grown [Sample.energy, Sample.calibrated]) = .error e ∧
      (Sample.grown [Sample.energy, Sample.calibrated]).Misread e := by
  obtain ⟨hbare, henergy, hboth⟩ := Sample.grown_reachable
  refine ⟨?_, ?_, ?_⟩
  · obtain ⟨tables, hbuild⟩ : ∃ tables, build (Sample.grown [Sample.energy]) = .ok tables :=
      exists_ok_of_isOk (by decide)
    have hresolves := (resolves_of_build henergy).2.2.1 tables hbuild
    have hcalibrated : tables.lookup (.after 1) "calibrated" = some ⟨1, 0⟩ :=
      (hresolves.after _ _ _).mpr ⟨by decide, rfl⟩
    refine ⟨tables, hbuild, (hresolves.within _ _ _).mpr ⟨?_, .inl (by decide)⟩, hcalibrated, ?_⟩
    · exact (hresolves.after _ _ _).mpr ⟨by decide, rfl⟩
    · intro b hb
      have hafter := ((hresolves.within _ _ _).mp hb).1
      rw [hcalibrated, Option.some.injEq] at hafter
      subst hafter
      exact absurd ((hresolves.unseen _ _ _ hb).2.2 rfl) (Nat.lt_irrefl 0)
  · have hmisses : (Sample.grown []).MissesInput := by
      refine .inl ⟨⟨1, 0⟩, Sample.calibrated, rfl, _, List.mem_cons_self, "energy",
        List.mem_singleton_self _, ?_⟩
      rintro ⟨node, slot⟩ (hnode | ⟨rfl, hslot⟩)
      · have hroot : node = 0 := by simpa using (show node ∈ [0] from hnode)
        subst hroot
        simp [SelectionTree.nameAt?, SelectionTree.variableAt?, SelectionTree.own, Sample.grown]
      · exact absurd hslot (Nat.not_lt_zero slot)
    obtain ⟨hfails, hmisread, -, -⟩ := resolves_of_build hbare
    obtain ⟨e, he⟩ := hfails.mpr (.inr hmisses)
    exact ⟨e, he, hmisread e he⟩
  · obtain ⟨hfails, hmisread, -, -⟩ := resolves_of_build hboth
    obtain ⟨e, he⟩ := hfails.mpr
      (.inl ⟨1, ⟨0, 1⟩, ⟨1, 0⟩, "calibrated", by decide, by decide, by decide, rfl, rfl⟩)
    exact ⟨e, he, hmisread e he⟩

end SelectionPlan
