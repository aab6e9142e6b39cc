import SelectionPlan.Proofs.Naming
import SelectionPlan.Proofs.Ordered
import SelectionPlan.Proofs.Tree.Reachable
import Mathlib.Data.List.Induction
import Mathlib.Data.Prod.Lex
import Mathlib.Order.WithBot

/-!
# Schemas

A schema is taken in by sorting its columns, the nominal ones first, and declaring them one by one.
What has been declared is a grouping of the columns by their logical names: there is one variable
for each name, and it has the nominal column and the variations of this name.
-/

namespace SelectionPlan

/-! ### One variable -/

namespace Variable

variable {v : Variable} {name : String} {s : Systematic} {spec : Specification}

/-- What a variable specifies for a systematic itself.  A variation that it does not override has
the nominal specification, but none of its own. -/
def own (v : Variable) : Systematic → Option Specification
  | .nominal => some v.nominal
  | .variation name => lookupKey name v.overrides

theorem spec_of_own (h : v.own s = some spec) : v.spec s = spec := by
  cases s with
  | nominal => exact Option.some.inj h
  | variation name =>
      rw [own] at h
      rw [Variable.spec, h]
      rfl

theorem mem_overridden : name ∈ v.overridden ↔ (v.own (.variation name)).isSome :=
  lookupKey_isSome_iff.symm

def joined (v : Variable) (c : SelectionTree.SchemaColumn) : Variable :=
  match c.systematic with
  | .nominal => { v with nominal := .branch c.physical }
  | .variation systematic => v.vary systematic (.branch c.physical)

@[simp] theorem name_joined (c : SelectionTree.SchemaColumn) : (v.joined c).name = v.name := by
  rw [joined]
  split <;> rfl

theorem own_joined (c : SelectionTree.SchemaColumn) (s : Systematic) :
    (v.joined c).own s = if c.systematic = s then some (.branch c.physical) else v.own s := by
  cases hc : c.systematic with
  | nominal => cases s <;> simp [joined, hc, own]
  | variation systematic =>
      cases s with
      | nominal => simp [joined, hc, own, vary]
      | variation name => simp [joined, hc, own, vary, lookupKey_insertKey]

end Variable

namespace SelectionTree

/-! ### Grouped columns -/

/-- The variable of a logical name that reads the columns of this name.  Without a nominal column
it is read nominally under its own name. -/
def grouped (columns : List SchemaColumn) (name : String) : Variable :=
  (columns.filter fun c => c.logical = name).foldl Variable.joined (.existing name)

section Grouped

variable {columns : List SchemaColumn} {c : SchemaColumn} {name : String} {s : Systematic}

theorem grouped_concat (columns : List SchemaColumn) (c : SchemaColumn) (name : String) :
    grouped (columns ++ [c]) name =
      if c.logical = name then (grouped columns name).joined c else grouped columns name := by
  rw [grouped, List.filter_append, List.foldl_append]
  by_cases hname : c.logical = name
  · simp [hname, grouped]
  · simp [hname, grouped]

theorem grouped_of_fresh (h : ∀ c ∈ columns, c.logical ≠ name) :
    grouped columns name = .existing name := by
  have hnone : columns.filter (fun c => c.logical = name) = [] :=
    List.filter_eq_nil_iff.mpr fun c hc hname => h c hc (of_decide_eq_true hname)
  rw [grouped, hnone]
  rfl

@[simp] theorem name_grouped (columns : List SchemaColumn) (name : String) :
    (grouped columns name).name = name := by
  induction columns using List.reverseRecOn with
  | nil => rfl
  | append_singleton columns c ih =>
      rw [grouped_concat]
      split
      · rw [Variable.name_joined, ih]
      · exact ih

theorem own_grouped_of_absent (h : ∀ c ∈ columns, c.logical = name → c.systematic ≠ s) :
    (grouped columns name).own s = (Variable.existing name).own s := by
  induction columns using List.reverseRecOn with
  | nil => rfl
  | append_singleton columns c ih =>
      have ih := ih fun c hc => h c (List.mem_append_left _ hc)
      have hlast := h c (List.mem_append_right _ (List.mem_singleton_self c))
      rw [grouped_concat]
      by_cases hname : c.logical = name
      · rw [if_pos hname, Variable.own_joined, if_neg (hlast hname), ih]
      · rw [if_neg hname, ih]

def Distinct (columns : List SchemaColumn) : Prop :=
  (columns.map fun c => (c.logical, c.systematic)).Nodup

theorem own_grouped (hdistinct : Distinct columns) (hc : c ∈ columns) :
    (grouped columns c.logical).own c.systematic = some (.branch c.physical) := by
  induction columns using List.reverseRecOn with
  | nil => cases hc
  | append_singleton columns d ih =>
      rw [Distinct, List.map_append, List.map_singleton, ← List.concat_eq_append,
        List.nodup_concat] at hdistinct
      obtain ⟨hnew, hdistinct⟩ := hdistinct
      rw [grouped_concat]
      rcases List.mem_append.mp hc with hc | hc
      · have hother : ¬ (d.logical = c.logical ∧ d.systematic = c.systematic) := by
          intro hsame
          apply hnew
          rw [hsame.1, hsame.2]
          exact List.mem_map_of_mem hc
        by_cases hname : d.logical = c.logical
        · have hs : d.systematic ≠ c.systematic := fun hs => hother ⟨hname, hs⟩
          rw [if_pos hname, Variable.own_joined, if_neg hs, ih hdistinct hc]
        · rw [if_neg hname, ih hdistinct hc]
      · rw [List.mem_singleton.mp hc, if_pos rfl, Variable.own_joined, if_pos rfl]

theorem mem_overridden_grouped (hdistinct : Distinct columns) {systematic : String} :
    systematic ∈ (grouped columns name).overridden ↔
      ∃ c ∈ columns, c.logical = name ∧ c.systematic = .variation systematic := by
  rw [Variable.mem_overridden]
  constructor
  · intro hsome
    by_contra hnone
    have habsent := own_grouped_of_absent (s := .variation systematic) fun c hc hname hs =>
      hnone ⟨c, hc, hname, hs⟩
    rw [habsent] at hsome
    cases hsome
  · rintro ⟨c, hc, rfl, hs⟩
    rw [← hs, own_grouped hdistinct hc]
    rfl

theorem nominal_grouped_of_absent (h : ∀ c ∈ columns, c.logical = name → c.systematic ≠ .nominal) :
    (grouped columns name).nominal = .branch name :=
  Option.some.inj (own_grouped_of_absent h)

end Grouped

/-! ### Declaring one column -/

structure Groups (columns : List SchemaColumn) (vars : List Variable) : Prop where
  nodup : (vars.map Variable.name).Nodup
  mem : ∀ name, name ∈ vars.map Variable.name ↔ ∃ c ∈ columns, c.logical = name
  eq : ∀ v ∈ vars, v = grouped columns v.name

section Groups

variable {columns : List SchemaColumn} {vars : List Variable} {c : SchemaColumn}

theorem groups_nil : Groups [] [] := by
  constructor <;> simp

theorem Groups.exists_spec (h : Groups columns vars) (hdistinct : Distinct columns)
    (hc : c ∈ columns) :
    ∃ v ∈ vars, v.name = c.logical ∧ v.spec c.systematic = .branch c.physical := by
  obtain ⟨v, hv, hname⟩ := List.mem_map.mp ((h.mem c.logical).mpr ⟨c, hc, rfl⟩)
  refine ⟨v, hv, hname, ?_⟩
  rw [h.eq v hv, hname]
  exact Variable.spec_of_own (own_grouped hdistinct hc)

theorem Groups.nominal_of_absent (h : Groups columns vars) {v : Variable} (hv : v ∈ vars)
    (habsent : ∀ c ∈ columns, c.logical = v.name → c.systematic ≠ .nominal) :
    v.spec .nominal = .branch v.name := by
  have hnominal := nominal_grouped_of_absent habsent
  rwa [← h.eq v hv] at hnominal

theorem Groups.mem_overridden (h : Groups columns vars) (hdistinct : Distinct columns)
    {v : Variable} (hv : v ∈ vars) {systematic : String} :
    systematic ∈ v.overridden ↔
      ∃ c ∈ columns, c.logical = v.name ∧ c.systematic = .variation systematic := by
  rw [h.eq v hv, mem_overridden_grouped hdistinct, name_grouped]

theorem Groups.concat_new (h : Groups columns vars) (hnew : c.logical ∉ vars.map Variable.name) :
    Groups (columns ++ [c]) (vars ++ [(Variable.existing c.logical).joined c]) := by
  have hfresh : ∀ d ∈ columns, d.logical ≠ c.logical := fun d hd hname =>
    hnew ((h.mem c.logical).mpr ⟨d, hd, hname⟩)
  constructor
  · rw [List.map_append, List.map_singleton, Variable.name_joined, ← List.concat_eq_append,
      List.nodup_concat]
    exact ⟨hnew, h.nodup⟩
  · intro name
    rw [List.map_append, List.mem_append, h.mem]
    simp [Variable.existing, or_and_right, exists_or, eq_comm]
  · intro v hv
    rw [grouped_concat]
    rcases List.mem_append.mp hv with hv | hv
    · have hname : c.logical ≠ v.name := fun hname =>
        hnew (hname ▸ List.mem_map_of_mem hv)
      rw [if_neg hname]
      exact h.eq v hv
    · rw [List.mem_singleton.mp hv, Variable.name_joined, Variable.existing, if_pos rfl,
        grouped_of_fresh hfresh]
      rfl

theorem Groups.concat_old (h : Groups columns vars) (hold : c.logical ∈ vars.map Variable.name) :
    Groups (columns ++ [c]) (vars.map fun v => if v.name = c.logical then v.joined c else v) := by
  have hnames : (vars.map fun v => if v.name = c.logical then v.joined c else v).map Variable.name =
      vars.map Variable.name := by
    rw [List.map_map]
    refine List.map_congr_left fun v _ => ?_
    by_cases hname : v.name = c.logical <;> simp [hname]
  constructor
  · rw [hnames]
    exact h.nodup
  · intro name
    rw [hnames, h.mem]
    have hc : c.logical = name → ∃ d ∈ columns, d.logical = name := by
      rintro rfl
      exact (h.mem _).mp hold
    simp only [List.mem_append, List.mem_singleton, or_and_right, exists_or, exists_eq_left]
    exact (or_iff_left_of_imp hc).symm
  · intro v hv
    obtain ⟨w, hw, rfl⟩ := List.mem_map.mp hv
    rw [grouped_concat]
    by_cases hname : w.name = c.logical
    · rw [if_pos hname, Variable.name_joined, if_pos hname.symm, ← h.eq w hw]
    · rw [if_neg hname, if_neg (Ne.symm hname)]
      exact h.eq w hw

def placed (vars : List Variable) (c : SchemaColumn) : List Variable :=
  if c.logical ∈ vars.map Variable.name then
    vars.map fun v => if v.name = c.logical then v.joined c else v
  else vars ++ [(Variable.existing c.logical).joined c]

theorem Groups.placed (h : Groups columns vars) (c : SchemaColumn) :
    Groups (columns ++ [c]) (placed vars c) := by
  rw [SelectionTree.placed]
  split
  · exact h.concat_old ‹_›
  · exact h.concat_new ‹_›

theorem Groups.foldl_placed (h : Groups columns vars) (rest : List SchemaColumn) :
    Groups (columns ++ rest) (rest.foldl SelectionTree.placed vars) := by
  induction rest generalizing columns vars with
  | nil => rwa [List.append_nil]
  | cons c rest ih =>
      rw [List.append_cons]
      exact ih (h.placed c)

theorem modify_findIdx? {name : String} {f : Variable → Variable} {slot : Nat}
    (hnodup : (vars.map Variable.name).Nodup)
    (hslot : vars.findIdx? (fun v => v.name == name) = some slot) :
    vars.modify slot f = vars.map fun v => if v.name = name then f v else v := by
  induction vars generalizing slot with
  | nil => cases hslot
  | cons v vars ih =>
      rw [List.map_cons, List.nodup_cons] at hnodup
      rw [List.findIdx?_cons] at hslot
      by_cases hname : v.name = name
      · have hothers : vars.map (fun v => if v.name = name then f v else v) = vars := by
          refine (List.map_congr_left fun w hw => ?_).trans (List.map_id vars)
          have hne : w.name ≠ name := fun h =>
            hnodup.1 (hname.trans h.symm ▸ List.mem_map_of_mem hw)
          exact if_neg hne
        rw [if_pos (beq_iff_eq.mpr hname), Option.some.injEq] at hslot
        subst hslot
        rw [List.modify_zero_cons, List.map_cons, if_pos hname, hothers]
      · rw [if_neg (by simpa using hname)] at hslot
        obtain ⟨i, hi, rfl⟩ := Option.map_eq_some_iff.mp hslot
        rw [List.modify_succ_cons, List.map_cons, if_neg hname, ih hnodup.2 hi]

end Groups

/-! ### Declaring one column after the other -/

def known (systematics : List String) (c : SchemaColumn) : List String :=
  match c.systematic with
  | .nominal => systematics
  | .variation systematic => insertDistinct systematic systematics

theorem mem_foldl_known {columns : List SchemaColumn} {systematics : List String} {name : String} :
    name ∈ columns.foldl known systematics ↔
      name ∈ systematics ∨ ∃ c ∈ columns, c.systematic = .variation name := by
  induction columns generalizing systematics with
  | nil => simp
  | cons c columns ih =>
      rw [List.foldl_cons, ih]
      cases hc : c.systematic with
      | nominal => simp [known, hc]
      | variation systematic => simp [known, hc, or_assoc, or_left_comm, eq_comm]

theorem ascending_foldl_known {columns : List SchemaColumn} {systematics : List String}
    (h : systematics.Pairwise (· < ·)) : (columns.foldl known systematics).Pairwise (· < ·) := by
  induction columns generalizing systematics with
  | nil => exact h
  | cons c columns ih =>
      apply ih
      rw [known]
      split
      · exact h
      · exact pairwise_insertDistinct h

def rooted (t : SelectionTree) (vars : List Variable) (systematics : List String) :
    SelectionTree :=
  { t.modify 0 fun root => { root with ownVariables := vars } with systematics }

section Declaring

variable {t : SelectionTree} {root : Node} {vars : List Variable} {systematics : List String}

theorem nodes_of_root (ht : t.node t.root = .ok root) : ∃ others, t.nodes = root :: others := by
  simp only [node, SelectionTree.root, if_true] at ht
  cases hnodes : t.nodes with
  | nil => simp [hnodes] at ht
  | cons node others =>
      simp only [hnodes, List.getElem?_cons_zero, Except.ok.injEq] at ht
      exact ⟨others, by rw [ht]⟩

theorem rooted_self (ht : t.node t.root = .ok root) :
    t.rooted root.ownVariables t.systematics = t := by
  obtain ⟨others, hnodes⟩ := nodes_of_root ht
  cases t
  cases hnodes
  rfl

theorem define_rooted (ht : t.node t.root = .ok root) {v : Variable} (hcost : v.cost = none)
    (hnew : v.name ∉ vars.map Variable.name) :
    (t.rooted vars systematics).define (t.rooted vars systematics).root v =
      .ok (t.rooted (vars ++ [v]) systematics) := by
  obtain ⟨others, hnodes⟩ := nodes_of_root ht
  have hcheck : v.checkCost = .ok () := by rw [Variable.checkCost, hcost]
  have hnode : (t.rooted vars systematics).node (t.rooted vars systematics).root =
      .ok { root with ownVariables := vars } := by
    simp [node, SelectionTree.root, rooted, modify, hnodes]
  have hhidden : (t.rooted vars systematics).isVisible 0 v.name = false := by
    simpa [isVisible, path, pathWithin, rooted, modify, hnodes, Node.defines] using hnew
  have hroot : (t.rooted vars systematics).root.index = 0 := rfl
  rw [define, hcheck, ok_bind, hnode, ok_bind, hroot, hhidden]
  simp [rooted, modify, hnodes, pure, Except.pure]

theorem addVariant_rooted (ht : t.node t.root = .ok root) {logical systematic physical : String}
    (hnodup : (vars.map Variable.name).Nodup) :
    (t.rooted vars systematics).addVariant logical systematic physical =
      t.rooted (placed vars ⟨logical, .variation systematic, physical⟩)
        (insertDistinct systematic systematics) := by
  obtain ⟨others, hnodes⟩ := nodes_of_root ht
  cases hslot : vars.findIdx? fun v => v.name == logical with
  | some slot =>
      have hmem : logical ∈ vars.map Variable.name := by
        by_contra hnew
        have hnone : vars.findIdx? (fun v => v.name == logical) = none := by simpa using hnew
        rw [hnone] at hslot
        cases hslot
      have hchanged := modify_findIdx? hnodup hslot
        (f := fun v => v.vary systematic (.branch physical))
      simp [addVariant, declareSystematic, rooted, modify, hnodes, hslot, hchanged, placed, hmem,
        Variable.joined]
  | none =>
      have hnew : logical ∉ vars.map Variable.name := by
        simpa using hslot
      simp [addVariant, declareSystematic, rooted, modify, hnodes, hslot, placed, hnew,
        Variable.joined]

theorem declareParsed_cons_rooted (ht : t.node t.root = .ok root) {c : SchemaColumn}
    (hnodup : (vars.map Variable.name).Nodup)
    (hnew : c.systematic = .nominal → c.logical ∉ vars.map Variable.name)
    (rest : List SchemaColumn) :
    (t.rooted vars systematics).declareParsed (c :: rest) =
      (t.rooted (placed vars c) (known systematics c)).declareParsed rest := by
  obtain ⟨logical, s, physical⟩ := c
  cases s with
  | nominal =>
      have hnew : logical ∉ vars.map Variable.name := hnew rfl
      rw [declareParsed, define_rooted ht rfl hnew, placed, if_neg hnew]
      rfl
  | variation systematic =>
      rw [declareParsed, addVariant_rooted ht hnodup]
      rfl

/-- Columns are all declared if no nominal one comes after another of its logical name. -/
theorem declareParsed_rooted (ht : t.node t.root = .ok root) {done rest : List SchemaColumn}
    (h : Groups done vars)
    (horder : (done ++ rest).Pairwise fun a b => b.systematic = .nominal → a.logical ≠ b.logical) :
    (t.rooted vars systematics).declareParsed rest =
      (.ok (), t.rooted (rest.foldl placed vars) (rest.foldl known systematics)) := by
  induction rest generalizing done vars systematics with
  | nil => rfl
  | cons c rest ih =>
      -- A nominal column needs a new name.  The names so far are those of the columns before it.
      have hnew : c.systematic = .nominal → c.logical ∉ vars.map Variable.name := by
        intro hs hmem
        obtain ⟨d, hd, hname⟩ := (h.mem c.logical).mp hmem
        exact (List.pairwise_append.mp horder).2.2 d hd c List.mem_cons_self hs hname
      rw [List.append_cons] at horder
      rw [declareParsed_cons_rooted ht h.nodup hnew, ih (h.placed c) horder]
      rfl

end Declaring

/-! ### The order of columns -/

/-- What the order of columns compares first.  Nominal comes before every name. -/
def systematicRank : Systematic → WithBot String
  | .nominal => ⊥
  | .variation name => name

theorem systematicRank_lt {a b : Systematic} : systematicRank a < systematicRank b ↔ a < b := by
  change _ ↔ Systematic.before a b = true
  cases a <;> cases b <;> simp [systematicRank, Systematic.before]

theorem systematicRank_inj {a b : Systematic} : systematicRank a = systematicRank b ↔ a = b := by
  cases a <;> cases b <;> simp [systematicRank]

def columnRank (c : SchemaColumn) : WithBot String ×ₗ String :=
  toLex (systematicRank c.systematic, c.logical)

theorem before_eq_columnRank :
    SchemaColumn.before = fun a b => decide (columnRank a < columnRank b) := by
  funext a b
  rw [Bool.eq_iff_iff, decide_eq_true_eq, columnRank, columnRank, Prod.Lex.toLex_lt_toLex,
    systematicRank_lt, systematicRank_inj]
  simp [SchemaColumn.before]

section Sorted

variable {columns : List SchemaColumn}

theorem Distinct.nodup_columnRank (h : Distinct columns) : (columns.map columnRank).Nodup := by
  have hranks : columns.map columnRank =
      (columns.map fun c => (c.logical, c.systematic)).map fun pair =>
        toLex (systematicRank pair.2, pair.1) := by
    rw [List.map_map]
    rfl
  rw [hranks]
  apply List.Nodup.map _ h
  intro pair pair' heq
  have heq : (systematicRank pair.2, pair.1) = (systematicRank pair'.2, pair'.1) :=
    toLex.injective heq
  rw [Prod.mk.injEq, systematicRank_inj] at heq
  exact Prod.ext heq.2 heq.1

theorem Distinct.sorted (h : Distinct columns) :
    (sortStable SchemaColumn.before columns).Pairwise fun a b =>
      b.systematic = .nominal → a.logical ≠ b.logical := by
  have hsorted := pairwise_sortStable_lt h.nodup_columnRank
  rw [List.pairwise_map, ← before_eq_columnRank] at hsorted
  apply hsorted.imp
  intro a b hlt hb
  rw [columnRank, columnRank, Prod.Lex.toLex_lt_toLex, hb] at hlt
  rcases hlt with hlt | ⟨-, hlt⟩
  · exact absurd hlt not_lt_bot
  · exact hlt.ne

theorem Distinct.perm {columns' : List SchemaColumn} (h : Distinct columns)
    (hperm : columns.Perm columns') : Distinct columns' :=
  (hperm.map _).nodup_iff.mp h

end Sorted

/-- A column as a namer reads it.  One that it does not accept is taken for a nominal one. -/
def readColumn (namer : Namer) (physical : String) : SchemaColumn :=
  match namer.parse physical with
  | .ok (logical, systematic) => ⟨logical, systematic, physical⟩
  | .error _ => ⟨physical, .nominal, physical⟩

section Reading

variable {namer : Namer} {physical logical : String} {s : Systematic}

@[simp] theorem physical_readColumn (namer : Namer) (physical : String) :
    (readColumn namer physical).physical = physical := by
  rw [readColumn]
  split <;> rfl

theorem parse_eq_iff (h : ∃ pair, namer.parse physical = .ok pair) :
    namer.parse physical = .ok (logical, s) ↔
      (readColumn namer physical).logical = logical ∧
        (readColumn namer physical).systematic = s := by
  obtain ⟨⟨logical', s'⟩, h⟩ := h
  simp [readColumn, h]

theorem distinct_readColumn {tag : NameTag} {columns : List String} (hcolumns : columns.Nodup)
    (hparse : ∀ p ∈ columns, ∃ pair, (Namer.tagged tag).parse p = .ok pair) :
    Distinct (columns.map (readColumn (.tagged tag))) := by
  rw [Distinct, List.map_map]
  apply List.Nodup.map_on _ hcolumns
  intro p hp q hq heq
  have hp := (Namer.physical_of_parse ((parse_eq_iff (hparse p hp)).mpr ⟨rfl, rfl⟩)).2
  have hq := (Namer.physical_of_parse ((parse_eq_iff (hparse q hq)).mpr ⟨rfl, rfl⟩)).2
  simp only [Function.comp_apply, Prod.mk.injEq] at heq
  rw [← hp, ← hq, heq.1, heq.2]

def arranged (namer : Namer) (columns : List String) : List SchemaColumn :=
  sortStable SchemaColumn.before (columns.map (readColumn namer))

theorem exists_arranged {columns : List String} {q : SchemaColumn → Prop} :
    (∃ c ∈ arranged namer columns, q c) ↔ ∃ p ∈ columns, q (readColumn namer p) := by
  simp [arranged]

theorem distinct_arranged {tag : NameTag} {columns : List String} (hcolumns : columns.Nodup)
    (hparse : ∀ p ∈ columns, ∃ pair, (Namer.tagged tag).parse p = .ok pair) :
    Distinct (arranged (.tagged tag) columns) :=
  (distinct_readColumn hcolumns hparse).perm (perm_sortStable _).symm

/-- The order in which columns are declared does not depend on the order of the schema. -/
theorem arranged_of_perm {tag : NameTag} {columns permuted : List String}
    (hcolumns : columns.Nodup)
    (hparse : ∀ p ∈ columns, ∃ pair, (Namer.tagged tag).parse p = .ok pair)
    (hperm : permuted.Perm columns) :
    arranged (.tagged tag) permuted = arranged (.tagged tag) columns := by
  rw [arranged, arranged, before_eq_columnRank]
  have hdistinct := distinct_readColumn hcolumns hparse
  exact (sortStable_of_perm hdistinct.nodup_columnRank (hperm.symm.map _)).symm

theorem declareColumns_arranged {t : SelectionTree} {columns : List String}
    (hparse : ∀ p ∈ columns, ∃ pair, namer.parse p = .ok pair) :
    t.declareColumns namer columns = t.declareParsed (arranged namer columns) := by
  rw [declareColumns, mapM_eq_ok_map (g := readColumn namer), arranged]
  intro p hp
  obtain ⟨pair, h⟩ := hparse p hp
  simp [readColumn, h, Except.map]

end Reading

/-- A schema whose columns a tagged scheme accepts is taken in whole and in whichever order it
comes.  The root gets one variable for each logical name, with a specification for each column of
this name and no other; only its nominal specification may lack a column. -/
theorem declareColumns_groups {t : SelectionTree} {root : Node} {tag : NameTag}
    {columns : List String} (ht : t.node t.root = .ok root) (hempty : root.ownVariables = [])
    (hcolumns : columns.Nodup)
    (hparse : ∀ p ∈ columns, ∃ pair, (Namer.tagged tag).parse p = .ok pair) :
    ∃ vars systematics,
      t.declareColumns (.tagged tag) columns = (.ok (), t.rooted vars systematics) ∧
      (vars.map Variable.name).Nodup ∧
      (∀ name, name ∈ vars.map Variable.name ↔
        ∃ p ∈ columns, ∃ s, (Namer.tagged tag).parse p = .ok (name, s)) ∧
      (∀ p ∈ columns, ∀ name s, (Namer.tagged tag).parse p = .ok (name, s) →
        ∃ v ∈ vars, v.name = name ∧ v.spec s = .branch p) ∧
      (∀ v ∈ vars, (∀ p ∈ columns, (Namer.tagged tag).parse p ≠ .ok (v.name, .nominal)) →
        v.spec .nominal = .branch v.name) ∧
      (∀ v ∈ vars, ∀ name, name ∈ v.overridden ↔
        ∃ p ∈ columns, (Namer.tagged tag).parse p = .ok (v.name, .variation name)) ∧
      (∀ name, name ∈ systematics ↔ name ∈ t.systematics ∨
        ∃ p ∈ columns, ∃ logical,
          (Namer.tagged tag).parse p = .ok (logical, .variation name)) ∧
      (t.systematics.Pairwise (· < ·) → systematics.Pairwise (· < ·)) ∧
      ∀ permuted, permuted.Perm columns →
        t.declareColumns (.tagged tag) permuted = (.ok (), t.rooted vars systematics) := by
  let sorted := arranged (.tagged tag) columns
  have hdistinct : Distinct sorted := distinct_arranged hcolumns hparse
  have hgroups : Groups sorted (sorted.foldl placed []) := groups_nil.foldl_placed sorted
  have hdeclared : t.declareColumns (.tagged tag) columns =
      (.ok (), t.rooted (sorted.foldl placed []) (sorted.foldl known t.systematics)) := by
    have hroot : t.rooted [] t.systematics = t := by
      rw [← hempty]
      exact rooted_self ht
    have hrun : (t.rooted [] t.systematics).declareParsed sorted = _ :=
      declareParsed_rooted ht groups_nil (distinct_readColumn hcolumns hparse).sorted
    rw [hroot] at hrun
    rw [declareColumns_arranged hparse, hrun]
  refine ⟨sorted.foldl placed [], sorted.foldl known t.systematics, hdeclared, hgroups.nodup,
    fun name => ?_, fun p hp name s h => ?_, fun v hv hlacks => ?_, fun v hv name => ?_,
    fun name => ?_, ascending_foldl_known, fun permuted hperm => ?_⟩
  · rw [hgroups.mem, exists_arranged]
    refine exists_congr fun p => and_congr_right fun hp => ?_
    simp [parse_eq_iff (hparse p hp)]
  · obtain ⟨hname, hs⟩ := (parse_eq_iff (hparse p hp)).mp h
    have hread : readColumn (.tagged tag) p ∈ sorted :=
      mem_sortStable.mpr (List.mem_map_of_mem hp)
    have hspec := hgroups.exists_spec hdistinct hread
    rwa [hname, hs, physical_readColumn] at hspec
  · apply hgroups.nominal_of_absent hv
    intro c hc hname hs
    obtain ⟨p, hp, rfl⟩ := exists_arranged.mp ⟨c, hc, rfl⟩
    exact hlacks p hp ((parse_eq_iff (hparse p hp)).mpr ⟨hname, hs⟩)
  · rw [hgroups.mem_overridden hdistinct hv, exists_arranged]
    refine exists_congr fun p => and_congr_right fun hp => ?_
    exact (parse_eq_iff (hparse p hp)).symm
  · rw [mem_foldl_known, exists_arranged]
    refine or_congr_right (exists_congr fun p => and_congr_right fun hp => ?_)
    simp [parse_eq_iff (hparse p hp)]
  · have hparse' : ∀ p ∈ permuted, ∃ pair, (Namer.tagged tag).parse p = .ok pair :=
      fun p hp => hparse p (hperm.subset hp)
    rw [declareColumns_arranged hparse', arranged_of_perm hcolumns hparse hperm,
      ← declareColumns_arranged hparse, hdeclared]

/-- Variations come before their nominal column here, or without one. -/
theorem declareColumns_groups_orphan :
    ∃ vars systematics,
      (new 0 none).declareColumns (.ofSeparator "__" false) ["pt__up", "pt", "m__up"] =
        (.ok (), (new 0 none).rooted vars systematics) ∧
      (new 0 none).declareColumns (.ofSeparator "__" false) ["m__up", "pt__up", "pt"] =
        (.ok (), (new 0 none).rooted vars systematics) ∧
      (∃ v ∈ vars, v.name = "pt" ∧ v.spec (.variation "up") = .branch "pt__up") ∧
      ∃ v ∈ vars, v.name = "m" ∧ v.spec .nominal = .branch "m" := by
  have hpt : (Namer.ofSeparator "__" false).parse "pt" = .ok ("pt", .nominal) := by rfl
  have hptUp : (Namer.ofSeparator "__" false).parse "pt__up" = .ok ("pt", .variation "up") := by
    rfl
  have hmUp : (Namer.ofSeparator "__" false).parse "m__up" = .ok ("m", .variation "up") := by rfl
  have hparse : ∀ p ∈ ["pt__up", "pt", "m__up"], ∃ pair,
      (Namer.tagged (NameTag.make "__" false)).parse p = .ok pair := by
    intro p hp
    simp only [List.mem_cons, List.not_mem_nil, or_false] at hp
    rcases hp with rfl | rfl | rfl
    · exact ⟨_, hptUp⟩
    · exact ⟨_, hpt⟩
    · exact ⟨_, hmUp⟩
  obtain ⟨vars, systematics, hdeclared, -, -, hspec, hnominal, -, -, -, hperm⟩ :=
    declareColumns_groups (t := new 0 none) rfl rfl (by decide) hparse
  refine ⟨vars, systematics, hdeclared, hperm _ (by decide), hspec _ (by decide) _ _ hptUp, ?_⟩
  obtain ⟨v, hv, hname, -⟩ := hspec _ (by decide) _ _ hmUp
  refine ⟨v, hv, hname, ?_⟩
  rw [hnominal v hv, hname]
  intro p hp hlisted
  rw [hname] at hlisted
  simp only [List.mem_cons, List.not_mem_nil, or_false] at hp
  rcases hp with rfl | rfl | rfl
  · exact absurd (hptUp.symm.trans hlisted) (by decide)
  · exact absurd (hpt.symm.trans hlisted) (by decide)
  · exact absurd (hmUp.symm.trans hlisted) (by decide)

end SelectionTree
end SelectionPlan
