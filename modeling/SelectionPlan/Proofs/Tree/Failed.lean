import SelectionPlan.Proofs.Tree.Named
import SelectionPlan.Proofs.Tree.Schema

/-!
# Failed edits

An edit that fails leaves the tree as it was, with two exceptions: a weighing whose product cannot
be defined leaves the factor, and a schema with a column whose name is taken leaves the columns
before it.  What is left there stands in the way of the same edit ever after.
-/

namespace SelectionPlan
namespace SelectionTree

variable {t t' : SelectionTree} {err : BuildError}

/-! ### Names that are taken -/

theorem define_eq_error {n : NodeId} {v : Variable} {node : Node} (hnode : t.node n = .ok node)
    (hcost : v.cost = none) :
    t.define n v = .error err ↔ t.isVisible n.index v.name = true ∧
      err = .naming (.duplicateDefinition v.name (t.pathText n.index)) := by
  have hcheck : v.checkCost = .ok () := by rw [Variable.checkCost, hcost]
  rw [define, hcheck, ok_bind, hnode, ok_bind]
  by_cases hvisible : t.isVisible n.index v.name = true
  · simp [hvisible, throw, throwThe, MonadExceptOf.throw, bind, Except.bind, eq_comm]
  · simp [hvisible, pure, Except.pure]

theorem define_of_visible {n : NodeId} {v : Variable} (h : t.isVisible n.index v.name = true) :
    ∃ err, t.define n v = .error err := by
  cases hdefine : t.define n v with
  | error err => exact ⟨err, rfl⟩
  | ok t' =>
      rw [define_checks hdefine] at h
      cases h

theorem Keeps.isVisible (h : t.Keeps t') (ht : t.WellFormed) (ht' : t'.WellFormed) {i : Nat}
    (hi : i < t.size) {name : String} (hvisible : t.isVisible i name = true) :
    t'.isVisible i name = true := by
  rw [SelectionTree.isVisible, List.any_eq_true] at hvisible ⊢
  obtain ⟨j, hj, hdefines⟩ := hvisible
  obtain ⟨n', hn', hkeeps⟩ := h j _ (List.getElem?_eq_getElem (ht.lt_of_mem_path hi hj))
  refine ⟨j, by rwa [h.path_eq ht ht' hi], ?_⟩
  simp only [List.getElem?_eq_getElem (ht.lt_of_mem_path hi hj), Option.map_some,
    Option.getD_some] at hdefines
  simp only [hn', Option.map_some, Option.getD_some]
  exact hkeeps.defines _ hdefines

theorem kept_keeps (t : SelectionTree) : Kept t.Keeps where
  define := fun h hdefine => h.trans (grows_define hdefine).keeps
  assignWeight := fun _ h => h.trans (keeps_assignWeight _ _ _)
  addVariant := fun logical systematic physical h =>
    h.trans (grows_addVariant _ logical systematic physical).keeps
  declareSystematic := fun name h => h.trans (grows_declareSystematic _ name).keeps

theorem keeps_edit (t : SelectionTree) (e : Edit) : t.Keeps (t.edit e) := by
  cases e with
  | addChild parent name filter label =>
      simp only [edit, attempt]
      split
      · rename_i hadd
        exact (grows_addChild hadd).keeps
      · exact .refl t
  | define n v =>
      simp only [edit, attempt]
      split
      · rename_i hdefine
        exact (grows_define hdefine).keeps
      · exact .refl t
  | setWeight n factor strategy => exact (kept_keeps t).setWeight (.refl t) n factor strategy
  | declareColumns namer columns => exact (kept_keeps t).declareColumns (.refl t) namer columns
  | declareSystematic name => exact (grows_declareSystematic t name).keeps

theorem keeps_editAll (t : SelectionTree) (edits : List Edit) : t.Keeps (t.editAll edits) := by
  induction edits generalizing t with
  | nil => exact .refl t
  | cons e edits ih => exact (t.keeps_edit e).trans (ih (t.edit e))

/-! ### Columns -/

def SchemaColumn.variable (c : SchemaColumn) : Variable := .ofBranch c.logical c.physical

section Columns

variable {root : Node} {systematics : List String}

theorem declareParsed_nominal (ht : t.node t.root = .ok root) (vars : List Variable)
    {before : List SchemaColumn} (hnominal : ∀ d ∈ before, d.systematic = .nominal)
    (hnodup : (vars.map Variable.name ++ before.map SchemaColumn.logical).Nodup)
    (rest : List SchemaColumn) :
    (t.rooted vars systematics).declareParsed (before ++ rest) =
      (t.rooted (vars ++ before.map SchemaColumn.variable) systematics).declareParsed rest := by
  induction before generalizing vars with
  | nil => rw [List.map_nil, List.append_nil, List.nil_append]
  | cons d before ih =>
      obtain ⟨logical, s, physical⟩ := d
      rw [List.forall_mem_cons] at hnominal
      have hs : s = .nominal := hnominal.1
      subst hs
      have hnew : logical ∉ vars.map Variable.name := fun hmem =>
        (List.nodup_append.mp hnodup).2.2 _ hmem _ List.mem_cons_self rfl
      have hrest := ih (vars ++ [.ofBranch logical physical]) hnominal.2
        (by simpa [Variable.ofBranch] using hnodup)
      rw [List.cons_append, declareParsed, define_rooted ht rfl hnew]
      simpa [SchemaColumn.variable] using hrest

theorem declareParsed_variations {columns : List SchemaColumn}
    (h : ∀ c ∈ columns, c.systematic ≠ .nominal) : (t.declareParsed columns).1 = .ok () := by
  induction columns generalizing t with
  | nil => rfl
  | cons c columns ih =>
      obtain ⟨logical, s, physical⟩ := c
      rw [List.forall_mem_cons] at h
      cases s with
      | nominal => exact absurd rfl h.1
      | variation systematic => exact ih h.2

theorem isVisible_rooted (ht : t.node t.root = .ok root) (vars : List Variable) (name : String) :
    (t.rooted vars systematics).isVisible 0 name = true ↔ name ∈ vars.map Variable.name := by
  obtain ⟨others, hnodes⟩ := nodes_of_root ht
  simp [isVisible, path, pathWithin, rooted, modify, hnodes, Node.defines]

theorem pathText_rooted (ht : t.node t.root = .ok root) (vars : List Variable) :
    (t.rooted vars systematics).pathText 0 = t.pathText 0 := by
  obtain ⟨others, hnodes⟩ := nodes_of_root ht
  simp [pathText, path, pathWithin, rooted, modify, hnodes, nameOf]

theorem define_rooted_taken (ht : t.node t.root = .ok root) (vars : List Variable)
    (systematics : List String) {c : SchemaColumn} (htaken : c.logical ∈ vars.map Variable.name) :
    (t.rooted vars systematics).define (t.rooted vars systematics).root c.variable =
      .error (.naming (.duplicateDefinition c.logical (t.pathText 0))) := by
  obtain ⟨others, hnodes⟩ := nodes_of_root ht
  have hnode : (t.rooted vars systematics).node (t.rooted vars systematics).root =
      .ok { root with ownVariables := vars } := by
    simp [node, SelectionTree.root, rooted, modify, hnodes]
  apply (define_eq_error hnode rfl).mpr
  exact ⟨(isVisible_rooted ht vars _).mpr htaken, by rw [← pathText_rooted ht vars]; rfl⟩

/-- Where the declaration of columns stops: at the first nominal one whose name is taken. -/
structure StopsAt (vars : List Variable) (columns before : List SchemaColumn)
    (c : SchemaColumn) : Prop where
  split : ∃ after, columns = before ++ c :: after
  nominal : ∀ d ∈ before ++ [c], d.systematic = .nominal
  nodup : (vars.map Variable.name ++ before.map SchemaColumn.logical).Nodup
  taken : c.logical ∈ vars.map Variable.name ++ before.map SchemaColumn.logical

theorem StopsAt.declareParsed (systematics : List String) (ht : t.node t.root = .ok root)
    {vars : List Variable} {columns before : List SchemaColumn} {c : SchemaColumn}
    (h : StopsAt vars columns before c) :
    (t.rooted vars systematics).declareParsed columns =
      (.error (.naming (.duplicateDefinition c.logical (t.pathText 0))),
        t.rooted (vars ++ before.map SchemaColumn.variable) systematics) := by
  obtain ⟨after, rfl⟩ := h.split
  have hbefore : ∀ d ∈ before, d.systematic = .nominal :=
    fun d hd => h.nominal d (List.mem_append_left _ hd)
  have hnominal : c.systematic = .nominal :=
    h.nominal c (List.mem_append_right _ (List.mem_singleton_self c))
  have htaken : c.logical ∈ (vars ++ before.map SchemaColumn.variable).map Variable.name := by
    simpa [SchemaColumn.variable, Variable.ofBranch, Function.comp_def] using h.taken
  have hrefused := define_rooted_taken ht _ systematics htaken
  obtain ⟨logical, s, physical⟩ := c
  subst hnominal
  rw [declareParsed_nominal ht vars hbefore h.nodup, SelectionTree.declareParsed]
  simp only [SchemaColumn.variable] at hrefused ⊢
  rw [hrefused]

/-- The nominal columns come first, so only among them can the declaration stop. -/
theorem exists_stopsAt (ht : t.node t.root = .ok root) {vars : List Variable}
    (hvars : (vars.map Variable.name).Nodup) {columns : List SchemaColumn}
    (horder : columns.Pairwise fun a b => b.systematic = .nominal → a.systematic = .nominal)
    (h : ((t.rooted vars systematics).declareParsed columns).1 = .error err) :
    ∃ before c, StopsAt vars columns before c := by
  induction columns generalizing vars with
  | nil => cases h
  | cons c columns ih =>
      obtain ⟨hfirst, horder⟩ := List.pairwise_cons.mp horder
      by_cases hnominal : c.systematic = .nominal
      · by_cases htaken : c.logical ∈ vars.map Variable.name
        · exact ⟨[], c, ⟨columns, rfl⟩, by simpa using hnominal, by simpa using hvars,
            by simpa using htaken⟩
        · have hnodup : ((vars ++ [c.variable]).map Variable.name).Nodup := by
            rw [List.map_append, List.map_singleton, ← List.concat_eq_append, List.nodup_concat]
            exact ⟨htaken, hvars⟩
          have hone : (t.rooted vars systematics).declareParsed ([c] ++ columns) =
              (t.rooted (vars ++ [c.variable]) systematics).declareParsed columns :=
            declareParsed_nominal ht vars (by simpa using hnominal)
              (by simpa [SchemaColumn.variable, Variable.ofBranch] using hnodup) columns
          rw [List.singleton_append] at hone
          rw [hone] at h
          obtain ⟨before, d, hstops⟩ := ih hnodup horder h
          obtain ⟨after, hafter⟩ := hstops.split
          refine ⟨c :: before, d, ⟨after, by rw [hafter, List.cons_append]⟩, ?_, ?_, ?_⟩
          · rw [List.cons_append, List.forall_mem_cons]
            exact ⟨hnominal, hstops.nominal⟩
          · simpa [SchemaColumn.variable, Variable.ofBranch] using hstops.nodup
          · simpa [SchemaColumn.variable, Variable.ofBranch] using hstops.taken
      · have hvariations : ∀ d ∈ c :: columns, d.systematic ≠ .nominal := by
          rw [List.forall_mem_cons]
          exact ⟨hnominal, fun d hd hs => hnominal (hfirst d hd hs)⟩
        rw [declareParsed_variations hvariations] at h
        cases h

end Columns

/-! ### What failed edits leave -/

/-- Edits that stop halfway, with the error that they report and the tree that they leave. -/
inductive HalfDone (t : SelectionTree) : Edit → BuildError → SelectionTree → Prop
  /-- The factor is defined, but the name of the product is taken. -/
  | weight {n : NodeId} {node : Node} {factor : Variable} {inherited : String}
    {weighted : SelectionTree} : t.node n = .ok node → node.weight = none →
    t.inheritedWeight n.index = some inherited → t.define n factor = .ok weighted →
    weighted.isVisible n.index ("weight_" ++ node.name) = true →
    HalfDone t (.setWeight n factor .multiplicative)
      (.naming (.duplicateDefinition ("weight_" ++ node.name) (weighted.pathText n.index)))
      weighted
  /-- The columns before one whose name is taken are declared. -/
  | columns {namer : Namer} {columns : List String} {root : Node} {before : List SchemaColumn}
    {c : SchemaColumn} : t.node t.root = .ok root →
    (∀ p ∈ columns, ∃ pair, namer.parse p = .ok pair) →
    StopsAt root.ownVariables (arranged namer columns) before c → before ≠ [] →
    HalfDone t (.declareColumns namer columns)
      (.naming (.duplicateDefinition c.logical (t.pathText 0)))
      (t.rooted (root.ownVariables ++ before.map SchemaColumn.variable) t.systematics)

theorem node_define {n : NodeId} {v : Variable} {node : Node} (hnode : t.node n = .ok node)
    (h : t.define n v = .ok t') :
    t'.node n = .ok { node with ownVariables := node.ownVariables ++ [v] } := by
  have hold := node_eq_ok hnode
  obtain ⟨-, rfl⟩ := define_eq_ok h
  simp only [SelectionTree.node] at hnode ⊢
  split at hnode
  · rename_i hid
    rw [getElem?_modify_self _ hold]
    exact if_pos hid
  · cases hnode

theorem ne_of_ownVariables {i : Nat} {n n' : Node} {vs : List Variable}
    (hn : t.nodes[i]? = some n) (hn' : t'.nodes[i]? = some n')
    (hown : n'.ownVariables = n.ownVariables ++ vs) (hvs : vs ≠ []) : t' ≠ t := by
  intro heq
  rw [heq, hn, Option.some.injEq] at hn'
  rw [← hn'] at hown
  exact hvs (List.self_eq_append_right.mp hown)

theorem HalfDone.attempt {e : Edit} (h : HalfDone t e err t') : t.attempt e = (.error err, t') := by
  cases h with
  | @weight n node factor inherited _ hnode hfree hinherited hfactor htaken =>
      have hproduct : t'.define n (.product ("weight_" ++ node.name) inherited factor.name) =
          .error (.naming (.duplicateDefinition ("weight_" ++ node.name) (t'.pathText n.index))) :=
        (define_eq_error (node_define hnode hfactor) rfl).mpr ⟨htaken, rfl⟩
      simp [SelectionTree.attempt, setWeight, hnode, hfree, hfactor, hinherited, hproduct]
  | columns hroot hparse hstops _ =>
      have hstopped := hstops.declareParsed t.systematics hroot
      rw [rooted_self hroot] at hstopped
      rw [SelectionTree.attempt, declareColumns_arranged hparse, hstopped]

theorem HalfDone.ne {e : Edit} (h : HalfDone t e err t') : t' ≠ t := by
  cases h with
  | weight hnode _ _ hfactor _ =>
      have hnode' := node_eq_ok (node_define hnode hfactor)
      exact ne_of_ownVariables (node_eq_ok hnode) hnode' rfl (List.cons_ne_nil _ _)
  | columns hroot _ _ hne =>
      have hroot := node_eq_ok hroot
      apply ne_of_ownVariables hroot (getElem?_modify_self _ hroot) rfl
      rwa [Ne, List.map_eq_nil_iff]

theorem arranged_nominal_first (namer : Namer) (columns : List String) :
    (arranged namer columns).Pairwise fun a b =>
      b.systematic = .nominal → a.systematic = .nominal := by
  rw [arranged, before_eq_columnRank]
  apply (pairwise_sortStable _).imp
  intro a b hle hb
  rw [columnRank, columnRank, Prod.Lex.toLex_le_toLex, hb] at hle
  rcases hle with hlt | ⟨heq, -⟩
  · exact absurd hlt not_lt_bot
  · exact systematicRank_inj.mp heq

theorem halfDone_setWeight {n : NodeId} {factor : Variable} {strategy : WeightStrategy}
    (h : t.setWeight n factor strategy = (.error err, t')) (hne : t' ≠ t) :
    HalfDone t (.setWeight n factor strategy) err t' := by
  rw [setWeight] at h
  split at h
  · cases h
    exact absurd rfl hne
  · rename_i node hnode
    split at h
    · cases h
      exact absurd rfl hne
    · rename_i hfree
      split at h
      · cases h
        exact absurd rfl hne
      · rename_i weighted hfactor
        split at h
        · rename_i inherited hinherited
          simp only at h
          split at h
          · rename_i hproduct
            cases h
            obtain ⟨htaken, rfl⟩ :=
              (define_eq_error (node_define hnode hfactor) rfl).mp hproduct
            exact .weight hnode (by simpa using hfree) hinherited hfactor htaken
          · cases h
        · cases h

theorem halfDone_declareColumns (hwf : t.WellFormed) (hn : t.WellNamed) {namer : Namer}
    {columns : List String} (h : t.declareColumns namer columns = (.error err, t'))
    (hne : t' ≠ t) : HalfDone t (.declareColumns namer columns) err t' := by
  obtain ⟨root, hroot, -⟩ := hwf.root
  have hroot' : t.node t.root = .ok root := by simp [node, SelectionTree.root, hroot]
  have hself := rooted_self hroot'
  have hparse : ∀ p ∈ columns, ∃ pair, namer.parse p = .ok pair := by
    simp only [declareColumns] at h
    split at h
    · cases h
      exact absurd rfl hne
    · rename_i parsed hparsed
      intro p hp
      obtain ⟨c, -, hc⟩ := exists_aligned (mapM_eq_ok.mp hparsed) hp
      cases hpair : namer.parse p with
      | ok pair => exact ⟨pair, rfl⟩
      | error e => simp [hpair, Except.map] at hc
  rw [declareColumns_arranged hparse] at h
  have hstopped : ((t.rooted root.ownVariables t.systematics).declareParsed
      (arranged namer columns)).1 = .error err := by rw [hself, h]
  obtain ⟨before, c, hstops⟩ := exists_stopsAt hroot' (hn.own_nodup 0 root hroot)
    (arranged_nominal_first namer columns) hstopped
  have hresult := hstops.declareParsed t.systematics hroot'
  rw [hself, h, Prod.mk.injEq, Except.error.injEq] at hresult
  obtain ⟨rfl, rfl⟩ := hresult
  apply HalfDone.columns hroot' hparse hstops
  rintro rfl
  exact hne (by simpa using hself)

/-- A failed edit leaves another tree exactly if it stopped halfway. -/
theorem Reachable.halfDone_iff (ht : t.Reachable) (e : Edit) :
    t.attempt e = (.error err, t') ∧ t' ≠ t ↔ HalfDone t e err t' := by
  constructor
  · rintro ⟨h, hne⟩
    cases e with
    | addChild parent name filter label =>
        simp only [attempt] at h
        split at h <;> cases h
        exact absurd rfl hne
    | define n v =>
        simp only [attempt] at h
        split at h <;> cases h
        exact absurd rfl hne
    | setWeight n factor strategy => exact halfDone_setWeight h hne
    | declareColumns namer columns =>
        exact halfDone_declareColumns ht.wellFormed ht.wellNamed h hne
    | declareSystematic name => cases h
  · exact fun h => ⟨h.attempt, h.ne⟩

/-! ### What stands in the way -/

theorem setWeight_of_visible {n : NodeId} {factor : Variable} {strategy : WeightStrategy}
    (h : t.isVisible n.index factor.name = true) :
    ∃ err, t.setWeight n factor strategy = (.error err, t) := by
  obtain ⟨err, hfactor⟩ := define_of_visible h
  rw [setWeight]
  split
  · exact ⟨_, rfl⟩
  · split
    · exact ⟨_, rfl⟩
    · rw [hfactor]
      exact ⟨err, rfl⟩

theorem isVisible_define (hwf' : t'.WellFormed) {n : NodeId} {v : Variable}
    (h : t.define n v = .ok t') : t'.isVisible n.index v.name = true := by
  obtain ⟨⟨node, hnode⟩, -⟩ := define_eq_ok h
  have hnode' := grows_defined h hnode
  have hmem := hwf'.mem_path_self (List.getElem?_eq_some_iff.mp hnode').1
  rw [isVisible, List.any_eq_true]
  exact ⟨n.index, hmem, by simp [hnode', Node.defines]⟩

theorem declareParsed_of_visible {c : SchemaColumn} (hnominal : c.systematic = .nominal)
    (h : t.isVisible 0 c.logical = true) (rest : List SchemaColumn) :
    ∃ err, t.declareParsed (c :: rest) = (.error err, t) := by
  obtain ⟨err, hrefused⟩ : ∃ err, t.define t.root c.variable = .error err := define_of_visible h
  obtain ⟨logical, s, physical⟩ := c
  subst hnominal
  refine ⟨err, ?_⟩
  simp only [SchemaColumn.variable] at hrefused
  rw [declareParsed, hrefused]

/-- Whatever else is done, the same edit fails from then on. -/
theorem HalfDone.persists (ht : t.Reachable) {e : Edit} (h : HalfDone t e err t')
    (edits : List Edit) :
    ∃ err', (t'.editAll edits).attempt e = (.error err', t'.editAll edits) := by
  have hedit : t.edit e = t' := congrArg Prod.snd h.attempt
  have ht' : t'.Reachable := hedit ▸ ht.edit e
  have hkeeps := t'.keeps_editAll edits
  have hlater := ht'.editAll edits
  generalize t'.editAll edits = u at hkeeps hlater ⊢
  cases h with
  | @weight n node factor _ _ hnode _ _ hfactor _ =>
      have hsize := (List.getElem?_eq_some_iff.mp (node_eq_ok (node_define hnode hfactor))).1
      have hvisible := isVisible_define ht'.wellFormed hfactor
      exact setWeight_of_visible (hkeeps.isVisible ht'.wellFormed hlater.wellFormed hsize hvisible)
  | @columns namer columns root before c hroot hparse hstops hne =>
      obtain ⟨d, before, rfl⟩ := List.exists_cons_of_ne_nil hne
      obtain ⟨after, hafter⟩ := hstops.split
      have hmem : d.logical ∈ (root.ownVariables ++
          (d :: before).map SchemaColumn.variable).map Variable.name := by
        simp [SchemaColumn.variable, Variable.ofBranch]
      have hvisible := hkeeps.isVisible ht'.wellFormed hlater.wellFormed ht'.wellFormed.size_pos
        ((isVisible_rooted hroot _ _).mpr hmem)
      rw [SelectionTree.attempt, declareColumns_arranged hparse, hafter]
      exact declareParsed_of_visible (hstops.nominal d (by simp)) hvisible _

/-- A failed edit leaves the tree untouched, unless it is the weighing or the schema that stops
halfway.  What these leave makes every later attempt fail. -/
theorem failed_edit (ht : t.Reachable) (e : Edit) :
    (∀ err t', t.attempt e = (.error err, t') → t' = t ∨ HalfDone t e err t') ∧
      ∀ err t', HalfDone t e err t' →
        t.attempt e = (.error err, t') ∧ t' ≠ t ∧
        ∀ edits, ∃ err', (t'.editAll edits).attempt e = (.error err', t'.editAll edits) := by
  constructor
  · intro err t' h
    by_cases hne : t' = t
    · exact .inl hne
    · exact .inr ((ht.halfDone_iff e).mp ⟨h, hne⟩)
  · intro err t' h
    exact ⟨h.attempt, h.ne, h.persists ht⟩

private theorem halfDone_twice : HalfDone (new 0 none) (.declareColumns .plain ["a", "a"])
    (.naming (.duplicateDefinition "a" "ROOT"))
    ((new 0 none).rooted [.ofBranch "a" "a"] []) := by
  have hroot : (new 0 none).node (new 0 none).root =
      .ok { name := rootName, attachment := none, label := none } := rfl
  have hstops : StopsAt [] (arranged .plain ["a", "a"]) [⟨"a", .nominal, "a"⟩]
      ⟨"a", .nominal, "a"⟩ := by
    refine ⟨⟨[], rfl⟩, by decide, by decide, by decide⟩
  have hparse : ∀ p ∈ ["a", "a"], ∃ pair, Namer.parse .plain p = .ok pair :=
    fun p _ => ⟨_, rfl⟩
  exact .columns hroot hparse hstops (List.cons_ne_nil _ _)

theorem failed_edit_twice :
    (new 0 none).Reachable ∧
      ∀ edits, ∃ err, (((new 0 none).rooted [.ofBranch "a" "a"] []).editAll edits).attempt
        (.declareColumns .plain ["a", "a"]) =
          (.error err, ((new 0 none).rooted [.ofBranch "a" "a"] []).editAll edits) :=
  ⟨.new 0 none, ((failed_edit (.new 0 none) _).2 _ _ halfDone_twice).2.2⟩

/-- A child of a weighted root that has a variable of the name that its own weight would get. -/
def weightTaken : SelectionTree :=
  ofEdits 0 none [.setWeight ⟨0, 0⟩ (.existing "w") .replace,
    .addChild ⟨0, 0⟩ "s" (.existing "w") none, .define ⟨0, 1⟩ (.existing "weight_s")]

/-- A weighing and a schema that fail and leave another tree. -/
theorem failed_edit_leaves_part :
    (∃ err t', weightTaken.attempt (.setWeight ⟨0, 1⟩ (.existing "f") .multiplicative) =
      (.error err, t') ∧ t' ≠ weightTaken) ∧
    ∃ err t', (new 0 none).attempt (.declareColumns .plain ["a", "a"]) = (.error err, t') ∧
      t' ≠ new 0 none := by
  constructor
  · have hhalf : ∃ err t', HalfDone weightTaken
        (.setWeight ⟨0, 1⟩ (.existing "f") .multiplicative) err t' := by
      refine ⟨_, _, .weight rfl rfl rfl rfl ?_⟩
      decide
    obtain ⟨err, t', h⟩ := hhalf
    exact ⟨err, t', h.attempt, h.ne⟩
  · exact ⟨_, _, halfDone_twice.attempt, halfDone_twice.ne⟩

end SelectionTree
end SelectionPlan
