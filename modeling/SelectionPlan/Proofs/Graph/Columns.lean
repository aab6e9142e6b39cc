import SelectionPlan.Proofs.Graph.Plannable
import SelectionPlan.Proofs.Naming

/-!
# Physical columns of a graph

A physical column stands for one logical column under one systematic and is not one of the dataset.
A frame never gets a column that it already has, even if a variable of the same name is defined on
another branch.  Under a tagged scheme only the dataset can be in the way of a computed column.
-/

namespace SelectionPlan

/-- Graphs in which no computed column takes the place of another column. -/
structure ActionGraph.Unambiguous (t : SelectionTree) (g : ActionGraph) : Prop where
  /-- Definitions of one physical column are for one logical name and one systematic. -/
  owner : ∀ a ∈ g.actions, ∀ b ∈ g.actions, ∀ slot slot' column name name' definition definition',
    a.operation = .define slot column name definition →
    b.operation = .define slot' column name' definition' →
      name = name' ∧ a.systematic = b.systematic
  /-- No physical column is defined twice along the inputs of an action. -/
  line : ∀ id, (definedColumns (lineage g.actions id)).Nodup
  /-- No variable of the tree reads a defined column from the dataset. -/
  fresh : ∀ column ∈ definedColumns g.actions, ∀ reader, ¬ t.ReadsDataset reader column

namespace ActionGraph.Built

variable {t : SelectionTree} {p : Planner} {accepted : List AcceptedRegion} {d : Draft}
  {g : ActionGraph} (h : Built t p accepted d g)
include h

theorem exists_owner {a : Action} (ha : a ∈ d.actions) {column : String}
    (hdefined : a.operation.defined? = some column) :
    ∃ c older s, p.index.Declares c older ∧ a.task = some (.define c.ref s) ∧
      lookupKey column d.registry.dataset = none ∧
        lookupKey column d.registry.assigned = some (c.name, s) := by
  have hmem := ha
  cases h.sound.made a ha with
  | @define c older s id tip hdecl =>
      cases hdefined
      obtain ⟨hfree, hassigned⟩ := h.sound.registered _ hmem _ _ _ _ rfl
      exact ⟨c, older, s, hdecl, rfl, hfree, hassigned⟩
  | _ => cases hdefined

theorem nodup_consumer {a : Action} (hget : d.actions[a.id]? = some a) {k : Consumer}
    (hk : a.consumer? = some k) : (definedColumns (lineage d.actions a.id)).Nodup := by
  have ha := List.mem_of_getElem? hget
  obtain ⟨hnodup, i, place, hplace, hvisible⟩ := h.tasks_of_consumer ha hk
  rw [← h.sound.consumer_tasks h.lawful h.names hget hk] at hnodup hvisible
  rw [tasks, List.Nodup, List.pairwise_filterMap] at hnodup
  rw [definedColumns, List.Nodup, List.pairwise_filterMap]
  refine hnodup.imp_of_mem fun {b b'} hb hb' hdiffer column hcolumn column' hcolumn' heq => ?_
  subst heq
  have hline {b : Action} (hb : b ∈ lineage d.actions a.id) : b ∈ d.actions :=
    List.mem_of_getElem? (h.sound.toLinked.lineage_suffix hget hb).1
  obtain ⟨c, older, s, hdecl, htask, -, howner⟩ := h.exists_owner (hline hb) hcolumn
  obtain ⟨c', older', s', hdecl', htask', -, howner'⟩ := h.exists_owner (hline hb') hcolumn'
  rw [howner, Option.some.injEq, Prod.mk.injEq] at howner'
  obtain ⟨hname, rfl⟩ := howner'
  -- Both columns are visible from the consumer, where their common name means only one.
  have hseen {b : Action} (hb : b ∈ lineage d.actions a.id) {c : Column} {older : Scope}
      {s : Systematic} (hdecl : p.index.Declares c older)
      (htask : b.task = some (.define c.ref s)) :
      c :: older <:+ place.scope := by
    obtain ⟨x, rest, href, hsuffix⟩ := hvisible.column c.ref s (mem_tasks.mpr ⟨b, hb, htask⟩)
    obtain ⟨rfl, rfl⟩ := h.lawful.eq_of_ref ⟨i, place, hplace, hsuffix⟩ hdecl href
    exact hsuffix
  obtain ⟨rfl, -⟩ := (h.lawful.resolved hplace).eq_of_name (hseen hb hdecl htask)
    (hseen hb' hdecl' htask') hname
  exact hdiffer _ htask _ htask' rfl

/-- No frame gets a physical column twice. -/
theorem nodup_lineage (hd : d.Planned p accepted) (id : Nat) :
    (definedColumns (lineage d.actions id)).Nodup := by
  cases hget : d.actions[id]? with
  | none =>
      rw [lineage_of_none hget]
      exact List.nodup_nil
  | some a =>
      obtain ⟨b, hb, hk, hmem⟩ := hd.led a (List.mem_of_getElem? hget)
      obtain ⟨k, hk⟩ := Option.isSome_iff_exists.mp hk
      have hgetb := h.sound.toLinked.get_of_mem hb
      obtain ⟨-, -, hsuffix⟩ := h.sound.toLinked.lineage_suffix hgetb hmem
      rw [h.sound.id_eq id a hget] at hsuffix
      exact (h.nodup_consumer hgetb hk).sublist (hsuffix.sublist.filterMap _)

theorem unambiguous (hd : d.Planned p accepted) : g.Unambiguous t := by
  constructor
  case owner =>
    intro a ha b hb slot slot' column name name' definition definition' hopa hopb
    obtain ⟨-, x, hx, rfl⟩ := h.of_mem ha
    obtain ⟨-, y, hy, rfl⟩ := h.of_mem hb
    obtain ⟨-, hx⟩ := h.sound.registered x (List.mem_of_getElem? hx) _ _ _ _ hopa
    obtain ⟨-, hy⟩ := h.sound.registered y (List.mem_of_getElem? hy) _ _ _ _ hopb
    rw [hx, Option.some.injEq, Prod.mk.injEq] at hy
    exact hy
  case line =>
    intro id
    rw [h.lineage_eq, definedColumns_noteConsumers]
    exact h.nodup_lineage hd id
  case fresh =>
    intro column hcolumn
    rw [h.definedColumns_eq] at hcolumn
    obtain ⟨a, ha, hdefined⟩ := List.mem_filterMap.mp hcolumn
    obtain ⟨-, -, -, -, -, hfree, -⟩ := h.exists_owner ha hdefined
    rw [h.sound.dataset_eq] at hfree
    exact h.lawful.unclaimed_iff.mp hfree

end ActionGraph.Built

/-! ### Collisions under a tagged scheme -/

section Tagged

variable {ω : Type} {t : SelectionTree} {index : ScopeIndex} {regions : List (Region ω)}
  {namer : Namer} {name : String} {e : Systematic}

theorem ScopeIndex.Lawful.varies_of_affects (h : ScopeIndex.Lawful t index) {c : Column}
    {older : Scope} (hdecl : index.Declares c older) {variation : String}
    (haffects : variation ∈ c.affects) : t.Varies variation := by
  obtain ⟨i, place, hplace, hsuffix⟩ := hdecl
  have hresolved := h.resolved hplace
  have hlookup : place.scope.lookup c.name = some c :=
    Scope.lookup_of_locate (hresolved.locate_name hsuffix)
  have hvaries := hresolved.affects_iff.mpr ⟨c, hlookup, haffects⟩
  obtain ⟨v, hv, hover⟩ := hvaries.exists_override
  rw [h.scope_declared hplace] at hv
  exact SelectionTree.varies_of_visible hv hover

theorem Requested.accepted (h : ScopeIndex.Lawful t index) (hnames : namer.AcceptsNames t)
    (hrequested : Requested t index regions name e) :
    namer.checkLogical name = .ok () ∧ namer.Accepts e := by
  obtain ⟨r, -, -, c, v, hreads, hv, rfl⟩ := hrequested
  refine ⟨hnames.logical _ v (List.mem_of_getElem? hv), fun variation he => ?_⟩
  obtain ⟨column, older, hdecl, -, s, rfl⟩ := hreads.declares
  cases s with
  | nominal => cases he
  | variation name =>
      simp only [Column.effective] at he
      split at he
      · cases he
        exact hnames.variations _ (h.varies_of_affects hdecl ‹_›)
      · cases he

theorem Refusal.dataset_of_tagged (ht : t.WellFormed) {tag : NameTag} {options : BuildOptions}
    {physical : String} {first second : ColumnOwner}
    (h : Refusal t (.tagged tag) options regions (.naming (.collision physical first second))) :
    ∃ reader, first = .dataset reader ∧ t.ReadsDataset reader physical := by
  cases h with
  | misread hmisread => cases hmisread
  | @variation variation _ _ herror =>
      simp only [Namer.checkSystematic] at herror
      split at herror <;> cases herror
  | @logical _ v _ _ herror =>
      simp only [Namer.checkLogical] at herror
      split at herror <;> cases herror
  | dataset _ _ _ hreads => exact ⟨_, rfl, hreads⟩
  | computed hnames hindex hrequested hrequested' hname hdiffer =>
      have hlaw := ScopeIndex.lawful_of_build ht hindex
      obtain ⟨hlogical, he⟩ := hrequested.accepted hlaw hnames
      obtain ⟨hlogical', he'⟩ := hrequested'.accepted hlaw hnames
      exact absurd (Namer.physical_inj hlogical' he' hlogical he hname) hdiffer

end Tagged

namespace ActionGraph

variable {ω : Type} {t : SelectionTree} {namer : Namer} {options : BuildOptions}
  {regions : List (Region ω)}

/-- In whatever is built no computed column takes the place of another column.  Under a tagged
scheme planning never fails since two computed columns collide: what is in the way is a column of
the dataset. -/
theorem columns_apart (ht : t.Reachable) :
    (∀ g, build t namer options regions = .ok g → g.Unambiguous t) ∧
      ∀ tag physical first second,
        build t (.tagged tag) options regions =
          .error (.naming (.collision physical first second)) →
        ∃ reader, first = .dataset reader ∧ t.ReadsDataset reader physical := by
  constructor
  · intro g hg
    obtain ⟨p, accepted, d, -, -, hb, hd, -⟩ := planned_of_build ht hg
    exact hb.unambiguous hd
  · intro tag physical first second herror
    exact ((build_meets ht).of_eq_error herror).dataset_of_tagged ht.wellFormed

end ActionGraph

/-- The sample with `pt` read from a dataset column that is called like the score. -/
def Sample.shadowed : SelectionTree :=
  { id := 0, nodes := [{ root with ownVariables := [.ofBranch "pt" "score", score] }] }

def Sample.scores : Region Nat :=
  (Region.new "scores" ⟨0, 0⟩).addWriter { keep with columns := ["score"] }

theorem Sample.shadowed_reachable : shadowed.Reachable := by
  have hpt : (SelectionTree.new 0 none).define ⟨0, 0⟩ (.ofBranch "pt" "score") =
      .ok ⟨0, [{ root with ownVariables := [.ofBranch "pt" "score"] }], []⟩ := rfl
  exact @SelectionTree.Reachable.define _ shadowed ⟨0, 0⟩ score (.define (.new 0 none) hpt) rfl

theorem ActionGraph.columns_apart_sample :
    (∃ g, build Sample.tree Sample.namer {} Sample.regions = .ok g ∧
      g.Unambiguous Sample.tree) ∧
    ∃ physical first second, build Sample.shadowed Sample.namer {} [Sample.scores] =
      .error (.naming (.collision physical first second)) ∧
        ∃ reader, first = .dataset reader ∧ Sample.shadowed.ReadsDataset reader physical := by
  obtain ⟨g, hg⟩ := Sample.exists_build
  have hcollision : build Sample.shadowed Sample.namer {} [Sample.scores] =
      .error (.naming (.collision "score" (.dataset "pt") (.assigned "score" .nominal))) := rfl
  have hshadowed := @columns_apart _ _ Sample.namer {} [Sample.scores] Sample.shadowed_reachable
  exact ⟨⟨g, hg, (columns_apart Sample.tree_reachable).1 g hg⟩, _, _, _, hcollision,
    hshadowed.2 _ _ _ _ hcollision⟩

end SelectionPlan
