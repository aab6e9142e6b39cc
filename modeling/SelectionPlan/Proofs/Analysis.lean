import SelectionPlan.Analysis.Basic
import SelectionPlan.Proofs.Meaning.Weights

/-!
# Weights in analyses

An analysis is put together from the root down: a node is weighed before there are nodes below it.
So in every analysis the weight of a node is the product of the factors on the way to it.
-/

namespace SelectionPlan

theorem foldlM_preserves {ε α β : Type} {P : β → Prop} {f : β → α → Except ε β} {xs : List α}
    {b b' : β} (hstep : ∀ b x b', P b → f b x = .ok b' → P b') (hb : P b)
    (h : xs.foldlM f b = .ok b') : P b' := by
  have hmeets : Meets (xs.foldlM f b) P fun _ => True :=
    Meets.foldlM (I := fun _ => P) hb fun _ x b _ hb => Meets.result fun b' => hstep b x b' hb
  exact hmeets.of_eq_ok h

theorem within_eq_ok {α : Type} {fault : BuildError → AnalysisFault} {r : Except BuildError α}
    {a : α} (h : BuildError.within fault r = .ok a) : r = .ok a := by
  cases r with
  | ok b =>
      cases h
      rfl
  | error e => cases h

namespace SelectionTree

variable {t t' : SelectionTree}

/-- A tree that edits made in which nodes were weighed from the oldest to the youngest. -/
def WeighedByAge (t : SelectionTree) : Prop :=
  ∃ log, History t log ∧ log.Pairwise fun w later => w.node < later.node

theorem WeighedByAge.topDown (h : t.WeighedByAge) : ∃ log, History t log ∧ t.TopDown log := by
  obtain ⟨log, hedits, hage⟩ := h
  refine ⟨log, hedits, hage.imp_of_mem fun {w later} hw _ hlt hmem => ?_⟩
  have hle := hedits.reachable.wellFormed.le_of_mem_path (hedits.lt_size w hw)
    (List.dropLast_subset _ hmem)
  omega

theorem weigh_eq_ok {n : NodeId} {node text : String} {strategy : Option String}
    (h : t.weigh n node text strategy = .ok t') :
    ∃ factor strategy, t.setWeight n factor strategy = (.ok (), t') := by
  simp only [weigh] at h
  split at h
  · obtain ⟨strategy, -, h⟩ := bind_eq_ok.mp h
    obtain ⟨factor, -, h⟩ := bind_eq_ok.mp h
    refine ⟨factor, strategy, ?_⟩
    split at h
    · cases h
      assumption
    · cases h
  · split at h
    · obtain ⟨strategy, -, h⟩ := bind_eq_ok.mp h
      obtain ⟨factor, -, h⟩ := bind_eq_ok.mp h
      refine ⟨factor, strategy, ?_⟩
      split at h
      · cases h
        assumption
      · cases h
    · cases h

theorem weighedByAge_weigh {log : List Weighing} {n : NodeId} {node text : String}
    {strategy : Option String} (hedits : History t log)
    (hage : log.Pairwise fun w later => w.node < later.node) (hlog : ∀ w ∈ log, w.node < n.index)
    (h : t.weigh n node text strategy = .ok t') : t'.WeighedByAge := by
  obtain ⟨factor, strategy, hset⟩ := weigh_eq_ok h
  refine ⟨_, .setWeight hedits hset, List.pairwise_append.mpr ⟨hage, by simp, ?_⟩⟩
  intro w hw later hlater
  rw [List.mem_singleton.mp hlater]
  exact hlog w hw

theorem addChild_index {parent n : NodeId} {name : String} {filter : Variable}
    {label : Option String} (h : t.addChild parent name filter label = .ok (n, t')) :
    n.index = t.size := by
  simp only [addChild] at h
  split at h
  · cases h
  · split at h
    · cases h
    · simp only [bind_eq_ok] at h
      obtain ⟨⟨⟩, -, m, -, h⟩ := h
      split at h
      · cases h
      · cases h
        rfl

theorem WeighedByAge.addEntry {entry : NodeEntry} (ht : t.WeighedByAge)
    (h : t.addEntry entry = .ok t') : t'.WeighedByAge := by
  obtain ⟨log, hedits, hage⟩ := ht
  simp only [SelectionTree.addEntry] at h
  split at h
  · obtain ⟨parent, -, h⟩ := bind_eq_ok.mp h
    obtain ⟨filter, -, h⟩ := bind_eq_ok.mp h
    obtain ⟨⟨n, added⟩, hadd, h⟩ := bind_eq_ok.mp h
    obtain ⟨defined, hdefine, h⟩ := bind_eq_ok.mp h
    have hadd := within_eq_ok hadd
    have hlog : ∀ w ∈ log, w.node < n.index := by
      rw [addChild_index hadd]
      exact hedits.lt_size
    have hedits : History defined log := by
      refine foldlM_preserves (P := fun t => History t log) ?_ (.addChild hedits hadd) hdefine
      intro t entry t' hedits hentry
      obtain ⟨v, -, hv⟩ := bind_eq_ok.mp hentry
      exact .define hedits (within_eq_ok hv)
    split at h
    · cases h
      exact ⟨log, hedits, hage⟩
    · exact weighedByAge_weigh hedits hage hlog h
  · cases h

end SelectionTree

theorem Analysis.weighedByAge {file : AnalysisFile} {settings : NamingSettings}
    {directory : String} {a : Analysis} (h : Analysis.ofFile file settings directory = .ok a) :
    a.tree.WeighedByAge := by
  have hnodes (t : SelectionTree) (ht : t.WeighedByAge)
      (h : (file.nodes.foldlM SelectionTree.addEntry t) = .ok a.tree) : a.tree.WeighedByAge :=
    foldlM_preserves (fun _ _ _ ht => ht.addEntry) ht h
  simp only [Analysis.ofFile] at h
  split at h
  · obtain ⟨table, -, h⟩ := bind_eq_ok.mp h
    split at h
    · rename_i t hcolumns
      obtain ⟨t', ht, h⟩ := bind_eq_ok.mp h
      cases ht
      obtain ⟨defined, hdefine, h⟩ := bind_eq_ok.mp h
      have hstart : SelectionTree.History t [] := by
        have hcolumns' := SelectionTree.History.declareColumns settings.namer
          (table.columns.map Prod.fst) (.new 0 none)
        rwa [hcolumns] at hcolumns'
      have hdeclared : SelectionTree.History
          (file.systematics.foldl SelectionTree.declareSystematic t) [] := by
        refine List.foldlRecOn (motive := fun t => SelectionTree.History t []) _ _ hstart ?_
        exact fun t hedits name _ => .declareSystematic name hedits
      have hdefined : SelectionTree.History defined [] := by
        refine foldlM_preserves (P := fun t => SelectionTree.History t []) ?_ hdeclared hdefine
        intro t entry t' hedits hentry
        obtain ⟨v, -, hv⟩ := bind_eq_ok.mp hentry
        exact .define hedits (within_eq_ok hv)
      split at h
      · obtain ⟨weighed, hweigh, h⟩ := bind_eq_ok.mp h
        cases hweigh
        obtain ⟨added, hadded, h⟩ := bind_eq_ok.mp h
        obtain ⟨regions, -, h⟩ := bind_eq_ok.mp h
        cases h
        exact hnodes _ ⟨[], hdefined, .nil⟩ hadded
      · obtain ⟨weighed, hweigh, h⟩ := bind_eq_ok.mp h
        obtain ⟨added, hadded, h⟩ := bind_eq_ok.mp h
        obtain ⟨regions, -, h⟩ := bind_eq_ok.mp h
        cases h
        exact hnodes _ (SelectionTree.weighedByAge_weigh hdefined .nil (by simp) hweigh) hadded
    · cases h
  · cases h

/-- The weight of a node, if it has one, is the product of the factors of the weighed nodes on the
way to it, from the deepest one that replaces what it inherits or else the topmost one, multiplied
from the left.  It is affected by what affects one of these factors.  The nodes may be edited in
any order in which no node is weighed after one below it, as they are in an analysis file. -/
theorem ScopeIndex.weight_cumulative :
    (∀ (file : AnalysisFile) (settings : NamingSettings) (directory : String) (a : Analysis),
      Analysis.ofFile file settings directory = .ok a →
        ∃ log, SelectionTree.History a.tree log ∧ a.tree.TopDown log) ∧
    ∀ (t : SelectionTree) (log : List Weighing) (index : ScopeIndex),
      SelectionTree.History t log → t.TopDown log → build t = .ok index →
      (∀ w ∈ log, ∃ d, index.columnAt? w.node w.factor.name = some d ∧ d.ref.node = w.node) ∧
      ∀ i < t.size,
        (t.weight i = none ↔ ∀ w ∈ log, w.node ∉ t.path i) ∧
        ∀ column, t.weight i = some column → ∃ first rest,
          InEffect (t.weighingsAlong log i) first rest ∧
            Multiplies t index i column first rest := by
  refine ⟨fun file settings directory a ha => (Analysis.weighedByAge ha).topDown, ?_⟩
  intro t log index hedits htop hindex
  have h := lawful_of_build hedits.reachable.wellFormed hindex
  have hw := hedits.weighed htop
  refine ⟨fun w hmem => ?_, fun i hi => ?_⟩
  · obtain ⟨node, hnode, hdefines, -⟩ := SelectionTree.stands_ownWeight (hw.stands w hmem)
    exact h.columnAt?_of_defines hnode hdefines
  · obtain ⟨hnone, hsome⟩ := h.weight_multiplies hw hi
    refine ⟨?_, hsome⟩
    rw [hnone, SelectionTree.weighingsAlong, List.filterMap_eq_nil_iff]
    simp only [List.find?_eq_none, decide_eq_true_eq]
    constructor
    · intro hnothing w hmem hpath
      exact hnothing w.node hpath w hmem rfl
    · rintro hnothing m hm w hmem rfl
      exact hnothing w hmem hm

namespace Sample

def scaled : SelectionTree :=
  (tree.setWeight ⟨0, 1⟩ (.existing "scale") .multiplicative).2

def weighings : List Weighing :=
  [⟨0, score, .replace⟩, ⟨1, .existing "scale", .multiplicative⟩]

theorem history_scaled : SelectionTree.History scaled weighings := by
  have hpt : (SelectionTree.new 0 none).define ⟨0, 0⟩ pt = .ok ⟨0, [root], []⟩ := rfl
  have hscore : SelectionTree.setWeight ⟨0, [root], []⟩ ⟨0, 0⟩ score .replace =
      (.ok (), ⟨0, [{ root with ownVariables := [pt, score], weight := some "score" }], []⟩) := rfl
  have hhard : SelectionTree.addChild
      ⟨0, [{ root with ownVariables := [pt, score], weight := some "score" }], []⟩ ⟨0, 0⟩ "hard"
      hard none = .ok (⟨0, 1⟩, tree) := rfl
  have hscale : tree.setWeight ⟨0, 1⟩ (.existing "scale") .multiplicative = (.ok (), scaled) := rfl
  exact .setWeight (.addChild (.setWeight (.define (.new 0 none) hpt) hscore) hhard) hscale

theorem inEffect_weighings {first : Weighing} {rest : List Weighing}
    (h : InEffect weighings first rest) : first :: rest = weighings := by
  rcases h.starts with hreplace | hall
  · obtain ⟨before, hbefore⟩ := h.suffix
    simp only [weighings] at hbefore ⊢
    match before with
    | [] => exact hbefore
    | [_] =>
        cases hbefore
        cases hreplace
    | _ :: _ :: _ => simp at hbefore
  · exact hall

end Sample

/-- Hard events weigh as much as their score times their scale. -/
theorem ScopeIndex.weight_cumulative_scaled :
    Sample.scaled.weight 1 = some "weight_hard" ∧
      ∀ (table : EventTable) (s : Systematic) (row : Nat),
        table.read s row (Sample.scaled.visible 1) "weight_hard" =
          table.read s row (Sample.scaled.visible 0) "score" *
            table.read s row (Sample.scaled.visible 1) "scale" := by
  have htop : Sample.scaled.TopDown Sample.weighings := by
    simp [Sample.weighings, SelectionTree.TopDown, SelectionTree.path_root]
  have hweight : Sample.scaled.weight 1 = some "weight_hard" := by decide
  have hsize : 1 < Sample.scaled.size := by decide
  obtain ⟨index, hindex⟩ : ∃ index, build Sample.scaled = .ok index :=
    exists_ok_of_isOk (by decide)
  obtain ⟨-, hnodes⟩ := weight_cumulative.2 _ _ index Sample.history_scaled htop hindex
  obtain ⟨first, rest, heffect, hproduct⟩ := (hnodes 1 hsize).2 _ hweight
  have halong : Sample.scaled.weighingsAlong Sample.weighings 1 = Sample.weighings := rfl
  rw [halong] at heffect
  have hall := Sample.inEffect_weighings heffect
  simp only [Sample.weighings, List.cons.injEq] at hall
  obtain ⟨rfl, rfl⟩ := hall
  exact ⟨hweight, hproduct.value⟩

end SelectionPlan
