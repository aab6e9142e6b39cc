import SelectionPlan.Backend.Memory
import SelectionPlan.Proofs.Execution.Reached
import SelectionPlan.Proofs.Execution.Reports
import SelectionPlan.Proofs.Graph.Plannable
import SelectionPlan.Proofs.Naming
import SelectionPlan.Proofs.Output.Paths

/-!
# The files of a run

The file writers put every output into a file that is named for its region, systematic and writer.
No two outputs share a file, and all files are below the directory of the writers, unless a region
is named after the directory above or requests a variation with the label of nominal results.
-/

namespace SelectionPlan

variable {H ω : Type}

/-! ### Handed-over outputs -/

def Handover.output (h : Handover ω) : String × Systematic × Writer ω :=
  (h.context.region, h.context.systematic, h.writer)

def Region.outputs (r : Region ω) : List (String × Systematic × Writer ω) :=
  r.systematics.flatMap fun s => r.writers.map fun w => (r.name, s, w)

def RegionPlan.output? (region : RegionPlan) (writers : List (Writer ω)) (entry : PlannedOutput) :
    Option (String × Systematic × Writer ω) :=
  (writers[entry.2.2.1]?).map fun w => (region.name, entry.1, w)

namespace Schedule

variable {s : Schedule ω} {answers : Answers} {region : RegionPlan} {writers : List (Writer ω)}

theorem output_of_delivery {entry : PlannedOutput} {h : Handover ω}
    (hcall : s.delivery answers region writers entry = .call h) :
    region.output? writers entry = some h.output := by
  obtain ⟨systematic, plan, index, id⟩ := entry
  simp only [delivery] at hcall
  split at hcall
  · cases hcall
  · split at hcall
    · cases hcall
    · rename_i w hw
      split at hcall
      · cases hcall
      · cases hcall
        rw [RegionPlan.output?, hw, Option.map_some]
        rfl
  · cases hcall

theorem deliveries_outputs (entries : List PlannedOutput) :
    (((s.deliveries answers region writers entries).filterMap Delivery.handover?).map
      Handover.output).Sublist (entries.filterMap (region.output? writers)) := by
  induction entries with
  | nil => exact List.Sublist.refl _
  | cons entry rest ih =>
      have hrest : (((s.deliveries answers region writers rest).filterMap
          Delivery.handover?).map Handover.output).Sublist
          ((entry :: rest).filterMap (region.output? writers)) :=
        ih.trans ((List.sublist_cons_self entry rest).filterMap _)
      cases hd : s.delivery answers region writers entry with
      | call h =>
          have hcall : (Delivery.call h).handover? = some h := rfl
          rw [deliveries_cons (by simp [hd]), hd, List.filterMap_cons_some hcall, List.map_cons,
            List.filterMap_cons_some (output_of_delivery hd)]
          exact ih.cons_cons _
      | failed failure =>
          have hnone : (rest.map fun _ => (.aborted : Delivery ω)).filterMap
              Delivery.handover? = [] := by
            rw [List.filterMap_map]
            exact List.filterMap_eq_nil_iff.mpr fun _ _ => rfl
          rw [deliveries, hd, List.filterMap_cons_none rfl, hnone]
          exact List.nil_sublist _
      | _ =>
          rw [deliveries_cons (by simp [hd]), hd, List.filterMap_cons_none rfl]
          exact hrest

variable {t : SelectionTree} {namer : Namer} {options : BuildOptions} {regions : List (Region ω)}

theorem handovers_outputs (ht : t.Reachable) (hs : build t namer options regions = .ok s)
    (answers : Answers) : ((s.handovers answers).map Handover.output).Sublist
      ((s.graph.kept regions).flatMap Region.outputs) := by
  rw [handovers, List.map_flatMap]
  refine aligned_flatMap_sublist (outputs_of_build ht hs) ?_
  rintro r - plan ⟨hname, hwriters, hkeys⟩
  have hasked : (Execution.outputsOf plan).filterMap (plan.output? r.writers) = r.outputs := by
    have hfound := congrArg (List.filterMap fun key => key.2.map fun w => (plan.name, key.1, w))
      (Execution.map_positions r.systematics r.writers)
    rw [← hkeys, List.map_map, List.filterMap_map, List.filterMap_flatMap] at hfound
    refine hfound.trans ?_
    rw [Region.outputs, hname]
    refine List.flatMap_congr fun systematic _ => ?_
    rw [List.filterMap_map]
    exact congrFun List.filterMap_eq_map _
  rw [regionDeliveries, ← hasked, hwriters]
  exact deliveries_outputs _

end Schedule

/-! ### Places for files -/

section Places

variable {directory nominal : String}

def WriterCall.file (directory nominal : String) (call : WriterCall) : List String :=
  resolvePath (Outputs.filePath directory call.context nominal (call.writer ++ ".toml"))

/-- Where an output is put below the directory of the writers.  A region may be named after the
directory itself. -/
def outputPlace (nominal region : String) (s : Systematic) (writer : String) : List String :=
  (if region = "." then [] else [region]) ++ [s.label nominal, writer ++ ".toml"]

theorem isPathName_toml {writer : String} (h : '/' ∉ writer.toList) :
    IsPathName (writer ++ ".toml") := by
  have hlong : 5 ≤ (writer ++ ".toml").length := by
    rw [String.length_append]
    exact Nat.le_add_left 5 _
  refine ⟨?_, ?_, ?_, ?_⟩
  · intro heq
    rw [heq] at hlong
    exact absurd hlong (by decide)
  · intro heq
    rw [heq] at hlong
    exact absurd hlong (by decide)
  · intro heq
    rw [heq] at hlong
    exact absurd hlong (by decide)
  · rw [String.toList_append, List.mem_append, not_or]
    exact ⟨h, by decide⟩

theorem file_eq {call : WriterCall} (hregion : isRegionName call.context.region = true)
    (hup : call.context.region ≠ "..")
    (hlabel : IsPathName (call.context.systematic.label nominal))
    (hwriter : '/' ∉ call.writer.toList) : call.file directory nominal = resolvePath directory ++
      outputPlace nominal call.context.region call.context.systematic call.writer := by
  obtain ⟨hempty, hslash, -⟩ := isRegionName_iff.mp hregion
  have hfile := isPathName_toml hwriter
  rw [WriterCall.file, Outputs.filePath, resolvePath_joinPath _ hfile.noSlash,
    resolvePath_joinPath _ hlabel.noSlash, resolvePath_joinPath _ hslash, resolveStep_name hfile,
    resolveStep_name hlabel, outputPlace]
  by_cases hhere : call.context.region = "."
  · simp [hhere, resolveStep]
  · rw [resolveStep_name ⟨hempty, hhere, hup, hslash⟩, if_neg hhere]
    simp

/-- Labels tell systematics apart but for a variation with the label of the nominal one. -/
theorem Systematic.label_inj {s s' : Systematic} (hs : s ≠ .variation nominal)
    (hs' : s' ≠ .variation nominal) (h : s.label nominal = s'.label nominal) : s = s' := by
  cases s <;> cases s' <;> simp_all [Systematic.label]

theorem outputPlace_inj {region region' writer writer' : String} {s s' : Systematic}
    (hs : s ≠ .variation nominal) (hs' : s' ≠ .variation nominal)
    (h : outputPlace nominal region s writer = outputPlace nominal region' s' writer') :
    region = region' ∧ s = s' ∧ writer = writer' := by
  have hparts : region = region' ∧ s.label nominal = s'.label nominal ∧
      writer ++ ".toml" = writer' ++ ".toml" := by
    by_cases hr : region = "." <;> by_cases hr' : region' = "." <;>
      simp_all [outputPlace]
  obtain ⟨hregion, hlabel, hfile⟩ := hparts
  refine ⟨hregion, Systematic.label_inj hs hs' hlabel, ?_⟩
  have hchars := congrArg String.toList hfile
  rw [String.toList_append, String.toList_append] at hchars
  exact String.toList_inj.mp (List.append_cancel_right hchars)

end Places

/-! ### Writing -/

theorem Outputs.writeDocument_spec (writer path : String) (context : WriteContext)
    (document : Toml.Document) (o : Outputs) :
    (writeDocument writer path context document o).2.files =
        (o.files.writeFile (resolvePath path) document.write).2 ∧
      ((writeDocument writer path context document o).1 = .ok () →
        (o.files.writeFile (resolvePath path) document.write).1 = .ok ()) := by
  rw [writeDocument]
  split
  · rename_i files hfiles
    rw [hfiles]
    exact ⟨rfl, fun _ => rfl⟩
  · rename_i fault files hfiles
    rw [hfiles]
    refine ⟨rfl, fun hok => ?_⟩
    cases hok

/-- The writers of files below a directory, where nominal results have the given label. -/
inductive Writer.IsFileWriter (directory nominal : String) : Writer Outputs → Prop
  | cutflow (weight : Option String) :
      IsFileWriter directory nominal (.cutflow directory nominal weight)
  | object (name : String) (columns : List String) (weight : Option String) :
      IsFileWriter directory nominal (.object directory nominal name columns weight)

namespace Handover

variable {directory nominal : String} {h : Handover Outputs}

theorem write_eq (hw : h.writer.IsFileWriter directory nominal) (o : Outputs) :
    ∃ document, h.writer.write h.context h.result o = Outputs.writeDocument h.writer.name
      (Outputs.filePath directory h.context nominal (h.writer.name ++ ".toml")) h.context
      document o := by
  obtain ⟨writer, context, result⟩ := h
  cases hw with
  | cutflow weight =>
      have hfile : "cutflow" ++ ".toml" = "cutflow.toml" := by decide
      exact ⟨Outputs.cutflowDocument context nominal result, by simp only [hfile]⟩
  | object name columns weight =>
      exact ⟨Outputs.objectDocument context nominal result, by dsimp only⟩

theorem store_other (hw : h.writer.IsFileWriter directory nominal) {p : List String}
    (hp : p ≠ h.call.file directory nominal) (o : Outputs) :
    (h.store o).files.file? p = o.files.file? p := by
  obtain ⟨document, hwrite⟩ := write_eq hw o
  rw [store, hwrite, (Outputs.writeDocument_spec _ _ _ _ _).1]
  exact FileTree.writeFile_other hp o.files document.write

theorem store_ok (hw : h.writer.IsFileWriter directory nominal) {o : Outputs}
    (hok : (h.writer.write h.context h.result o).1 = .ok ()) :
    ∃ content, (h.store o).files.file? (h.call.file directory nominal) = some content := by
  obtain ⟨document, hwrite⟩ := write_eq hw o
  rw [hwrite] at hok
  rw [store, hwrite, (Outputs.writeDocument_spec _ _ _ _ _).1]
  exact ⟨_, FileTree.writeFile_ok ((Outputs.writeDocument_spec _ _ _ _ _).2 hok)⟩

theorem foldl_store_other {handovers : List (Handover Outputs)}
    (hw : ∀ h ∈ handovers, h.writer.IsFileWriter directory nominal) {p : List String}
    (hp : ∀ h ∈ handovers, h.call.file directory nominal ≠ p) (o : Outputs) :
    (handovers.foldl store o).files.file? p = o.files.file? p := by
  induction handovers generalizing o with
  | nil => rfl
  | cons h rest ih =>
      rw [List.forall_mem_cons] at hw hp
      rw [List.foldl_cons, ih hw.2 hp.2, store_other hw.1 (Ne.symm hp.1)]

/-- With a file for each output, what is put into a file is still there at the end. -/
theorem foldl_store_kept {before after : List (Handover Outputs)}
    (hw : ∀ g ∈ after, g.writer.IsFileWriter directory nominal)
    (hnodup : ((before ++ h :: after).map fun g => g.call.file directory nominal).Nodup)
    (o : Outputs) :
    ((before ++ h :: after).foldl store o).files.file? (h.call.file directory nominal) =
      (h.store (before.foldl store o)).files.file? (h.call.file directory nominal) := by
  rw [List.map_append, List.map_cons] at hnodup
  have hlater := (List.nodup_cons.mp (List.nodup_append.mp hnodup).2.1).1
  rw [List.foldl_append, List.foldl_cons]
  exact foldl_store_other hw (fun g hg heq => hlater (List.mem_map.mpr ⟨g, hg, heq⟩)) _

end Handover

/-! ### Runs -/

theorem NameTag.isPathName_of_accepted {tag : NameTag} {name : String}
    (h : tag.fault? name = none) : IsPathName name := by
  obtain ⟨hempty, hchars⟩ := identifier_of_accepted h
  have hfree (c : Char) (hc : isIdentifierRest c = false) : c ∉ name.toList := by
    intro hmem
    rw [hchars c hmem] at hc
    cases hc
  refine ⟨hempty, ?_, ?_, hfree '/' (by decide)⟩
  · rintro rfl
    exact hfree '.' (by decide) (by decide)
  · rintro rfl
    exact hfree '.' (by decide) (by decide)

structure Region.WritesBelow (directory nominal : String) (r : Region Outputs) : Prop where
  writers : ∀ w ∈ r.writers, w.IsFileWriter directory nominal ∧ IsPathName w.name
  names : (r.writers.map fun w => w.name).Nodup

/-- A region whose files cannot get into the way of others: it is not named after the directory
above, and it does not request a variation with the label of nominal results. -/
structure Region.StandsApart (nominal : String) (r : Region ω) : Prop where
  ne_up : r.name ≠ ".."
  label : .variation nominal ∉ r.systematics

namespace Schedule

section Asked

variable {t : SelectionTree} {tag : NameTag} {options : BuildOptions} {regions : List (Region ω)}
  {s : Schedule ω} {nominal : String}

theorem isPathName_label (ht : t.Reachable) (hs : build t (.tagged tag) options regions = .ok s)
    (hnominal : IsPathName nominal) {r : Region ω} (hr : r ∈ s.graph.kept regions)
    {systematic : Systematic} (hsystematic : systematic ∈ r.systematics) :
    IsPathName (systematic.label nominal) := by
  cases systematic with
  | nominal => exact hnominal
  | variation name =>
      obtain ⟨hgraph, -⟩ := graph_of_build hs
      obtain ⟨-, hchecked, index, -, -, -, -, hindex, hnames, -⟩ :=
        ActionGraph.build_eq_ok.mp hgraph
      have hlaw := ScopeIndex.lawful_of_build ht.wellFormed hindex
      rw [ActionGraph.kept_of_build hindex hgraph, List.mem_filter] at hr
      obtain ⟨place, hplace⟩ := hlaw.exists_place (lt_size_of_checkRegions hchecked r hr.1)
      have hknown := (hlaw.accept?_isSome hplace).mp hr.2
      have haccepted := (hlaw.checkNames_eq_ok.mp hnames).variations name
        (hknown name hsystematic).varies
      exact NameTag.isPathName_of_accepted (Namer.checkSystematic_tagged.mp haccepted)

theorem nodup_outputs (hregions : ∀ r ∈ regions, r.Reachable)
    (hwriters : ∀ r ∈ regions, (r.writers.map fun w => w.name).Nodup)
    (hnames : ((s.graph.kept regions).map Region.name).Nodup) :
    (((s.graph.kept regions).flatMap Region.outputs).map
      fun output => (output.1, output.2.1, output.2.2.name)).Nodup := by
  rw [List.map_flatMap, List.nodup_flatMap]
  constructor
  · intro r hr
    have hmem := ActionGraph.mem_of_mem_kept hr
    have hsystematics := nodup_of_ascending (hregions r hmem).systematics.1
    rw [Region.outputs, List.map_flatMap, List.nodup_flatMap]
    constructor
    · intro systematic _
      rw [List.map_map]
      refine List.Nodup.of_map (fun output => output.2.2) ?_
      rw [List.map_map]
      exact hwriters r hmem
    · refine hsystematics.imp fun {a b} hne => ?_
      simp only [Function.onFun, List.disjoint_left, List.map_map, List.mem_map]
      rintro _ ⟨w, -, rfl⟩ ⟨w', -, heq⟩
      exact hne (congrArg (fun output => output.2.1) heq).symm
  · rw [List.Nodup, List.pairwise_map] at hnames
    refine hnames.imp fun {a b} hne => ?_
    simp only [Function.onFun, List.disjoint_left, Region.outputs, List.mem_map, List.mem_flatMap]
    rintro _ ⟨_, ⟨s, -, w, -, rfl⟩, rfl⟩ ⟨_, ⟨s', -, w', -, rfl⟩, heq⟩
    exact hne (congrArg Prod.fst heq).symm

end Asked

section Handed

variable {t : SelectionTree} {tag : NameTag} {options : BuildOptions}
  {regions : List (Region Outputs)} {s : Schedule Outputs} {directory nominal : String}
  {answers : Answers} (ht : t.Reachable) (hs : build t (.tagged tag) options regions = .ok s)
include ht hs

theorem asked_of_handover {h : Handover Outputs} (hh : h ∈ s.handovers answers) :
    ∃ r ∈ s.graph.kept regions, h.context.region = r.name ∧
      h.context.systematic ∈ r.systematics ∧ h.writer ∈ r.writers := by
  have houtput := (handovers_outputs ht hs answers).subset (List.mem_map_of_mem hh)
  obtain ⟨r, hr, hasked⟩ := List.mem_flatMap.mp houtput
  obtain ⟨systematic, hsystematic, hw⟩ := List.mem_flatMap.mp hasked
  obtain ⟨w, hw, heq⟩ := List.mem_map.mp hw
  obtain ⟨hregion, hsame, hwriter⟩ : r.name = h.context.region ∧
      systematic = h.context.systematic ∧ w = h.writer := by
    simpa [Handover.output] using heq
  exact ⟨r, hr, hregion.symm, hsame ▸ hsystematic, hwriter ▸ hw⟩

variable (hfiles : ∀ r ∈ regions, r.WritesBelow directory nominal)
  (hapart : ∀ r ∈ regions, r.StandsApart nominal)

include hfiles in
theorem isFileWriter_of_handover {h : Handover Outputs} (hh : h ∈ s.handovers answers) :
    h.writer.IsFileWriter directory nominal ∧ IsPathName h.writer.name := by
  obtain ⟨r, hr, -, -, hw⟩ := asked_of_handover ht hs hh
  exact (hfiles r (ActionGraph.mem_of_mem_kept hr)).writers _ hw

variable (hnominal : IsPathName nominal)

include hfiles hapart hnominal

theorem file_of_handover {h : Handover Outputs} (hh : h ∈ s.handovers answers) :
    h.call.file directory nominal = resolvePath directory ++
      outputPlace nominal h.context.region h.context.systematic h.writer.name := by
  obtain ⟨r, hr, hname, hsystematic, -⟩ := asked_of_handover ht hs hh
  have hmem := ActionGraph.mem_of_mem_kept hr
  obtain ⟨hgraph, -⟩ := graph_of_build hs
  obtain ⟨-, hchecked, -⟩ := ActionGraph.build_eq_ok.mp hgraph
  have hregion := ((checkRegions_eq_ok.mp hchecked).1 r (mem_sortStable.mpr hmem)).1
  refine file_eq (hname ▸ hregion) (hname ▸ (hapart r hmem).ne_up) ?_ ?_
  · exact isPathName_label ht hs hnominal hr hsystematic
  · exact (isFileWriter_of_handover ht hs hfiles hh).2.noSlash

theorem nodup_files (hregions : ∀ r ∈ regions, r.Reachable) :
    ((s.handovers answers).map fun h => h.call.file directory nominal).Nodup := by
  obtain ⟨hgraph, -⟩ := graph_of_build hs
  have hnames : ((s.graph.kept regions).map Region.name).Nodup := by
    rw [← ActionGraph.names_planned ht hgraph]
    exact ActionGraph.nodup_planned ht hgraph
  have hkeys := (nodup_outputs hregions (fun r hr => (hfiles r hr).names) hnames).sublist
    ((handovers_outputs ht hs answers).map fun output => (output.1, output.2.1, output.2.2.name))
  rw [List.map_map] at hkeys
  rw [List.Nodup, List.pairwise_map] at hkeys ⊢
  refine hkeys.imp_of_mem fun {h h'} hh hh' hne heq => hne ?_
  have hlabel {g : Handover Outputs} (hg : g ∈ s.handovers answers) :
      g.context.systematic ≠ .variation nominal := by
    obtain ⟨r, hr, -, hsystematic, -⟩ := asked_of_handover ht hs hg
    intro hsame
    exact (hapart r (ActionGraph.mem_of_mem_kept hr)).label (hsame ▸ hsystematic)
  rw [file_of_handover ht hs hfiles hapart hnominal hh,
    file_of_handover ht hs hfiles hapart hnominal hh'] at heq
  obtain ⟨hregion, hsystematic, hwriter⟩ :=
    outputPlace_inj (hlabel hh) (hlabel hh') (List.append_cancel_left heq)
  exact Prod.ext hregion (Prod.ext hsystematic hwriter)

end Handed

end Schedule

namespace Execution

variable {s : Schedule Outputs} {b : Backend H} {x : Execution H Outputs} {t : SelectionTree}
  {tag : NameTag} {options : BuildOptions} {regions : List (Region Outputs)}
  {directory nominal : String}

/-- Unless a region is named after the directory above or requests a variation with the label of
nominal results, a run puts every output into a file of its own, below the directory of the
writers.  What it has put there is there at the end, and no other file changes. -/
theorem run_files_apart (ht : t.Reachable) (hregions : ∀ r ∈ regions, r.Reachable)
    (hfiles : ∀ r ∈ regions, r.WritesBelow directory nominal) (hnominal : IsPathName nominal)
    (hapart : ∀ r ∈ regions, r.StandsApart nominal)
    (hs : Schedule.build t (.tagged tag) options regions = .ok s) (hx : Reached s b x) :
    ∃ handovers : List (Handover Outputs), Handed x x.run.2 handovers ∧
      (handovers.map fun h => h.call.file directory nominal).Nodup ∧
      (∀ h ∈ handovers, ∃ names, names ≠ [] ∧
        h.call.file directory nominal = resolvePath directory ++ names) ∧
      (∀ before h after, handovers = before ++ h :: after →
        (h.writer.write h.context h.result (before.foldl Handover.store x.output)).1 = .ok () →
        ∃ content, (h.store (before.foldl Handover.store x.output)).files.file?
            (h.call.file directory nominal) = some content ∧
          x.run.2.output.files.file? (h.call.file directory nominal) = some content) ∧
      ∀ p, (∀ h ∈ handovers, h.call.file directory nominal ≠ p) →
        x.run.2.output.files.file? p = x.output.files.file? p := by
  obtain ⟨hwired, -⟩ := Schedule.order_of_build ht hs
  obtain ⟨hgraph, -⟩ := Schedule.graph_of_build hs
  obtain ⟨p, accepted, d, -, -, -, -, -, hbuilt⟩ := ActionGraph.built_of_build ht hgraph
  obtain ⟨-, -, hhanded⟩ := run_spec hwired hbuilt.within (hx.settled ht hs)
  have hnodup : ((s.handovers (b.answers s.graph.actions)).map fun h =>
      h.call.file directory nominal).Nodup :=
    Schedule.nodup_files ht hs hfiles hapart hnominal hregions
  have hwriters : ∀ h ∈ s.handovers (b.answers s.graph.actions),
      h.writer.IsFileWriter directory nominal := fun h hh =>
    (Schedule.isFileWriter_of_handover ht hs hfiles hh).1
  refine ⟨_, hhanded, hnodup, fun h hh => ⟨_, ?_,
    Schedule.file_of_handover ht hs hfiles hapart hnominal hh⟩, ?_, ?_⟩
  · simp [outputPlace]
  · intro before h after hsplit hok
    rw [hsplit] at hnodup hwriters
    obtain ⟨content, hcontent⟩ := Handover.store_ok (hwriters h (by simp)) hok
    refine ⟨content, hcontent, ?_⟩
    rw [hhanded.output, hsplit, Handover.foldl_store_kept (fun g hg => hwriters g (by simp [hg]))
      hnodup, hcontent]
  · intro p hp
    rw [hhanded.output]
    exact Handover.foldl_store_other hwriters hp _

end Execution

/-! Regions of the sample with writers of files. -/

namespace Sample

def cutflow : Writer Outputs := .cutflow "out" "nominal" none

def filed : List (Region Outputs) :=
  [(((Region.new "signal" ⟨0, 1⟩).request (.variation "up")).addWriter cutflow).addWriter
      (.object "out" "nominal" "object" ["pt"] none),
    (Region.new "control" ⟨0, 0⟩).addWriter cutflow]

/-- A region that is named after the directory above, and one that requests a variation with the
label of nominal results. -/
def astray : List (Region Outputs) :=
  [(Region.new ".." ⟨0, 0⟩).addWriter cutflow,
    ((Region.new "control" ⟨0, 0⟩).request (.variation "nominal")).addWriter cutflow]

theorem isPathName_nominal : IsPathName "nominal" := by
  constructor <;> decide

theorem cutflow_isFileWriter : cutflow.IsFileWriter "out" "nominal" ∧ IsPathName cutflow.name := by
  refine ⟨.cutflow none, ?_⟩
  constructor <;> decide

end Sample

namespace Execution

/-- The five results of the sample have five files. -/
theorem run_files_apart_sample : ∃ s : Schedule Outputs,
    Schedule.build Sample.tree Sample.namer {} Sample.filed = .ok s ∧
      let written := (construct s Sample.table.backend {}).run.2.written
      written.length = 5 ∧ (written.map (WriterCall.file "out" "nominal")).Nodup ∧
        ∀ call ∈ written, ∃ names, names ≠ [] ∧
          call.file "out" "nominal" = resolvePath "out" ++ names := by
  have hrun : ((Schedule.build Sample.tree Sample.namer {} Sample.filed).toOption.map fun s =>
      (construct s Sample.table.backend {}).run.2.written.length) = some 5 := by decide +kernel
  obtain ⟨s, hs, hlength⟩ := exists_ok_of_toOption hrun
  have hobject : IsPathName "object" := by constructor <;> decide
  have hfiles : ∀ r ∈ Sample.filed, r.WritesBelow "out" "nominal" := by
    refine List.forall_mem_cons.mpr ⟨⟨?_, by decide⟩, List.forall_mem_singleton.mpr ⟨?_, by decide⟩⟩
    · exact List.forall_mem_cons.mpr ⟨Sample.cutflow_isFileWriter,
        List.forall_mem_singleton.mpr ⟨.object "object" ["pt"] none, hobject⟩⟩
    · exact List.forall_mem_singleton.mpr Sample.cutflow_isFileWriter
  have hregions : ∀ r ∈ Sample.filed, r.Reachable :=
    List.forall_mem_cons.mpr ⟨.addWriter _ (.addWriter _ (.request _ (.new _ _))),
      List.forall_mem_singleton.mpr (.addWriter _ (.new _ _))⟩
  have hapart : ∀ r ∈ Sample.filed, r.StandsApart "nominal" :=
    List.forall_mem_cons.mpr ⟨⟨by decide, by decide⟩,
      List.forall_mem_singleton.mpr ⟨by decide, by decide⟩⟩
  obtain ⟨handovers, hhanded, hnodup, hbelow, -⟩ := run_files_apart Sample.tree_reachable hregions
    hfiles Sample.isPathName_nominal hapart hs (.construct {} : Reached s Sample.table.backend _)
  obtain ⟨hwired, hready, -⟩ := Schedule.order_of_build Sample.tree_reachable hs
  have hwritten : (construct s Sample.table.backend {}).run.2.written =
      handovers.map Handover.call := by
    rw [hhanded.written, (constructed hwired hready Sample.table.backend {}).written,
      List.nil_append]
  refine ⟨s, hs, hlength, ?_, ?_⟩
  · rw [hwritten, List.map_map]
    exact hnodup
  · rw [hwritten]
    exact List.forall_mem_map.mpr hbelow

/-- One result is put outside the directory of the writers, and two into one file. -/
theorem run_files_astray : ∃ s : Schedule Outputs,
    (Sample.tree.declareSystematic "nominal").Reachable ∧ IsPathName "nominal" ∧
      (∀ r ∈ Sample.astray, r.Reachable ∧ r.WritesBelow "out" "nominal") ∧
      Schedule.build (Sample.tree.declareSystematic "nominal") Sample.namer {} Sample.astray =
        .ok s ∧
      let files := (construct s Sample.table.backend {}).run.2.written.map
        (WriterCall.file "out" "nominal")
      files = [["nominal", "cutflow.toml"], ["out", "control", "nominal", "cutflow.toml"],
        ["out", "control", "nominal", "cutflow.toml"]] ∧
      ¬ files.Nodup ∧ ¬ ∀ file ∈ files, resolvePath "out" <+: file := by
  have hrun : ((Schedule.build (Sample.tree.declareSystematic "nominal") Sample.namer {}
      Sample.astray).toOption.map fun s => (construct s Sample.table.backend {}).run.2.written.map
        (WriterCall.file "out" "nominal")) =
      some [["nominal", "cutflow.toml"], ["out", "control", "nominal", "cutflow.toml"],
        ["out", "control", "nominal", "cutflow.toml"]] := by decide +kernel
  obtain ⟨s, hs, hfiles⟩ := exists_ok_of_toOption hrun
  have hwriters {r : Region Outputs} (hr : r.writers = [Sample.cutflow]) :
      r.WritesBelow "out" "nominal" := by
    refine ⟨?_, ?_⟩
    · rw [hr]
      exact List.forall_mem_singleton.mpr Sample.cutflow_isFileWriter
    · rw [hr]
      exact List.nodup_singleton _
  refine ⟨s, .declareSystematic _ Sample.tree_reachable, Sample.isPathName_nominal,
    List.forall_mem_cons.mpr ⟨⟨.addWriter _ (.new _ _), hwriters rfl⟩,
      List.forall_mem_singleton.mpr ⟨.addWriter _ (.request _ (.new _ _)), hwriters rfl⟩⟩, hs, ?_⟩
  simp only [hfiles]
  exact ⟨trivial, by decide, by decide⟩

end Execution
end SelectionPlan
