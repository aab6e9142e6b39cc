import SelectionPlan.Backend.Memory
import SelectionPlan.Proofs.Execution.Exchange
import SelectionPlan.Proofs.Execution.Journal
import SelectionPlan.Proofs.Graph.Uncosted

/-!
# Costs are advisory

Costs decide in which order actions are constructed, and nothing else.  What an action is built as
depends on its lineage alone, so after construction the executions of two schedules differ in their
journals only, and from there on they go alike.
-/

namespace SelectionPlan

variable {H ω : Type} {t t' : SelectionTree} {namer : Namer} {options options' : BuildOptions}
  {regions : List (Region ω)} {s s' : Schedule ω} {b : Backend H} {output : ω}
  {cost : Action → Float} {id : ActionId} {a : Action}

/-! ### Construction in another order -/

def Backend.builds (b : Backend H) (actions : List Action) (a : Action) :
    Except RealizationError (Option (Built H)) :=
  (b.constructAlong (lineage actions a.id)).mapError a.errorOf

theorem Backend.builds_recost (b : Backend H) (actions : List Action) (a : Action) :
    b.builds (actions.map (Action.recost cost)) (a.recost cost) = b.builds actions a := by
  have hid : (a.recost cost).id = a.id := rfl
  have hlineage : lineage (actions.map (Action.recost cost)) a.id =
      (lineage actions a.id).map (Action.recost cost) :=
    lineage_map (f := Action.recost cost) (fun _ => rfl) a.id
  have halong := (b.along_map (f := Action.recost cost) (fun _ => rfl) (fun _ _ => rfl)
    (lineage actions a.id)).1
  rw [builds, hid, hlineage, halong]
  rfl

namespace Execution

theorem builtOf_construct (ht : t.Reachable)
    (hs : Schedule.build t namer options regions = .ok s) (ha : s.graph.actions[id]? = some a)
    (b : Backend H) (output : ω) : ∃ r, (construct s b output).builtOf id = some r ∧
      b.builds s.graph.actions a = r.map some := by
  obtain ⟨hwired, hready, hall⟩ := Schedule.order_of_build ht hs
  have hx := constructed hwired hready b output
  obtain ⟨r, hr, halong⟩ := hx.built id (hall id a ha)
  refine ⟨r, hr, ?_⟩
  rw [hx.schedule, hx.backend] at halong
  rw [Backend.builds, hwired.id_eq id a ha, halong]
  cases r with
  | ok made => rfl
  | error e =>
      have hget : (construct s b output).schedule.graph.actions[id]? = some a := by
        rw [hx.schedule, ha]
      have hblames := (attributed_construct hwired b output).built id a e hget hr
      rw [rooted_error, Except.mapError, ← hblames.eq]
      rfl

theorem Twins.of_fields {x y : Execution H ω} (h : x.schedule.Agrees cost y.schedule)
    (hbackend : y.backend = x.backend) (hbuilt : y.built = x.built) (hslots : y.slots = x.slots)
    (houtput : y.output = x.output) : Twins cost x.journal y.journal x y := by
  refine ⟨y.schedule, [], h, (List.append_nil _).symm, ?_⟩
  obtain ⟨schedule, backend, built, slots, journal, output⟩ := y
  simp_all

theorem construct_twins (ht : t.Reachable) (ht' : t'.Reachable)
    (hs : Schedule.build t namer options regions = .ok s)
    (hs' : Schedule.build t' namer options' regions = .ok s') (h : s.Agrees cost s')
    (b : Backend H) (output : ω) :
    Twins cost (construct s b output).journal (construct s' b output).journal
      (construct s b output) (construct s' b output) := by
  obtain ⟨hwired, hready, -⟩ := Schedule.order_of_build ht hs
  obtain ⟨hwired', hready', -⟩ := Schedule.order_of_build ht' hs'
  have hx := constructed hwired hready b output
  have hy := constructed hwired' hready' b output
  have hsize : s'.graph.size = s.graph.size := by
    rw [ActionGraph.size, h.actions, List.length_map, ActionGraph.size]
  have hlength := hx.length
  have hlength' := hy.length
  have hbuilt : (construct s' b output).built = (construct s b output).built := by
    refine List.ext_getElem (by rw [hlength, hlength', hsize]) fun id hid' hid => ?_
    have hlt : id < s.graph.actions.length := by rwa [hlength] at hid
    have ha := List.getElem?_eq_getElem hlt
    have ha' : s'.graph.actions[id]? = some ((s.graph.actions[id]).recost cost) := by
      rw [h.actions, List.getElem?_map, ha]
      rfl
    obtain ⟨r, hr, hbuilds⟩ := builtOf_construct ht hs ha b output
    obtain ⟨r', hr', hbuilds'⟩ := builtOf_construct ht' hs' ha' b output
    rw [h.actions, Backend.builds_recost, hbuilds] at hbuilds'
    have hsame : r = r' := by
      cases r <;> cases r' <;> simp_all [Except.map]
    rw [builtOf, List.getElem?_eq_getElem hid, Option.join_some] at hr
    rw [builtOf, List.getElem?_eq_getElem hid', Option.join_some] at hr'
    rw [hr, hr', hsame]
  refine .of_fields ?_ ?_ hbuilt ?_ ?_
  · rw [hx.schedule, hy.schedule]
    exact h
  · rw [hy.backend, hx.backend]
  · rw [hy.slots, hx.slots, hsize]
  · rw [hy.output_eq, hx.output_eq]

theorem Twins.state_eq {past past' : List (Event H)} {x y : Execution H ω}
    (h : Twins cost past past' x y) (id : ActionId) : y.state id = x.state id := by
  have hconstructed : y.isConstructed = x.isConstructed := by
    funext d
    simp only [isConstructed, h.builtOf_eq]
  simp only [state, h.builtOf_eq, h.slotOf_eq, h.action?_eq, hconstructed]
  cases x.schedule.graph.action? id <;> rfl

theorem Twins.written_eq {past past' : List (Event H)} {x y : Execution H ω}
    (h : Twins cost past past' x y) (hpast : past.filterMap Event.call? = [])
    (hpast' : past'.filterMap Event.call? = []) : y.written = x.written := by
  obtain ⟨s', since, -, hsince, rfl⟩ := h
  have hcall : Event.call? ∘ Event.recost cost = (Event.call? : Event H → _) :=
    funext (Event.call?_recost cost)
  simp only [written, hsince, List.filterMap_append, hpast, hpast', List.filterMap_map, hcall]

end Execution

/-! ### Two schedules -/

namespace Schedule

def costOf (s : Schedule ω) (a : Action) : Float :=
  ((s.graph.action? a.id).map Action.cost).getD 0

theorem writers_of_build (hs : build t namer options regions = .ok s) : s.writers =
    (regions.filter fun r => s.graph.regions.any fun plan => plan.name == r.name).map
      fun r => (r.name, r.writers) := by
  obtain ⟨graph, order, -, -, rfl⟩ := build_eq_ok.mp hs
  rfl

/-- Schedules of one tree at different costs agree. -/
theorem agrees_of_uncosted (ht : t.Reachable) (hs : build t namer options regions = .ok s)
    (hs' : build t' namer options' regions = .ok s') (htree : t'.uncosted = t.uncosted)
    (hgraph : s'.graph.uncosted = s.graph.uncosted) : s.Agrees s'.costOf s' := by
  obtain ⟨hactions, hregions, hskipped⟩ := ActionGraph.mk.inj hgraph
  obtain ⟨hwired, -⟩ := order_of_build ht hs
  obtain ⟨-, rfl⟩ := graph_of_build hs
  obtain ⟨-, rfl⟩ := graph_of_build hs'
  refine ⟨fun node => ?_, fun node => ?_, ?_, hregions, hskipped, fun region => ?_⟩
  · rw [← SelectionTree.uncosted_nameOf, htree, SelectionTree.uncosted_nameOf]
  · rw [← SelectionTree.bind_label_uncosted, htree, SelectionTree.bind_label_uncosted]
  · refine List.ext_getElem? fun id => ?_
    have hget := congrArg (·[id]?) hactions
    simp only [List.getElem?_map] at hget ⊢
    cases ha : s.graph.actions[id]? with
    | none =>
        rw [ha, Option.map_none, Option.map_eq_none_iff] at hget
        exact hget
    | some a =>
        rw [ha, Option.map_some, Option.map_eq_some_iff] at hget
        obtain ⟨a', ha', hsame⟩ := hget
        have hid := hwired.id_eq id a ha
        have hcost : s'.costOf a = a'.cost := by
          rw [costOf, ActionGraph.action?, hid, ha']
          rfl
        rw [ha', Option.map_some, Action.recost, hcost]
        cases a
        cases a'
        simp_all [Action.uncosted]
  · rw [writersOf, writersOf, writers_of_build hs, writers_of_build hs', hregions]

/-- Costs are advisory.  Trees that differ in cost hints, at whatever default costs, are planned
or refused alike, at other costs.  What is planned has the same results: every action ends in the
same state, every region has the same outcomes, and writers are called with the same in the same
order.  Only the order of construction may differ. -/
theorem cost_advisory (ht : t.Reachable) (ht' : t'.Reachable) (htree : t'.uncosted = t.uncosted)
    (hcost : Variable.isCost options.defaultCost = true)
    (hcost' : Variable.isCost options'.defaultCost = true)
    (hpolicy : options'.onUnknownSystematic = options.onUnknownSystematic) :
    (∀ e, build t namer options regions = .error e ↔
      build t' namer options' regions = .error e) ∧
    ∀ s, build t namer options regions = .ok s →
      ∃ s', build t' namer options' regions = .ok s' ∧
        s'.graph.uncosted = s.graph.uncosted ∧ s'.order.Perm s.order ∧
        ∀ (H : Type) (b : Backend H) (output : ω),
          (s'.execute b output).1 = (s.execute b output).1 ∧
          (∀ id, (s'.execute b output).2.state id = (s.execute b output).2.state id) ∧
          (s'.execute b output).2.slots = (s.execute b output).2.slots ∧
          (s'.execute b output).2.written = (s.execute b output).2.written ∧
          (s'.execute b output).2.output = (s.execute b output).2.output := by
  have hgraphs : (ActionGraph.build t' namer options' regions).map ActionGraph.uncosted =
      (ActionGraph.build t namer options regions).map ActionGraph.uncosted := by
    rw [← ActionGraph.build_uncosted hcost, ← ActionGraph.build_uncosted hcost', htree, hpolicy]
  refine ⟨fun e => ?_, fun s hs => ?_⟩
  · rw [build_eq_error ht, build_eq_error ht']
    cases hg : ActionGraph.build t namer options regions <;>
      cases hg' : ActionGraph.build t' namer options' regions <;>
      simp_all [Except.map]
  · obtain ⟨hgraph, -⟩ := graph_of_build hs
    obtain ⟨g', hg', huncosted⟩ : ∃ g', ActionGraph.build t' namer options' regions = .ok g' ∧
        g'.uncosted = s.graph.uncosted := by
      rw [hgraph] at hgraphs
      cases hg' : ActionGraph.build t' namer options' regions with
      | error e =>
          rw [hg'] at hgraphs
          cases hgraphs
      | ok g' =>
          rw [hg'] at hgraphs
          exact ⟨g', rfl, Except.ok.inj hgraphs⟩
    obtain ⟨s', hs', rfl⟩ := exists_build ht' hg'
    have hagrees := agrees_of_uncosted ht hs hs' htree huncosted
    have hsequenced := sequenced ht hs
    have hsequenced' := sequenced ht' hs'
    have hlength : s'.graph.actions.length = s.graph.actions.length := by
      rw [hagrees.actions, List.length_map]
    refine ⟨s', hs', huncosted, ?_, fun H b output => ?_⟩
    · rw [List.perm_ext_iff_of_nodup hsequenced'.nodup hsequenced.nodup]
      intro id
      rw [hsequenced.mem_iff, hsequenced'.mem_iff, hlength]
    · have hstart := Execution.construct_twins ht ht' hs hs' hagrees b output
      obtain ⟨report, x, y, hx, hy, htwins⟩ := execute_matches hstart
      obtain ⟨hwired, hready, -⟩ := order_of_build ht hs
      obtain ⟨hwired', hready', -⟩ := order_of_build ht' hs'
      have hwritten := (Execution.constructed hwired hready b output).written
      have hwritten' := (Execution.constructed hwired' hready' b output).written
      rw [hx, hy]
      exact ⟨rfl, htwins.state_eq, htwins.slots_eq, htwins.written_eq hwritten hwritten',
        htwins.output_eq⟩

/-- The sample with a score that costs as little as an output. -/
def cheapSample : SelectionTree :=
  { id := 0
    nodes :=
      [{ Sample.root with
          ownVariables := [Sample.pt, { Sample.score with cost := some 0 }]
          weight := some "score" },
        { name := "hard", attachment := some ⟨0, Sample.hard⟩, label := none }] }

theorem cheapSample_reachable : cheapSample.Reachable := by
  have hpt : (SelectionTree.new 0 none).define ⟨0, 0⟩ Sample.pt = .ok ⟨0, [Sample.root], []⟩ := rfl
  have hscore := SelectionTree.Reachable.setWeight ⟨0, 0⟩ { Sample.score with cost := some 0 }
    .replace (.define (.new 0 none) hpt)
  exact @SelectionTree.Reachable.addChild _ cheapSample ⟨0, 0⟩ ⟨0, 1⟩ "hard" Sample.hard none
    hscore rfl

/-- The cheap score is constructed before outputs, and the writer is called with the same. -/
theorem cost_advisory_sample : ∃ s s' : Schedule Nat,
    build Sample.tree Sample.namer {} Sample.regions = .ok s ∧
      build cheapSample Sample.namer { defaultCost := 2 } Sample.regions = .ok s' ∧
      s'.order ≠ s.order ∧
      (s'.execute Sample.table.backend 0).1 = (s.execute Sample.table.backend 0).1 ∧
      (s'.execute Sample.table.backend 0).2.written =
        (s.execute Sample.table.backend 0).2.written := by
  obtain ⟨g, hg⟩ := Sample.exists_build
  obtain ⟨s, hs, -⟩ := exists_build Sample.tree_reachable hg
  obtain ⟨-, halike⟩ := @cost_advisory _ Sample.tree cheapSample Sample.namer {}
    { defaultCost := 2 } Sample.regions Sample.tree_reachable cheapSample_reachable rfl (by decide)
    (by decide) rfl
  obtain ⟨s', hs', -, -, hexecute⟩ := halike s hs
  obtain ⟨hreport, -, -, hwritten, -⟩ := hexecute _ Sample.table.backend 0
  have horders :
      (build cheapSample Sample.namer { defaultCost := 2 } Sample.regions).toOption.map order ≠
        (build Sample.tree Sample.namer {} Sample.regions).toOption.map order := by decide
  refine ⟨s, s', hs, hs', fun heq => horders ?_, hreport, hwritten⟩
  rw [hs, hs', Except.toOption, Except.toOption, Option.map_some, Option.map_some, heq]

end Schedule
end SelectionPlan
