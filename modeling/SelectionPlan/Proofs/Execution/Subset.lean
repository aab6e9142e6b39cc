import SelectionPlan.Backend.Memory
import SelectionPlan.Proofs.Execution.Reached
import SelectionPlan.Proofs.Graph.Subset

/-!
# Running some regions alone

An engine that pays no attention to the numbers of frames gives a region the same results whatever
else is planned with it.
-/

namespace SelectionPlan

variable {H ω : Type}

def Failure.unnumbered (f : Failure) : Failure := ⟨{ f.context with action := 0 }, f.source⟩

/-- Outcomes with related results, or with failures that differ in numbers only. -/
abbrev AlikeUpTo {α β : Type} : (α → β → Prop) → Except Failure α → Except Failure β → Prop :=
  Alike fun f f' => f.unnumbered = f'.unnumbered

/-- An engine that tells frames apart only as `R` does, whatever their numbers are. -/
structure Backend.NumberBlind (b : Backend H) (R : H → H → Prop) : Prop where
  source : ∀ i j, R (b.source i) (b.source j)
  applyFilter : ∀ i j {x y} name predicate, R x y →
    Alike Eq R (b.applyFilter i x name predicate) (b.applyFilter j y name predicate)
  defineColumn : ∀ i j {x y} name definition, R x y →
    Alike Eq R (b.defineColumn i x name definition) (b.defineColumn j y name definition)
  pullCount : ∀ {x y}, R x y → b.pullCount x = b.pullCount y
  pull : ∀ {x y} request, R x y → b.pull x request = b.pull y request

inductive Built.Alike (R : H → H → Prop) : Built H → Built H → Prop
  | frame {x y : H} (counted : Bool) (h : R x y) :
      Built.Alike R (.frame x counted) (.frame y counted)
  | output {x y : H} (request : Request) (h : R x y) :
    Built.Alike R (.output x request) (.output y request)

section Blind

variable {b : Backend H} {R : H → H → Prop} (h : b.NumberBlind R)
include h

theorem Backend.NumberBlind.constructCall {f : Nat → Nat} {a a' : Action}
    (ha : { a' with consumers := [] } = a.renumber f) {parent parent' : Option H}
    (hparent : Option.Rel R parent parent') :
    Alike Eq (Built.Alike R) (b.constructCall a parent) (b.constructCall a' parent') := by
  obtain ⟨id, node, path, systematic, input, dependencies, cost, operation, consumers⟩ := a
  obtain ⟨id', node', path', systematic', input', dependencies', cost', operation',
    consumers'⟩ := a'
  simp only [Action.renumber, Action.mk.injEq] at ha
  obtain ⟨-, rfl, rfl, rfl, -, -, -, rfl, -⟩ := ha
  cases operation with
  | source => exact .ok (.frame true (h.source id id'))
  | filter predicate =>
      cases hparent with
      | none => exact .error rfl
      | some hxy =>
          exact (h.applyFilter id id' _ predicate hxy).map fun _ _ => Built.Alike.frame true
  | define slot column name definition =>
      cases hparent with
      | none => exact .error rfl
      | some hxy =>
          exact (h.defineColumn id id' column definition hxy).map fun _ _ =>
            Built.Alike.frame false
  | output region writer writerName request =>
      cases hparent with
      | none => exact .error rfl
      | some hxy => exact .ok (.output request hxy)
  | statistics filter weight effective request =>
      cases hparent with
      | none => exact .error rfl
      | some hxy => exact .ok (.output request hxy)

theorem Backend.NumberBlind.pullCall {m m' : Built H} (hm : Built.Alike R m m') :
    Alike Eq Eq (b.pullCall m) (b.pullCall m') := by
  have hsame : b.pullCall m = b.pullCall m' := by
    cases hm with
    | @frame x y counted hxy => cases counted <;> simp only [Backend.pullCall, h.pullCount hxy]
    | output request hxy => simp only [Backend.pullCall, h.pull request hxy]
  rw [hsame]
  cases b.pullCall m' with
  | error e => exact .error rfl
  | ok r => exact .ok rfl

theorem Backend.NumberBlind.along {f : Nat → Nat} {line line' : List Action}
    (hl : List.Forall₂ (fun a a' => { a' with consumers := [] } = a.renumber f) line line') :
    AlikeUpTo (Option.Rel (Built.Alike R)) (b.constructAlong line) (b.constructAlong line') ∧
      AlikeUpTo Eq (b.realizeAlong line) (b.realizeAlong line') := by
  induction hl with
  | nil => exact ⟨.ok .none, .ok rfl⟩
  | @cons a a' older older' ha _ ih =>
      have hown (e e' : BackendError) (he : e = e') : Failure.unnumbered ⟨a.context, e⟩ =
          Failure.unnumbered ⟨a'.context, e'⟩ := by
        subst he
        simp only [Failure.unnumbered, Action.context, label_of_renumber ha, path_of_renumber ha,
          systematic_of_renumber ha]
      have hbuilt (p p' : Option (Built H)) (hp : Option.Rel (Built.Alike R) p p') :
          AlikeUpTo (Built.Alike R)
            ((b.constructCall a (p.map Built.handle)).mapError (Failure.mk a.context))
            ((b.constructCall a' (p'.map Built.handle)).mapError (Failure.mk a'.context)) := by
        refine (h.constructCall ha ?_).mapError hown
        cases hp with
        | none => exact .none
        | some hm => cases hm with
          | frame _ hxy => exact .some hxy
          | output _ hxy => exact .some hxy
      constructor
      · exact ih.1.bind fun p p' hp => (hbuilt p p' hp).bind fun _ _ hm => .ok (.some hm)
      · refine ih.2.bind fun _ _ _ => ih.1.bind fun p p' hp => (hbuilt p p' hp).bind ?_
        intro m m' hm
        have hpulled : AlikeUpTo Eq ((b.pullCall m).mapError (Failure.mk a.context))
            ((b.pullCall m').mapError (Failure.mk a'.context)) := (h.pullCall hm).mapError hown
        exact hpulled.bind fun _ _ hr => .ok (congrArg some hr)

/-- Actions with the same lineage but for numbers have the same results. -/
theorem Backend.NumberBlind.answers {actions actions' : List Action} {id id' : Nat}
    (hsame : SameChain actions actions' id id') :
    AlikeUpTo Eq (b.answers actions id) (b.answers actions' id') := by
  obtain ⟨f, -, hline⟩ := hsame
  exact (h.along hline.actions).2

end Blind

def Frame.shape : Frame → Frame
  | source _ => source 0
  | filter _ parent name predicate => filter 0 parent.shape name predicate
  | define _ parent column definition => define 0 parent.shape column definition

theorem Frame.evaluate_shape (table : EventTable) (frame : Frame) :
    frame.shape.evaluate table = frame.evaluate table := by
  induction frame with
  | source => rfl
  | filter _ parent name predicate ih => rw [shape, evaluate, evaluate, ih]
  | define _ parent column definition ih => rw [shape, evaluate, evaluate, ih]

theorem EventTable.backend_numberBlind (table : EventTable) :
    table.backend.NumberBlind fun x y => x.shape = y.shape where
  source := fun _ _ => rfl
  applyFilter := by
    intro i j x y name predicate h
    exact .ok (by simp only [Frame.shape, h])
  defineColumn := by
    intro i j x y name definition h
    simp only [EventTable.backend]
    split
    · exact .error rfl
    · exact .ok (by simp only [Frame.shape, h])
  pullCount := by
    intro x y h
    simp only [EventTable.backend, Frame.count, ← Frame.evaluate_shape table x,
      ← Frame.evaluate_shape table y, h]
  pull := by
    intro x y request h
    simp only [EventTable.backend, Frame.materialize, ← Frame.evaluate_shape table x,
      ← Frame.evaluate_shape table y, h]

namespace Delivery

def unnumbered : Delivery ω → Delivery ω
  | withheld result failure => withheld result failure.unnumbered
  | failed failure => failed failure.unnumbered
  | d => d

theorem handover?_unnumbered (d : Delivery ω) : d.unnumbered.handover? = d.handover? := by
  cases d <;> rfl

theorem isFailed_unnumbered {d : Delivery ω} :
    (∃ failure, d.unnumbered = .failed failure) ↔ ∃ failure, d = .failed failure := by
  cases d <;> simp [unnumbered]

end Delivery

section Deliveries

variable {s s' : Schedule ω} {answers answers' : Answers} {actions actions' : List Action}
  {plan plan' : SystematicPlan} {region region' : RegionPlan} {writers : List (Writer ω)}

private theorem lookupKey_aligned {Q : Nat → Nat → Prop} {k : Nat} {m m' : List (Nat × Nat)}
    (h : List.Forall₂ (fun e e' => e.1 = e'.1 ∧ Q e.2 e'.2) m m') :
    Option.Rel Q (lookupKey k m) (lookupKey k m') := by
  induction h with
  | nil => exact .none
  | @cons e e' _ _ he _ ih =>
      rw [lookupKey, lookupKey, ← he.1]
      split
      · exact .some he.2
      · exact ih

variable (htree : s.tree = s'.tree) (hanswers : ∀ id id', SameChain actions actions' id id' →
  AlikeUpTo Eq (answers id) (answers' id'))
include htree hanswers

theorem cutflow_alike (hplan : SamePlan actions actions' plan plan')
    {filters filters' : List (Nat × ActionId)}
    (h : List.Forall₂ (SameEntry actions actions') filters filters') :
    AlikeUpTo Eq (s.cutflow answers plan filters) (s'.cutflow answers' plan' filters') := by
  induction h with
  | nil => exact .ok rfl
  | @cons entry entry' filters filters' he _ ih =>
      obtain ⟨node, filter⟩ := entry
      obtain ⟨node', filter'⟩ := entry'
      obtain ⟨rfl, hchain⟩ : node = node' ∧ SameChain actions actions' filter filter' := he
      rw [Schedule.cutflow, Schedule.cutflow]
      refine (hanswers _ _ hchain).bind fun counted _ hcounted => ?_
      subst hcounted
      have hrest (weighted : Option Materialized) : AlikeUpTo Eq
          (do
            let steps ← s.cutflow answers plan filters
            return Execution.cutflowStep s node (Realized.events counted) weighted :: steps)
          (do
            let steps ← s'.cutflow answers' plan' filters'
            return Execution.cutflowStep s' node (Realized.events counted) weighted :: steps) := by
        refine ih.bind fun steps _ hsteps => .ok ?_
        rw [hsteps, Execution.cutflowStep, Execution.cutflowStep, htree]
      have hlookup := lookupKey_aligned (k := node) hplan.statistics
      cases hfound : lookupKey node plan.statistics with
      | none =>
          rw [hfound] at hlookup
          generalize lookupKey node plan'.statistics = found at hlookup
          cases hlookup
          exact hrest none
      | some statistics =>
          rw [hfound] at hlookup
          generalize lookupKey node plan'.statistics = found at hlookup
          cases hlookup with
          | some hsame =>
              refine ((hanswers _ _ hsame).map (S := Eq) fun _ _ => congrArg Realized.sums).bind ?_
              intro weighted _ hweighted
              subst hweighted
              exact hrest weighted

theorem delivery_unnumbered (hname : region.name = region'.name)
    (htarget : region.target = region'.target) (hplan : SamePlan actions actions' plan plan')
    (writers : List (Writer ω)) (systematic : Systematic) {entry entry' : Nat × ActionId}
    (he : SameEntry actions actions' entry entry') :
    (s.delivery answers region writers (systematic, plan, entry)).unnumbered =
      (s'.delivery answers' region' writers (systematic, plan', entry')).unnumbered := by
  obtain ⟨index, id⟩ := entry
  obtain ⟨index', id'⟩ := entry'
  obtain ⟨rfl, hchain⟩ : index = index' ∧ SameChain actions actions' id id' := he
  have hresult := hanswers id id' hchain
  have hcutflow := cutflow_alike htree hanswers hplan hplan.filters
  simp only [Schedule.delivery]
  generalize answers id = r at hresult
  generalize answers' id' = r' at hresult
  cases hresult with
  | error hsame => simp only [Delivery.unnumbered, hsame]
  | @ok r _ hsame =>
      subst hsame
      rcases r with _ | (events | _ | result)
      · rfl
      · rfl
      · rfl
      · simp only
        cases writers[index]? with
        | none => rfl
        | some w =>
            simp only
            generalize s.cutflow answers plan plan.filters = c at hcutflow
            generalize s'.cutflow answers' plan' plan'.filters = c' at hcutflow
            cases hcutflow with
            | error hsame => simp only [Delivery.unnumbered, hsame]
            | ok hsame => simp only [hsame, hname, htarget, htree]

theorem deliveries_unnumbered (hname : region.name = region'.name)
    (htarget : region.target = region'.target) {entries entries' : List PlannedOutput}
    (h : List.Forall₂ (fun e e' => e.1 = e'.1 ∧ SamePlan actions actions' e.2.1 e'.2.1 ∧
      SameEntry actions actions' e.2.2 e'.2.2) entries entries') :
    (s.deliveries answers region writers entries).map Delivery.unnumbered =
      (s'.deliveries answers' region' writers entries').map Delivery.unnumbered := by
  induction h with
  | nil => rfl
  | @cons e e' rest rest' he hrest ih =>
      obtain ⟨systematic, plan, entry⟩ := e
      obtain ⟨systematic', plan', entry'⟩ := e'
      obtain ⟨rfl, hplan, hentry⟩ : systematic = systematic' ∧
        SamePlan actions actions' plan plan' ∧ SameEntry actions actions' entry entry' := he
      have hsame := delivery_unnumbered htree hanswers hname htarget hplan writers
        systematic hentry
      by_cases hfailed : ∃ failure,
          s.delivery answers region writers (systematic, plan, entry) = .failed failure
      · have hfailed' := Delivery.isFailed_unnumbered.mp
          (hsame ▸ Delivery.isFailed_unnumbered.mpr hfailed)
        obtain ⟨failure, hd⟩ := hfailed
        obtain ⟨failure', hd'⟩ := hfailed'
        rw [hd, hd'] at hsame
        simp only [Schedule.deliveries, hd, hd', List.map_cons, hsame, List.map_map]
        simp [Function.comp_def, hrest.length_eq]
      · have hfailed' : ¬ ∃ failure, s'.delivery answers' region' writers
            (systematic, plan', entry') = .failed failure := by
          rwa [← Delivery.isFailed_unnumbered, ← hsame, Delivery.isFailed_unnumbered]
        rw [Schedule.deliveries_cons (not_exists.mp hfailed),
          Schedule.deliveries_cons (not_exists.mp hfailed'), List.map_cons, List.map_cons, hsame,
          ih]

end Deliveries

theorem SameRegion.outputs {actions actions' : List Action} {r : Region ω} {plan plan' : RegionPlan}
    (h : SameRegion actions actions' r plan plan') :
    List.Forall₂ (fun e e' => e.1 = e'.1 ∧ SamePlan actions actions' e.2.1 e'.2.1 ∧
      SameEntry actions actions' e.2.2 e'.2.2) (Execution.outputsOf plan)
      (Execution.outputsOf plan') := by
  refine List.rel_flatMap h.systematics ?_
  rintro ⟨systematic, plan⟩ ⟨systematic', plan'⟩ ⟨hsystematic, hplan⟩
  rw [List.forall₂_map_left_iff, List.forall₂_map_right_iff]
  exact hplan.outputs.imp fun _ _ he => ⟨hsystematic, hplan, he⟩

section Calls

variable {s : Schedule ω} {answers : Answers} {region : RegionPlan} {writers : List (Writer ω)}

private theorem region_of_delivery {entry : PlannedOutput} {handover : Handover ω}
    (h : s.delivery answers region writers entry = .call handover) :
    handover.context.region = region.name := by
  obtain ⟨systematic, plan, index, id⟩ := entry
  simp only [Schedule.delivery] at h
  split at h
  · cases h
  · split at h
    · cases h
    · split at h
      · cases h
      · cases h
        rfl
  · cases h

theorem region_of_handover {entries : List PlannedOutput} {handover : Handover ω}
    (h : .call handover ∈ s.deliveries answers region writers entries) :
    handover.context.region = region.name := by
  induction entries with
  | nil => cases h
  | cons entry rest ih =>
      by_cases hfailed : ∃ failure, s.delivery answers region writers entry = .failed failure
      · obtain ⟨failure, hd⟩ := hfailed
        simp [Schedule.deliveries, hd] at h
      · rw [Schedule.deliveries_cons (not_exists.mp hfailed)] at h
        rcases List.mem_cons.mp h with hd | hrest
        · exact region_of_delivery hd.symm
        · exact ih hrest

private theorem flatMap_of_nodup {α β : Type} {key : α → String} {f : α → List β} {xs : List α}
    (hnodup : (xs.map key).Nodup) {x : α} (hx : x ∈ xs) (hf : ∀ y, key y ≠ key x → f y = []) :
    xs.flatMap f = f x := by
  induction xs with
  | nil => cases hx
  | cons y ys ih =>
      rw [List.map_cons, List.nodup_cons] at hnodup
      rw [List.flatMap_cons]
      rcases List.mem_cons.mp hx with rfl | hx
      · have hrest : ys.flatMap f = [] := by
          refine List.flatMap_eq_nil_iff.mpr fun z hz => hf z fun heq => ?_
          exact hnodup.1 (List.mem_map.mpr ⟨z, hz, heq⟩)
        rw [hrest, List.append_nil]
      · have hne : key y ≠ key x := fun heq => hnodup.1 (List.mem_map.mpr ⟨x, hx, heq.symm⟩)
        rw [hf y hne, List.nil_append, ih hnodup.2 hx]

theorem handovers_of_region (answers : Answers)
    (hnames : (s.graph.regions.map RegionPlan.name).Nodup)
    (hregion : region ∈ s.graph.regions) :
    (s.handovers answers).filter (fun h => h.context.region == region.name) =
      (s.regionDeliveries answers region).filterMap Delivery.handover? := by
  have hname (other : RegionPlan) : ∀ h ∈ (s.regionDeliveries answers other).filterMap
      Delivery.handover?, h.context.region = other.name := by
    intro h hh
    obtain ⟨d, hd, hcall⟩ := List.mem_filterMap.mp hh
    cases d with
    | call handover =>
        cases hcall
        exact region_of_handover hd
    | _ => cases hcall
  rw [Schedule.handovers, List.filter_flatMap, flatMap_of_nodup hnames hregion]
  · refine List.filter_eq_self.mpr fun h hh => ?_
    rw [hname region h hh, beq_self_eq_true]
  · intro other hne
    refine List.filter_eq_nil_iff.mpr fun h hh => ?_
    rw [hname other h hh]
    simpa using hne

end Calls

variable {t : SelectionTree} {namer : Namer} {options : BuildOptions}
  {regions all : List (Region ω)} {g' : ActionGraph}

/-- Whatever is planned with others without a region being skipped can be planned alone.  Alone its
plan is the same, with the lineages that it has among the others but for the numbers of the actions,
and with an engine that pays no attention to numbers its writers are handed the same. -/
theorem Schedule.regions_independent (ht : t.Reachable) (hsub : regions.Sublist all)
    (h : ActionGraph.build t namer options all = .ok g') (hskipped : g'.skipped = []) :
    ∃ g, ActionGraph.build t namer options regions = .ok g ∧ g.skipped = [] ∧
      (∀ r ∈ regions, ∃ plan ∈ g.regions, ∃ plan' ∈ g'.regions,
        SameRegion g.actions g'.actions r plan plan') ∧
      ∃ s s' : Schedule ω, Schedule.build t namer options regions = .ok s ∧ s.graph = g ∧
        Schedule.build t namer options all = .ok s' ∧ s'.graph = g' ∧
        ∀ (b : Backend H) (R : H → H → Prop), b.NumberBlind R → ∀ (output : ω), ∀ r ∈ regions,
          ((s.execute b output).2.written.filter fun call => call.context.region == r.name) =
            (s'.execute b output).2.written.filter fun call => call.context.region == r.name := by
  obtain ⟨g, hg, hnone, hsame⟩ := build_sublist ht hsub h hskipped
  obtain ⟨s, hs, rfl⟩ := Schedule.exists_build ht hg
  obtain ⟨s', hs', rfl⟩ := Schedule.exists_build ht h
  refine ⟨s.graph, hg, hnone, hsame, s, s', hs, rfl, hs', rfl, fun b R hb output r hr => ?_⟩
  obtain ⟨plan, hplan, plan', hplan', hregion⟩ := hsame r hr
  have hwriters : s.writersOf plan.name = s'.writersOf plan'.name := by
    rw [hregion.name.1, hregion.name.2, Schedule.writersOf_of_build hs hr hplan hregion.name.1,
      Schedule.writersOf_of_build hs' (hsub.subset hr) hplan' hregion.name.2]
  have hdeliveries : (s.regionDeliveries (b.answers s.graph.actions) plan).map
      Delivery.unnumbered = (s'.regionDeliveries (b.answers s'.graph.actions) plan').map
        Delivery.unnumbered := by
    rw [Schedule.regionDeliveries, Schedule.regionDeliveries, hwriters]
    refine deliveries_unnumbered ?_ (fun id id' => hb.answers) ?_ ?_ hregion.outputs
    · rw [(Schedule.graph_of_build hs).2, (Schedule.graph_of_build hs').2]
    · rw [hregion.name.1, hregion.name.2]
    · rw [hregion.target.1, hregion.target.2]
  have hhandovers := congrArg (List.filterMap Delivery.handover?) hdeliveries
  simp only [List.filterMap_map, Function.comp_def, Delivery.handover?_unnumbered] at hhandovers
  rw [(s.execute_spec ht hs b output).1, (s'.execute_spec ht hs' b output).1, List.filter_map,
    List.filter_map]
  have halone := handovers_of_region (b.answers s.graph.actions)
    (ActionGraph.nodup_planned ht hg) hplan
  have hamong := handovers_of_region (b.answers s'.graph.actions)
    (ActionGraph.nodup_planned ht h) hplan'
  rw [hregion.name.1] at halone
  rw [hregion.name.2] at hamong
  exact congrArg (List.map Handover.call) ((halone.trans hhandovers).trans hamong.symm)

/-- Planned alone, the signal is handed what it is handed beside the control region. -/
theorem Schedule.regions_independent_sample : ∃ s s' : Schedule Nat,
    Schedule.build Sample.tree Sample.namer {} [Sample.signal] = .ok s ∧
      Schedule.build Sample.tree Sample.namer {} Sample.regions = .ok s' ∧
      s'.graph.skipped = [] ∧
      ((s.execute Sample.table.backend 0).2.written.filter fun call =>
          call.context.region == "signal") =
        (s'.execute Sample.table.backend 0).2.written.filter fun call =>
          call.context.region == "signal" := by
  obtain ⟨g', hg'⟩ := Sample.exists_build
  have hnone : ∀ g ∈ (ActionGraph.build Sample.tree Sample.namer {} Sample.regions).toOption,
      g.skipped.isEmpty := by decide
  have hskipped := List.isEmpty_iff.mp (hnone g' (by rw [hg']; rfl))
  have hsub : [Sample.signal].Sublist Sample.regions := (List.nil_sublist _).cons_cons _
  obtain ⟨g, -, -, -, s, s', hs, -, hs', rfl, hsame⟩ :=
    Schedule.regions_independent Sample.tree_reachable hsub hg' hskipped
  exact ⟨s, s', hs, hs', hskipped, hsame Sample.table.backend _
    Sample.table.backend_numberBlind 0 Sample.signal (by simp)⟩

end SelectionPlan
