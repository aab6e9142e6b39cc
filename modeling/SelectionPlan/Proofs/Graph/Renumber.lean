import SelectionPlan.Proofs.Graph.Consumer
import Mathlib.Order.Monotone.Basic
import Mathlib.Logic.Function.Basic

/-!
# Lineages up to numbering

Two graphs over one tree number their actions differently, because a graph has the actions of all
its regions.  Lineages with equal tasks are equal but for these numbers.
-/

namespace SelectionPlan

namespace Action

def renumber (f : Nat → Nat) (a : Action) : Action :=
  { a with
    id := f a.id
    input := a.input.map f
    dependencies := a.dependencies.map f
    operation := match a.operation with
      | .statistics filter weight effective request =>
        .statistics (f filter) weight effective request
      | operation => operation
    consumers := [] }

def numbers (a : Action) : List Nat :=
  a.id :: (a.input.toList ++ a.dependencies ++
    match a.operation with
    | .statistics filter _ _ _ => [filter]
    | _ => [])

theorem renumber_congr {f f' : Nat → Nat} {a : Action} (h : ∀ i ∈ a.numbers, f i = f' i) :
    a.renumber f = a.renumber f' := by
  obtain ⟨id, node, path, systematic, input, dependencies, cost, operation, consumers⟩ := a
  simp only [numbers, List.mem_cons, List.mem_append, Option.mem_toList] at h
  have hid : f id = f' id := h id (.inl rfl)
  have hinput : input.map f = input.map f' := by
    cases input with
    | none => rfl
    | some i => rw [Option.map_some, Option.map_some, h i (.inr (.inl (.inl rfl)))]
  have hdep : dependencies.map f = dependencies.map f' :=
    List.map_congr_left fun i hi => h i (.inr (.inl (.inr hi)))
  simp only [renumber, hid, hinput, hdep]
  cases operation with
  | statistics filter weight effective request =>
      simp only [h filter (.inr (.inr (by simp)))]
  | _ => rfl

end Action

/-- One lineage is the other under a renumbering that keeps the order of the numbers.  Consumers are
left out of account. -/
structure SameLine (f : Nat → Nat) (line line' : List Action) : Prop where
  order : StrictMonoOn f {i | ∃ a ∈ line, a.id = i}
  actions : List.Forall₂ (fun a a' => { a' with consumers := [] } = a.renumber f) line line'

def SameChain (actions actions' : List Action) (id id' : Nat) : Prop :=
  ∃ f, f id = id' ∧ SameLine f (lineage actions id) (lineage actions' id')

section Renumbered

variable {f : Nat → Nat} {a a' : Action} (h : { a' with consumers := [] } = a.renumber f)
include h

theorem id_of_renumber : a'.id = f a.id := congrArg Action.id h

theorem path_of_renumber : a'.path = a.path := by
  have hpath := congrArg Action.path h
  exact hpath

theorem systematic_of_renumber : a'.systematic = a.systematic := by
  have hsystematic := congrArg Action.systematic h
  exact hsystematic

theorem label_of_renumber : a'.label = a.label := by
  refine (congrArg Action.label h).trans ?_
  rw [Action.label, Action.label]
  cases hop : a.operation <;> simp only [Action.renumber, hop]

theorem task_of_renumber : a'.task = a.task := by
  have htask : ({ a' with consumers := [] } : Action).task = (a.renumber f).task :=
    congrArg Action.task h
  have hleft : ({ a' with consumers := [] } : Action).task = a'.task := rfl
  rw [hleft] at htask
  rw [htask]
  cases hop : a.operation <;> simp [Action.task, Action.renumber, hop]

end Renumbered

theorem IsFrame.mem_lineage {actions : List Action} {tip : Nat} (h : IsFrame actions tip)
    (hl : Linked actions) : ∃ b ∈ lineage actions tip, b.id = tip := by
  obtain ⟨b, hb, -⟩ := h
  exact ⟨b, hl.mem_lineage_self hb, hl.id_eq tip b hb⟩

namespace SameLine

variable {f : Nat → Nat} {line line' : List Action}

theorem tasks_eq (h : SameLine f line line') :
    line'.filterMap Action.task = line.filterMap Action.task := by
  obtain ⟨-, h⟩ := h
  induction h with
  | nil => rfl
  | cons ha _ ih => rw [List.filterMap_cons, List.filterMap_cons, task_of_renumber ha, ih]

theorem producerIn_eq (h : SameLine f line line') (c : ColumnRef) (s : Systematic) :
    producerIn line' c s = (producerIn line c s).map f := by
  obtain ⟨-, h⟩ := h
  induction h with
  | nil => rfl
  | @cons a a' line line' ha _ ih =>
      have hcomp : a'.computes c s = a.computes c s := by
        rw [Bool.eq_iff_iff, Action.computes_iff, Action.computes_iff, task_of_renumber ha]
      simp only [producerIn, List.find?_cons, hcomp] at ih ⊢
      cases a.computes c s with
      | true => simp [id_of_renumber ha]
      | false => exact ih

theorem producersIn_eq (h : SameLine f line line') (scope : Scope) (s : Systematic)
    (wanted : List String) :
    producersIn line' scope s wanted = (producersIn line scope s wanted).map f := by
  rw [producersIn, producersIn, ← sortDistinct_map h.order, List.map_filterMap]
  · congr 1
    refine List.filterMap_congr fun i _ => ?_
    cases scope.lookup i with
    | none => rfl
    | some c =>
        simp only [Option.bind_some]
        split
        · exact h.producerIn_eq _ _
        · rfl
  · intro id hid
    have hmem : id ∈ producersIn line scope s wanted := by
      rw [producersIn, mem_sortDistinct]
      exact hid
    obtain ⟨i, -, c, -, -, hprod⟩ := mem_producersIn hmem
    obtain ⟨b, hb, hid, -⟩ := producerIn_eq_some hprod
    exact ⟨b, hb, hid⟩

theorem dependencies_eq (h : SameLine f line line') {tip : Nat} (htip : ∃ b ∈ line, b.id = tip)
    {ids : List Nat} (hids : ∀ i ∈ ids, ∃ b ∈ line, b.id = i) :
    unionDistinct [f tip] (ids.map f) = (unionDistinct [tip] ids).map f :=
  insertDistinct_map h.order htip hids

theorem producersIn_mem {line : List Action} {scope : Scope} {s : Systematic}
    {wanted : List String} : ∀ i ∈ producersIn line scope s wanted, ∃ b ∈ line, b.id = i := by
  intro i hi
  obtain ⟨_, -, _, -, -, hprod⟩ := mem_producersIn hi
  obtain ⟨b, hb, hid, -⟩ := producerIn_eq_some hprod
  exact ⟨b, hb, hid⟩

theorem consumer_dependencies_eq (h : SameLine f line line') {tip base : Nat}
    (htip : ∃ b ∈ line, b.id = tip) (hbase : ∃ b ∈ line, b.id = base) (scope : Scope)
    (s : Systematic) (wanted : List String) :
    unionDistinct [f tip] (insertDistinct (f base) (producersIn line' scope s wanted)) =
      (unionDistinct [tip] (insertDistinct base (producersIn line scope s wanted))).map f := by
  rw [h.producersIn_eq, insertDistinct_map h.order hbase producersIn_mem, h.dependencies_eq htip]
  intro i hi
  rcases mem_insertDistinct.mp hi with rfl | hi
  · exact hbase
  · exact producersIn_mem i hi

theorem nil : SameLine f [] [] := ⟨fun _ ⟨_, hb, _⟩ => absurd hb List.not_mem_nil, .nil⟩

theorem congr {f' : Nat → Nat} (h : SameLine f line line')
    (hf : ∀ b ∈ line, ∀ i ∈ b.numbers, f' i = f i) : SameLine f' line line' := by
  have hid : ∀ b ∈ line, f' b.id = f b.id := fun b hb => hf b hb b.id (by simp [Action.numbers])
  constructor
  · rintro i ⟨b, hb, rfl⟩ j ⟨c, hc, rfl⟩ hlt
    rw [hid b hb, hid c hc]
    exact h.order ⟨b, hb, rfl⟩ ⟨c, hc, rfl⟩ hlt
  · refine List.forall₂_iff_zip.mpr ⟨h.actions.length_eq, fun {b b'} hmem => ?_⟩
    rw [(List.forall₂_iff_zip.mp h.actions).2 hmem]
    exact Action.renumber_congr fun i hi => (hf b (List.of_mem_zip hmem).1 i hi).symm

theorem cons {a a' : Action} (h : SameLine f line line') (hnew : ∀ b ∈ line, b.id < a.id)
    (hnew' : ∀ b ∈ line', b.id < a'.id) (hsame : { a' with consumers := [] } = a.renumber f) :
    SameLine f (a :: line) (a' :: line') := by
  have himage : ∀ b ∈ line, f b.id < f a.id := by
    intro b hb
    obtain ⟨b', hb', hrel⟩ := exists_aligned h.actions hb
    rw [← id_of_renumber hrel, ← id_of_renumber hsame]
    exact hnew' b' hb'
  refine ⟨?_, .cons hsame h.actions⟩
  rintro i ⟨b, hb, rfl⟩ j ⟨c, hc, rfl⟩ hlt
  rcases List.mem_cons.mp hb with rfl | hbl
  · rcases List.mem_cons.mp hc with rfl | hcl
    · exact absurd hlt (Nat.lt_irrefl _)
    · exact absurd (hnew c hcl) (Nat.lt_asymm hlt)
  · rcases List.mem_cons.mp hc with rfl | hcl
    · exact himage b hbl
    · exact h.order ⟨b, hbl, rfl⟩ ⟨c, hcl, rfl⟩ hlt

end SameLine

section Frames

variable {t : SelectionTree} {p : Planner} {regions regions' : List AcceptedRegion}
  {G G' : ColumnRef → Systematic → Prop} {d d' : Draft}

theorem Draft.Sound.numbers_le (h : d.Sound p regions G) {id : Nat} {a b : Action}
    (ha : d.actions[id]? = some a) (hb : b ∈ lineage d.actions id) :
    ∀ i ∈ b.numbers, i ≤ id := by
  obtain ⟨hget, hle, hsuf⟩ := h.toLinked.lineage_suffix ha hb
  have hmade := h.made b (List.mem_of_getElem? hget)
  have hdep : ∀ i ∈ b.dependencies, i ≤ b.id := by
    intro i hi
    obtain ⟨input, hinput, hi⟩ := hmade.dependency h.toLinked hi
    obtain ⟨c, hc, rfl⟩ := mem_lineageIds.mp hi
    obtain ⟨e, he, -⟩ := hmade.input_frame hinput
    exact Nat.le_trans (h.toLinked.lineage_suffix he hc).2.1 (Nat.le_of_lt (hmade.input_lt hinput))
  intro i hi
  refine Nat.le_trans ?_ hle
  simp only [Action.numbers, List.mem_cons, List.mem_append, Option.mem_toList] at hi
  rcases hi with rfl | (hi | hi) | hi
  · exact Nat.le_refl _
  · exact Nat.le_of_lt (hmade.input_lt hi)
  · exact hdep i hi
  · cases hmade with
    | statistics =>
        simp only [Planner.statisticsAction, List.mem_singleton] at hi
        subst hi
        exact hdep _ (by simp [Planner.statisticsAction])
    | _ => cases hi

theorem same_frame (hlaw : ScopeIndex.Lawful t p.index) {actions actions' : List Action}
    (hl : Linked actions) {a a' : Action} {task : Task}
    (h : Made p regions actions a) (h' : Made p regions' actions' a')
    (htask : a.task = some task) (htask' : a'.task = some task) :
    (a.input = none ∧ a'.input = none ∧ ∀ f : Nat → Nat, f a.id = a'.id →
      { a' with consumers := [] } = a.renumber f) ∨
    ∃ tip tip', a.input = some tip ∧ a'.input = some tip' ∧ ∀ f : Nat → Nat, f a.id = a'.id →
      f tip = tip' → SameLine f (lineage actions tip) (lineage actions' tip') →
      { a' with consumers := [] } = a.renumber f := by
  have hnoroot {place place' : Place} (hplace : p.index.place? 0 = some place)
      (hplace' : p.index.place? place'.node = some place') (hnode : place'.node = place.node) :
      place'.parent = none := by
    rw [(hlaw.place_lt hplace).1] at hnode
    rw [hlaw.parent_eq hplace', hnode, hlaw.wellFormed.parent_root]
  have hboth : a.task = a'.task := htask.trans htask'.symm
  cases h with
  | @source place id hplace =>
      cases h' with
      | @source place' id' hplace' =>
          rw [hplace, Option.some.injEq] at hplace'
          subst hplace'
          refine .inl ⟨rfl, rfl, fun f hf => ?_⟩
          simp only [Planner.sourceAction] at hf ⊢
          simp [Action.renumber, hf]
      | define => simp at hboth
      | @filter place' parent v chain id' tip' base hplace' _ hparent =>
          simp only [Planner.sourceAction_task, Planner.filterAction_task, Option.some.injEq,
            Task.select.injEq] at hboth
          rw [hnoroot hplace hplace' hboth.1.symm] at hparent
          cases hparent
      | statistics => simp at htask'
      | output => simp at htask'
  | @define c older s id tip hdecl _ _ _ hframe _ _ =>
      cases h' with
      | @define c' older' s' id' tip' hdecl' =>
          simp only [Planner.defineAction_task, Option.some.injEq, Task.define.injEq] at hboth
          obtain ⟨href, rfl⟩ := hboth
          obtain ⟨rfl, rfl⟩ := hlaw.eq_of_ref hdecl hdecl' href
          refine .inr ⟨tip, tip', rfl, rfl, fun f hf htip hline => ?_⟩
          simp only [Planner.defineAction] at hf ⊢
          simp only [Action.renumber, hf, Option.map_some, htip, hline.producersIn_eq]
          rw [← htip, hline.dependencies_eq (hframe.mem_lineage hl) SameLine.producersIn_mem]
      | source => simp at hboth
      | filter => simp at hboth
      | statistics => simp at htask'
      | output => simp at htask'
  | @filter place parent v chain id tip base hplace hv hparent _ _ _ hs =>
      cases h' with
      | @filter place' parent' v' chain' id' tip' base' hplace' hv' =>
          simp only [Planner.filterAction_task, Option.some.injEq, Task.select.injEq] at hboth
          obtain ⟨hnode, rfl⟩ := hboth
          rw [hnode, hplace', Option.some.injEq] at hplace
          subst hplace
          rw [hv, Option.some.injEq] at hv'
          subst hv'
          refine .inr ⟨tip, tip', rfl, rfl, fun f hf htip hline => ?_⟩
          simp only [Planner.filterAction] at hf ⊢
          simp only [Action.renumber, hf, Option.map_some, htip, hline.producersIn_eq]
          rw [← htip, hline.dependencies_eq (hs.frame.mem_lineage hl) SameLine.producersIn_mem]
      | define => simp at hboth
      | @source place' id' hplace' =>
          simp only [Planner.filterAction_task, Planner.sourceAction_task, Option.some.injEq,
            Task.select.injEq] at hboth
          rw [hnoroot hplace' hplace hboth.1] at hparent
          cases hparent
      | statistics => simp at htask'
      | output => simp at htask'
  | statistics => simp at htask
  | output => simp at htask

theorem sameChain_step (h : d.Sound p regions G) (h' : d'.Sound p regions' G') {id id' : Nat}
    {a a' : Action} (ha : d.actions[id]? = some a) (ha' : d'.actions[id']? = some a')
    {tip tip' : Nat} (hinput : a.input = some tip) (hinput' : a'.input = some tip')
    (htip : SameChain d.actions d'.actions tip tip')
    (hsame : ∀ f : Nat → Nat, f a.id = a'.id → f tip = tip' →
      SameLine f (lineage d.actions tip) (lineage d'.actions tip') →
      { a' with consumers := [] } = a.renumber f) :
    SameChain d.actions d'.actions id id' := by
  obtain ⟨f, hf, hline⟩ := htip
  obtain ⟨b, hb, -⟩ := (h.made a (List.mem_of_getElem? ha)).input_frame hinput
  obtain ⟨b', hb', -⟩ := (h'.made a' (List.mem_of_getElem? ha')).input_frame hinput'
  have hlt : tip < a.id := (h.made a (List.mem_of_getElem? ha)).input_lt hinput
  have hlt' : tip' < a'.id := (h'.made a' (List.mem_of_getElem? ha')).input_lt hinput'
  have hline' : SameLine (Function.update f a.id a'.id) (lineage d.actions tip)
      (lineage d'.actions tip') :=
    hline.congr fun c hc i hi => Function.update_of_ne
      (Nat.ne_of_lt (Nat.lt_of_le_of_lt (h.numbers_le hb hc i hi) hlt)) _ _
  refine ⟨Function.update f a.id a'.id, ?_, ?_⟩
  · rw [← h.id_eq id a ha, Function.update_self, h'.id_eq id' a' ha']
  · rw [h.toLinked.lineage_eq ha, h'.toLinked.lineage_eq ha', hinput, hinput', Option.elim_some,
      Option.elim_some]
    refine hline'.cons (fun c hc => ?_) (fun c hc => ?_)
      (hsame _ (Function.update_self _ _ _) ?_ hline')
    · exact Nat.lt_of_le_of_lt (h.toLinked.lineage_suffix hb hc).2.1 hlt
    · exact Nat.lt_of_le_of_lt (h'.toLinked.lineage_suffix hb' hc).2.1 hlt'
    · rw [Function.update_of_ne (Nat.ne_of_lt hlt), hf]

theorem sameChain_of_tasks (hlaw : ScopeIndex.Lawful t p.index) (h : d.Sound p regions G)
    (h' : d'.Sound p regions' G') {id : Nat} {a : Action} (ha : d.actions[id]? = some a) :
    ∀ {id' : Nat} {a' : Action}, d'.actions[id']? = some a' → a.task.isSome → a'.task.isSome →
      tasks d.actions id = tasks d'.actions id' → SameChain d.actions d'.actions id id' := by
  have hheads {id id' : Nat} {a a' : Action} (ha : d.actions[id]? = some a)
      (ha' : d'.actions[id']? = some a') (hframe : a.task.isSome) (hframe' : a'.task.isSome)
      (htasks : tasks d.actions id = tasks d'.actions id') :
      ∃ task, a.task = some task ∧ a'.task = some task ∧
        a.input.elim [] (tasks d.actions) = a'.input.elim [] (tasks d'.actions) := by
    obtain ⟨task, htask⟩ := Option.isSome_iff_exists.mp hframe
    obtain ⟨task', htask'⟩ := Option.isSome_iff_exists.mp hframe'
    rw [h.toLinked.tasks_eq ha, h'.toLinked.tasks_eq ha', htask, htask'] at htasks
    simp only [Option.toList_some, List.singleton_append, List.cons.injEq] at htasks
    exact ⟨task, htask, htasks.1 ▸ htask', htasks.2⟩
  induction id, a, ha using h.toLinked.induction with
  | start id a ha hinput =>
      intro id' a' ha' hframe hframe' htasks
      obtain ⟨task, htask, htask', -⟩ := hheads ha ha' hframe hframe' htasks
      rcases same_frame hlaw h.toLinked (h.made a (List.mem_of_getElem? ha))
        (h'.made a' (List.mem_of_getElem? ha')) htask htask' with
        ⟨-, hinput', hsame⟩ | ⟨tip, _, htip, -⟩
      · refine ⟨fun _ => id', rfl, ?_⟩
        rw [h.toLinked.lineage_eq ha, h'.toLinked.lineage_eq ha', hinput, hinput', Option.elim_none,
          Option.elim_none]
        exact SameLine.nil.cons (by simp) (by simp) (hsame _ (h'.id_eq id' a' ha').symm)
      · rw [hinput] at htip
        cases htip
  | step id a input b ha hinput hb ih =>
      intro id' a' ha' hframe hframe' htasks
      obtain ⟨task, htask, htask', hrest⟩ := hheads ha ha' hframe hframe' htasks
      rcases same_frame hlaw h.toLinked (h.made a (List.mem_of_getElem? ha))
        (h'.made a' (List.mem_of_getElem? ha')) htask htask' with
        ⟨hnone, -⟩ | ⟨tip, tip', htip, htip', hsame⟩
      · rw [hinput] at hnone
        cases hnone
      · rw [hinput, Option.some.injEq] at htip
        subst htip
        obtain ⟨c, hc, hcframe⟩ := (h.made a (List.mem_of_getElem? ha)).input_frame hinput
        rw [hb, Option.some.injEq] at hc
        subst hc
        obtain ⟨b', hb', hbframe'⟩ := (h'.made a' (List.mem_of_getElem? ha')).input_frame htip'
        rw [hinput, htip', Option.elim_some, Option.elim_some] at hrest
        exact sameChain_step h h' ha ha' hinput htip' (ih hb' hcframe hbframe' hrest) hsame

private theorem eq_of_task {line : List Action} (h : (line.filterMap Action.task).Nodup)
    {b c : Action} (hb : b ∈ line) (hc : c ∈ line) {task : Task} (hbtask : b.task = some task)
    (hctask : c.task = some task) : b = c := by
  induction line with
  | nil => cases hb
  | cons x xs ih =>
      have hmem {e : Action} (he : e ∈ xs) (hetask : e.task = some task) :
          task ∈ xs.filterMap Action.task := List.mem_filterMap.mpr ⟨e, he, hetask⟩
      have hrest : (xs.filterMap Action.task).Nodup := by
        refine h.sublist ?_
        exact (List.sublist_cons_self x xs).filterMap _
      have hfirst : x.task = some task → task ∉ xs.filterMap Action.task := by
        intro hx
        rw [List.filterMap_cons_some hx] at h
        exact (List.nodup_cons.mp h).1
      rcases List.mem_cons.mp hb with rfl | hbs
      · rcases List.mem_cons.mp hc with rfl | hcs
        · rfl
        · exact absurd (hmem hcs hctask) (hfirst hbtask)
      · rcases List.mem_cons.mp hc with rfl | hcs
        · exact absurd (hmem hbs hbtask) (hfirst hctask)
        · exact ih hrest hbs hcs

private theorem base_of_sameLine (hl : Linked d.actions) (hl' : Linked d'.actions)
    {base base' tip tip' node : Nat} {chain s : Systematic} {scope : Scope} {wanted : List String}
    (hs : Supplied p.index d.actions base tip node chain s scope wanted)
    (hs' : Supplied p.index d'.actions base' tip' node chain s scope wanted)
    (hnodup : (tasks d'.actions tip').Nodup) {f : Nat → Nat}
    (hline : SameLine f (lineage d.actions tip) (lineage d'.actions tip')) :
    f base = base' ∧ ∃ b ∈ lineage d.actions tip, b.id = base := by
  obtain ⟨b, hb, hbtask⟩ := hs.base_task
  obtain ⟨b', hb', hbtask'⟩ := hs'.base_task
  have hmem : b ∈ lineage d.actions tip := hs.suffix.subset (hl.mem_lineage_self hb)
  have hmem' : b' ∈ lineage d'.actions tip' := hs'.suffix.subset (hl'.mem_lineage_self hb')
  obtain ⟨c, hc, hren⟩ := exists_aligned hline.actions hmem
  have hsame := eq_of_task hnodup hc hmem' ((task_of_renumber hren).trans hbtask) hbtask'
  refine ⟨?_, b, hmem, hl.id_eq base b hb⟩
  rw [← hl.id_eq base b hb, ← hl'.id_eq base' b' hb', ← hsame, id_of_renumber hren]

private theorem nodup_supplied (hlaw : ScopeIndex.Lawful t p.index) {actions : List Action}
    {base tip : Nat} {place : Place} {chain s : Systematic} {scope : Scope} {wanted : List String}
    (hplace : p.index.place? place.node = some place)
    (hs : Supplied p.index actions base tip place.node chain s scope wanted) :
    (tasks actions tip).Nodup := by
  rw [hs.tasks_eq]
  exact nodup_extended (hlaw.nodup_selectionTasks (hlaw.place_lt hplace).2 _)

/-- A consumer has the same lineage wherever its region is planned. -/
theorem sameChain_of_consumer (hlaw : ScopeIndex.Lawful t p.index) (h : d.Sound p regions G)
    (h' : d'.Sound p regions' G') (hsub : regions ⊆ regions')
    (hnames : (regions.map AcceptedRegion.name).Nodup)
    (hnames' : (regions'.map AcceptedRegion.name).Nodup) {id id' : Nat} {a a' : Action}
    {k : Consumer} (ha : d.actions[id]? = some a) (ha' : d'.actions[id']? = some a')
    (hk : a.consumer? = some k) (hk' : a'.consumer? = some k) :
    SameChain d.actions d'.actions id id' := by
  have hmade := h.made a (List.mem_of_getElem? ha)
  have hmade' := h'.made a' (List.mem_of_getElem? ha')
  have hselection (hframe : a.task.isSome) (hframe' : a'.task.isSome) :
      SameChain d.actions d'.actions id id' := by
    refine sameChain_of_tasks hlaw h h' ha ha' hframe hframe' ?_
    rw [h.consumer_tasks hlaw hnames ha hk, h'.consumer_tasks hlaw hnames' ha' hk',
      h.consumer_tasks_mono hsub hnames' hnames (List.mem_of_getElem? ha) hk]
  have htips {base base' tip tip' node : Nat} {chain s : Systematic} {scope : Scope}
      {wanted : List String}
      (hs : Supplied p.index d.actions base tip node chain s scope wanted)
      (hs' : Supplied p.index d'.actions base' tip' node chain s scope wanted) :
      SameChain d.actions d'.actions tip tip' := by
    obtain ⟨b, hb, hframe⟩ := hs.frame
    obtain ⟨b', hb', hframe'⟩ := hs'.frame
    exact sameChain_of_tasks hlaw h h' hb hb' hframe hframe' (hs.tasks_eq.trans hs'.tasks_eq.symm)
  cases hmade with
  | source =>
      cases hk
      exact hselection rfl (by simp [Action.task_of_selection hk'])
  | define => cases hk
  | filter =>
      cases hk
      exact hselection rfl (by simp [Action.task_of_selection hk'])
  | @statistics place weight c chain s _ tip base hplace hw hc _ _ hs =>
      cases hk
      cases hmade' with
      | source => cases hk'
      | define => cases hk'
      | filter => cases hk'
      | output => cases hk'
      | @statistics place' weight' c' chain' s' _ tip' base' hplace' hw' hc' _ _ hs' =>
          simp only [Action.consumer?, Planner.statisticsAction, Option.some.injEq,
            Consumer.statistics.injEq] at hk'
          obtain ⟨hnode, rfl, -, rfl⟩ := hk'
          rw [hnode, hplace, Option.some.injEq] at hplace'
          subst hplace'
          rw [hw, Option.some.injEq] at hw'
          subst hw'
          rw [hc, Option.some.injEq] at hc'
          subst hc'
          refine sameChain_step h h' ha ha' rfl rfl (htips hs hs') fun f hf htip hline => ?_
          obtain ⟨hbase, hmem⟩ := base_of_sameLine h.toLinked h'.toLinked hs hs'
            (nodup_supplied hlaw hplace hs') hline
          simp only [Planner.statisticsAction] at hf ⊢
          simp only [Action.renumber, hf, Option.map_some, htip, hbase,
            ← hline.consumer_dependencies_eq (hs.frame.mem_lineage h.toLinked) hmem]
  | @output r s writer spec _ tip base hr hplace _ hspec _ hs =>
      cases hk
      cases hmade' with
      | source => cases hk'
      | define => cases hk'
      | filter => cases hk'
      | statistics => cases hk'
      | @output r' s' writer' spec' _ tip' base' hr' hplace' _ hspec' _ hs' =>
          simp only [Action.consumer?, Planner.outputAction, Option.some.injEq,
            Consumer.output.injEq] at hk'
          obtain ⟨hname, rfl, rfl⟩ := hk'
          have hsame : r' = r := List.inj_on_of_nodup_map hnames' hr' (hsub hr) hname
          subst hsame
          rw [hspec, Option.some.injEq] at hspec'
          subst hspec'
          refine sameChain_step h h' ha ha' rfl rfl (htips hs hs') fun f hf htip hline => ?_
          obtain ⟨hbase, hmem⟩ := base_of_sameLine h.toLinked h'.toLinked hs hs'
            (nodup_supplied hlaw hplace hs') hline
          simp only [Planner.outputAction] at hf ⊢
          simp only [Action.renumber, hf, Option.map_some, htip, hbase,
            ← hline.consumer_dependencies_eq (hs.frame.mem_lineage h.toLinked) hmem]

end Frames
end SelectionPlan
