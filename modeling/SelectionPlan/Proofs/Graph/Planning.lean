import SelectionPlan.Proofs.Graph.Sound

/-!
# Planning steps keep drafts sound

Every step of planning appends made actions and gives its consumer the frame it needs.  The only
error of a step is that a physical column would be claimed twice.
-/

namespace SelectionPlan

/-- The columns allowed by `G` can be computed side by side: none takes the name of a dataset
column, and none that of another. -/
def Planner.Clean (p : Planner) (G : ColumnRef → Systematic → Prop) : Prop :=
  ∀ c older s, p.index.Declares c older → G c.ref s →
    lookupKey (p.namer.physical c.name s) p.datasetColumns.dataset = none ∧
    ∀ c' older' s', p.index.Declares c' older' → G c'.ref s' →
      p.namer.physical c'.name s' = p.namer.physical c.name s → c'.name = c.name ∧ s' = s

/-- The complaint about a column allowed by `G` whose physical name is taken: by a dataset column,
or by a column allowed by `G` of another logical name or for another systematic. -/
inductive Planner.Clash (p : Planner) (G : ColumnRef → Systematic → Prop) : BuildError → Prop
  | dataset {c : Column} {older : Scope} {s : Systematic} {reader : String} :
      p.index.Declares c older → G c.ref s →
      lookupKey (p.namer.physical c.name s) p.datasetColumns.dataset = some reader →
      Clash p G (.naming (.collision (p.namer.physical c.name s) (.dataset reader)
        (.assigned c.name s)))
  | computed {c c' : Column} {older older' : Scope} {s s' : Systematic} :
      p.index.Declares c older → G c.ref s → p.index.Declares c' older' → G c'.ref s' →
      p.namer.physical c'.name s' = p.namer.physical c.name s → ¬ (c'.name = c.name ∧ s' = s) →
      Clash p G (.naming (.collision (p.namer.physical c.name s) (.assigned c'.name s')
        (.assigned c.name s)))

theorem Planner.Clean.not_clash {p : Planner} {G : ColumnRef → Systematic → Prop} (h : p.Clean G)
    (e : BuildError) : ¬ p.Clash G e := by
  intro hclash
  cases hclash with
  | dataset hdecl hG htaken =>
      have hfree := (h _ _ _ hdecl hG).1
      simp [hfree] at htaken
  | computed hdecl hG hdecl' hG' hname hdiffer =>
      exact hdiffer ((h _ _ _ hdecl hG).2 _ _ _ hdecl' hG' hname)

structure Draft.Grows (p : Planner) (regions : List AcceptedRegion)
    (G : ColumnRef → Systematic → Prop) (d d' : Draft) : Prop where
  sound : d'.Sound p regions G
  isPrefix : d.actions <+: d'.actions

def Draft.Selects (d : Draft) (node : Nat) (s : Systematic) : Prop :=
  ∃ a ∈ d.actions, a.task = some (.select node s)

/-- The frame `r.1` of the draft `r.2` continues the frame `base` with what is needed for `done`. -/
structure Draft.Reaches (p : Planner) (regions : List AcceptedRegion)
    (G : ColumnRef → Systematic → Prop) (d : Draft) (base : Nat) (done : List Task)
    (r : ActionId × Draft) : Prop extends Draft.Grows p regions G d r.2 where
  base_frame : IsFrame d.actions base
  frame : IsFrame r.2.actions r.1
  suffix : lineage r.2.actions base <:+ lineage r.2.actions r.1
  tasks_eq : tasks r.2.actions r.1 = done

section Prefix

variable {actions actions' : List Action}

theorem getElem?_of_prefix (h : actions <+: actions') {i : Nat} {a : Action}
    (ha : actions[i]? = some a) : actions'[i]? = some a := by
  obtain ⟨more, rfl⟩ := h
  rw [List.getElem?_append_left (List.getElem?_eq_some_iff.mp ha).1, ha]

theorem Linked.lineage_of_prefix (hl : Linked actions') (h : actions <+: actions') {i : Nat}
    {a : Action} (ha : actions[i]? = some a) : lineage actions' i = lineage actions i := by
  obtain ⟨more, rfl⟩ := h
  exact hl.lineage_append ha

theorem IsFrame.mono (h : actions <+: actions') {i : Nat} (hi : IsFrame actions i) :
    IsFrame actions' i := by
  obtain ⟨more, rfl⟩ := h
  exact hi.append more

theorem Draft.Selects.mono {d d' : Draft} (h : d.actions <+: d'.actions) {node : Nat}
    {s : Systematic} (hs : d.Selects node s) : d'.Selects node s := by
  obtain ⟨a, ha, htask⟩ := hs
  exact ⟨a, h.subset ha, htask⟩

end Prefix

section Reaches

variable {p : Planner} {regions : List AcceptedRegion} {G : ColumnRef → Systematic → Prop}
  {d d' d'' : Draft}

theorem Draft.Grows.refl (h : d.Sound p regions G) : d.Grows p regions G d :=
  ⟨h, List.prefix_refl _⟩

theorem Draft.Grows.trans (h : d.Grows p regions G d') (h' : d'.Grows p regions G d'') :
    d.Grows p regions G d'' :=
  ⟨h'.sound, h.isPrefix.trans h'.isPrefix⟩

theorem Draft.Reaches.refl (h : d.Sound p regions G) {base : Nat} (hbase : IsFrame d.actions base) :
    d.Reaches p regions G base (tasks d.actions base) (base, d) :=
  ⟨.refl h, hbase, hbase, List.suffix_refl _, rfl⟩

theorem Draft.Reaches.trans {base : Nat} {done more : List Task} {r r' : ActionId × Draft}
    (h : d.Reaches p regions G base done r) (h' : r.2.Reaches p regions G r.1 more r') :
    d.Reaches p regions G base more r' := by
  obtain ⟨b, hb, -⟩ := h.base_frame.mono h.isPrefix
  refine ⟨h.toGrows.trans h'.toGrows, h.base_frame, h'.frame, ?_, h'.tasks_eq⟩
  obtain ⟨a, ha, -⟩ := h.frame
  rw [h'.sound.toLinked.lineage_of_prefix h'.isPrefix hb]
  have hsuf := h'.suffix
  rw [h'.sound.toLinked.lineage_of_prefix h'.isPrefix ha] at hsuf
  exact h.suffix.trans hsuf

end Reaches

theorem Column.isComputed_of_subset {c d : Column} (h : d.affects ⊆ c.affects) (s : Systematic) :
    d.isComputed (c.effective s) = d.isComputed s := by
  simp only [isComputed, specUnder, effective_effective h]

section Assign

variable {r r' : NameRegistry} {physical logical : String} {s : Systematic}

theorem NameRegistry.assign_eq_ok (h : r.assign physical logical s = .ok r') :
    lookupKey physical r.dataset = none ∧ r'.dataset = r.dataset ∧
      (∀ owner, lookupKey physical r.assigned = some owner → owner = (logical, s)) ∧
      ∀ q, lookupKey q r'.assigned =
        if q = physical then some (logical, s) else lookupKey q r.assigned := by
  simp only [assign] at h
  split at h
  · cases h
  · rename_i hfree
    split at h
    · rename_i hnone
      cases h
      refine ⟨hfree, rfl, by simp [hnone], fun q => ?_⟩
      simp only [lookupKey, eq_comm]
    · rename_i l s' hassigned
      split at h
      · rename_i hsame
        cases h
        obtain ⟨rfl, rfl⟩ := hsame
        refine ⟨hfree, rfl, by simp [hassigned], fun q => ?_⟩
        split
        · rename_i hq
          rw [hq, hassigned]
        · rfl
      · cases h

theorem NameRegistry.assign_eq_error {e : NamingError}
    (h : r.assign physical logical s = .error e) :
    (∃ reader, lookupKey physical r.dataset = some reader ∧
      e = .collision physical (.dataset reader) (.assigned logical s)) ∨
    ∃ l s', lookupKey physical r.assigned = some (l, s') ∧ ¬ (l = logical ∧ s' = s) ∧
      e = .collision physical (.assigned l s') (.assigned logical s) := by
  simp only [assign] at h
  split at h
  · rename_i reader htaken
    cases h
    exact .inl ⟨reader, htaken, rfl⟩
  · split at h
    · cases h
    · rename_i l s' hassigned
      split at h
      · cases h
      · rename_i hdiffer
        cases h
        exact .inr ⟨l, s', hassigned, hdiffer, rfl⟩

end Assign

namespace Planner

variable {p : Planner} {regions : List AcceptedRegion} {G : ColumnRef → Systematic → Prop}
  {d : Draft}

theorem assign_meets (h : d.Sound p regions G) {c : Column} {older : Scope} {s : Systematic}
    (hdecl : p.index.Declares c older) (hG : G c.ref s) :
    Meets (d.registry.assign (p.namer.physical c.name s) c.name s)
      (fun r => d.registry.assign (p.namer.physical c.name s) c.name s = .ok r)
      (fun e => p.Clash G (.naming e)) := by
  cases hassign : d.registry.assign (p.namer.physical c.name s) c.name s with
  | ok r => exact rfl
  | error e =>
      apply Meets.error
      rcases NameRegistry.assign_eq_error hassign with
        ⟨reader, htaken, rfl⟩ | ⟨l, s', hassigned, hdiffer, rfl⟩
      · rw [h.dataset_eq] at htaken
        exact .dataset hdecl hG htaken
      · obtain ⟨a, ha, hsys, slot, definition, hop⟩ := h.owned _ l s' hassigned
        cases h.made a ha with
        | @define c' older' s'' _ tip hdecl' =>
            simp only [defineAction] at hsys hop
            injection hop with _ hcolumn hname _
            subst hsys hname
            exact .computed hdecl hG hdecl' (h.allowed _ ha _ _ defineAction_task) hcolumn hdiffer
        | _ => cases hop

theorem reaches_push {a : Action} {registry : NameRegistry} {tip : Nat} {t : Task}
    (h : Draft.Sound p regions G ⟨d.actions ++ [a], registry⟩) (hframe : IsFrame d.actions tip)
    (hinput : a.input = some tip) (htask : a.task = some t) :
    d.Reaches p regions G tip (t :: tasks d.actions tip)
      (d.actions.length, ⟨d.actions ++ [a], registry⟩) := by
  obtain ⟨b, hb, -⟩ := id hframe
  have ha : (d.actions ++ [a])[d.actions.length]? = some a := List.getElem?_concat_length
  refine ⟨⟨h, List.prefix_append _ _⟩, hframe, ⟨a, ha, by simp [htask]⟩, ?_, ?_⟩
  · simp only [h.toLinked.lineage_eq ha, hinput, Option.elim_some]
    exact List.suffix_cons _ _
  · simp only [h.toLinked.tasks_eq ha, htask, hinput, Option.elim_some, h.toLinked.tasks_append hb]
    rfl

theorem createDefine_meets (h : d.Sound p regions G) {tip : Nat} {c : Column} {older : Scope}
    {s : Systematic} (hframe : IsFrame d.actions tip) (hdecl : p.index.Declares c older)
    (heff : c.effective s = s) (hcomp : c.isComputed s = true)
    (hfresh : .define c.ref s ∉ tasks d.actions tip)
    (hcovered : Covered (lineage d.actions tip) older s (c.declared.spec s).inputs)
    (hG : G c.ref s) :
    Meets (p.createDefine (d.producer? tip) d tip c older s)
      (d.Reaches p regions G tip (.define c.ref s :: tasks d.actions tip)) (p.Clash G) := by
  have hresolve : c.declared.resolve s
      (boundName (p.bindings (lineage d.actions tip) older s (c.declared.spec s).inputs)) c.path =
      .ok ((c.declared.spec s).define (older.carrier p.namer s)) :=
    Variable.resolve_eq fun i hi => boundName_bindings hcovered hi
  have hassign := assign_meets h hdecl hG
  simp only [createDefine, bind_eq hcovered, ok_bind, hresolve, producers_bindings]
  cases hr : d.registry.assign (p.namer.physical c.name s) c.name s with
  | error e =>
      rw [hr] at hassign
      exact hassign
  | ok registry =>
      obtain ⟨hfree, hdataset, hsame, hassigned⟩ := NameRegistry.assign_eq_ok hr
      obtain ⟨b, hb, -⟩ := id hframe
      have htip : tip < d.actions.length := (List.getElem?_eq_some_iff.mp hb).1
      refine reaches_push
        (a := p.defineAction d.actions.length tip (lineage d.actions tip) c older s) ?_ hframe
        rfl rfl
      refine h.push rfl (.define hdecl heff hcomp htip hframe hfresh hcovered) ?_ hdataset ?_ ?_ ?_
      · intro c' s' htask
        cases htask
        exact hG
      · intro slot column name definition hop
        cases hop
        exact ⟨hdataset ▸ hfree, by simp [hassigned, defineAction]⟩
      · intro column owner hold
        rw [hassigned]
        split
        · rename_i hcolumn
          subst hcolumn
          rw [hsame owner hold]
        · exact hold
      · intro column name s' hnew
        rw [hassigned] at hnew
        split at hnew
        · rename_i hcolumn
          cases hnew
          exact .inr ⟨rfl, c.ref.slot, _, by rw [hcolumn]; rfl⟩
        · exact .inl hnew

/-- Adding a column that is there already changes nothing, and a definition that another reader put
behind the same frame is shared. -/
theorem withColumn_meets {base : Nat} {done : List Task} {r : ActionId × Draft}
    (hr : d.Reaches p regions G base done r) {c : Column} {older : Scope} {s : Systematic}
    (hdecl : p.index.Declares c older) (hcomp : c.isComputed s = true)
    (hcovered : Covered (lineage r.2.actions r.1) older (c.effective s) (c.specUnder s).inputs)
    (hG : G c.ref (c.effective s)) :
    Meets (p.withColumn s r (c, older))
      (d.Reaches p regions G base (done.insert (.define c.ref (c.effective s)))) (p.Clash G) := by
  obtain ⟨tip, e⟩ := r
  have htasks : tasks e.actions tip = done := hr.tasks_eq
  have hprod : (e.producer? tip c.ref (c.effective s)).isSome ↔
      .define c.ref (c.effective s) ∈ done := by
    rw [Draft.producer?_eq, producerIn_isSome, ← htasks]
    rfl
  simp only [withColumn]
  cases hp : e.producer? tip c.ref (c.effective s) with
  | some id =>
      rw [List.insert_of_mem (hprod.mp (by simp [hp]))]
      exact hr
  | none =>
      have hfresh : .define c.ref (c.effective s) ∉ done := fun hmem => by
        simpa [hp] using hprod.mpr hmem
      rw [List.insert_of_not_mem hfresh, ← htasks]
      rw [← htasks] at hfresh
      cases hx : e.extension? tip c.ref (c.effective s) with
      | none =>
          refine (createDefine_meets hr.sound hr.frame hdecl (Column.effective_idem c s)
            (by simpa using hcomp) hfresh hcovered hG).mono ?_
          exact fun r' hr' => hr.trans hr'
      | some id =>
          obtain ⟨hlt, hfound, -⟩ := List.findIdx?_eq_some_iff_getElem.mp hx
          have ha := List.getElem?_eq_getElem hlt
          simp only [Bool.and_eq_true, beq_iff_eq, Action.computes_iff] at hfound
          obtain ⟨hinput, htask⟩ := hfound
          have hl := hr.sound.toLinked
          refine hr.trans ⟨.refl hr.sound, hr.frame, ⟨_, ha, by simp [htask]⟩, ?_, ?_⟩
          · simp only [hl.lineage_eq ha, hinput, Option.elim_some]
            exact List.suffix_cons _ _
          · simp only [hl.tasks_eq ha, hinput, htask, Option.elim_some]
            rfl

theorem covers_inputs {c : Column} {older : Scope} {has : ColumnRef → Systematic → Prop}
    {s : Systematic} (hr : Scope.Resolved (c :: older))
    (h : ∀ d oldest, Scope.Reads s older (c.specUnder s).inputs d oldest → d.isComputed s = true →
      has d.ref (d.effective s)) :
    Covers has older (c.effective s) (c.specUnder s).inputs := by
  intro i hi
  obtain ⟨d, hd⟩ := hr.exists_input hi
  obtain ⟨oldest, hloc⟩ := Scope.exists_locate hd
  have haffects := hr.affects_input hi hd
  refine ⟨d, hd, fun hcomp => ?_⟩
  rw [Column.isComputed_of_subset haffects] at hcomp
  rw [Column.effective_effective haffects]
  exact h d oldest (.direct hi hloc) hcomp

theorem extend_meets {t : SelectionTree} (hlaw : ScopeIndex.Lawful t p.index)
    (h : d.Sound p regions G) {base i : Nat} {place : Place} (hbase : IsFrame d.actions base)
    (hplace : p.index.place? i = some place) {wanted : List String} {s : Systematic}
    (hG : ∀ need ∈ place.scope.needs s wanted, G need.1.ref (need.1.effective s)) :
    Meets (p.extend d base place.scope wanted s)
      (d.Reaches p regions G base
        (extended s (tasks d.actions base) (place.scope.needs s wanted))) (p.Clash G) := by
  refine Meets.foldlM (I := fun done =>
    d.Reaches p regions G base (extended s (tasks d.actions base) done)) (.refl h hbase) ?_
  rintro done ⟨c, older⟩ r hpre hr
  obtain ⟨rest, hsplit⟩ := hpre
  have hsplit : place.scope.needs s wanted = done ++ (c, older) :: rest := by simp [← hsplit]
  have hmem : (c, older) ∈ place.scope.needs s wanted := by simp [hsplit]
  obtain ⟨hreads, hcomp⟩ := Scope.mem_needs.mp hmem
  have hdecl : p.index.Declares c older := ⟨i, place, hplace, hreads.suffix⟩
  have hcovered :
      Covered (lineage r.2.actions r.1) older (c.effective s) (c.specUnder s).inputs := by
    refine covers_inputs (hlaw.resolved_of_declares hdecl) fun d' oldest hread hcomp' => ?_
    have hdone := Scope.mem_of_needs_split hsplit hread hcomp'
    have htask : Task.define d'.ref (d'.effective s) ∈ tasks r.2.actions r.1 := by
      rw [hr.tasks_eq]
      exact mem_extended.mpr (.inr ⟨_, hdone, rfl⟩)
    exact htask
  rw [extended_append]
  exact withColumn_meets hr hdecl hcomp hcovered (hG _ hmem)

theorem exists_selection {node : Nat} {s : Systematic} (hs : d.Selects node s) (path : String) :
    ∃ id a, selection d node path s = .ok id ∧ d.actions[id]? = some a ∧
      a.task = some (.select node s) := by
  obtain ⟨a, ha, htask⟩ := hs
  obtain ⟨id, hid⟩ := Draft.exists_selection? ha htask
  obtain ⟨b, hb, hbtask⟩ := Draft.selection?_eq_some hid
  exact ⟨id, b, by simp only [selection, hid], hb, hbtask⟩

/-- The frame that extends a selection supplies its reader. -/
theorem supplied {t : SelectionTree} (hlaw : ScopeIndex.Lawful t p.index)
    (h : d.Sound p regions G) {base node : Nat} {place : Place} {b : Action}
    {chain s : Systematic} {wanted : List String} {r : ActionId × Draft}
    (hb : d.actions[base]? = some b) (htask : b.task = some (.select node chain))
    (hwanted : ∀ w ∈ wanted, ∃ c, place.scope.lookup w = some c)
    (hr : d.Reaches p regions G base
      (extended s (tasks d.actions base) (place.scope.needs s wanted)) r) :
    Supplied p.index r.2.actions base r.1 node chain s place.scope wanted := by
  obtain ⟨-, -, -, hselected⟩ := h.selection hlaw hb htask
  have htasks := hr.tasks_eq
  refine ⟨⟨b, getElem?_of_prefix hr.isPrefix hb, htask⟩, hr.frame, hr.suffix, ?_, ?_⟩
  · rw [htasks, hselected]
  · intro w hw
    obtain ⟨c, hc⟩ := hwanted w hw
    obtain ⟨older, hloc⟩ := Scope.exists_locate hc
    refine ⟨c, hc, fun hcomp => ?_⟩
    have hneed : (c, older) ∈ place.scope.needs s wanted :=
      Scope.mem_needs.mpr ⟨.direct hw hloc, hcomp⟩
    have hmem : Task.define c.ref (c.effective s) ∈ tasks r.2.actions r.1 := by
      rw [htasks]
      exact mem_extended.mpr (.inr ⟨_, hneed, rfl⟩)
    exact hmem

theorem createFilter_meets {t : SelectionTree} (hlaw : ScopeIndex.Lawful t p.index)
    (h : d.Sound p regions G) {place parent : Place} {v : Variable} {chain : Systematic}
    (hplace : p.index.place? place.node = some place) (hfilter : place.filter = some v)
    (hparent : place.parent = some parent.node)
    (hpp : p.index.place? parent.node = some parent) (hchain : place.chainUnder chain = chain)
    (hsel : d.Selects parent.node (parent.chainUnder chain))
    (hG : ∀ need ∈ place.filterNeeds chain, G need.1.ref (need.1.effective chain)) :
    Meets (p.createFilter d place parent v chain)
      (fun d' => d.Grows p regions G d' ∧ d'.Selects place.node chain) (p.Clash G) := by
  obtain ⟨base, b, hbase, hb, htask⟩ := exists_selection hsel place.path
  have hneeds : place.filterNeeds chain = place.scope.needs chain (v.spec chain).inputs := by
    simp [Place.filterNeeds, Place.filterInputs, hfilter, hchain]
  have hwanted : ∀ w ∈ (v.spec chain).inputs, ∃ c, place.scope.lookup w = some c := by
    obtain ⟨_, _, hext⟩ := hlaw.extends_of_place hplace
    exact fun w hw => hext.filter_input v hfilter w (Variable.mem_allInputs hw)
  simp only [createFilter, hbase, ok_bind]
  refine (extend_meets hlaw h ⟨b, hb, by simp [htask]⟩ hplace (hneeds ▸ hG)).bind ?_
  rintro ⟨tip, e⟩ hr
  have hs := supplied hlaw h hb htask hwanted hr
  have hresolve : v.resolve chain (boundName (p.bindings (lineage e.actions tip) place.scope chain
      (v.spec chain).inputs)) place.path =
      .ok ((v.spec chain).define (place.scope.carrier p.namer chain)) :=
    Variable.resolve_eq fun i hi => boundName_bindings hs.covered hi
  simp only [pushFilter, bind_eq hs.covered, ok_bind, hresolve, producers_bindings]
  obtain ⟨a, ha, -⟩ := hr.frame
  have htip : tip < e.actions.length := (List.getElem?_eq_some_iff.mp ha).1
  have hpush := hr.sound.push_same
    (a := p.filterAction e.actions.length tip (lineage e.actions tip) place v chain) rfl
    (.filter hplace hfilter hparent hpp hchain htip hs) (fun _ _ _ _ hop => by cases hop)
  exact ⟨hr.toGrows.trans ⟨hpush, List.prefix_append _ _⟩,
    p.filterAction e.actions.length tip (lineage e.actions tip) place v chain,
    List.mem_append_right _ (List.mem_singleton.mpr rfl), rfl⟩

theorem place_root {t : SelectionTree} (hlaw : ScopeIndex.Lawful t p.index) {place : Place}
    (hplace : p.index.place? place.node = some place) (hparent : place.parent = none) :
    p.index.place? 0 = some place ∧ ∀ s, place.chainUnder s = .nominal := by
  have hnone := hlaw.parent_eq hplace
  rw [hparent] at hnone
  have hzero : place.node = 0 := by
    rcases Nat.eq_zero_or_pos place.node with hzero | hpos
    · exact hzero
    · obtain ⟨parent, hsome⟩ := hlaw.wellFormed.exists_parent hpos (hlaw.place_lt hplace).2
      rw [← hnone] at hsome
      cases hsome
  rw [hzero] at hplace
  refine ⟨hplace, fun s => ?_⟩
  obtain ⟨q, hq, hext⟩ := hlaw.root
  rw [hplace, Option.some.injEq] at hq
  subst hq
  have hfilter : place.filter = none := by
    rw [← Option.not_isSome_iff_eq_none, hlaw.filter_isSome hplace, hparent]
    simp
  have hchain : ∀ x, x ∉ place.chain := by simp [hext.mem_chain, hfilter]
  cases s with
  | nominal => rfl
  | variation name => simp [Place.chainUnder, hchain name]

theorem createSelections_meets {t : SelectionTree} (hlaw : ScopeIndex.Lawful t p.index)
    (h : d.Sound p regions G) {place : Place} {chains : List Systematic}
    (hplace : p.index.place? place.node = some place)
    (hchains : ∀ chain ∈ chains, place.chainUnder chain = chain)
    (hsel : ∀ chain ∈ chains, ∀ i parent, place.parent = some i → p.index.place? i = some parent →
      d.Selects i (parent.chainUnder chain))
    (hG : ∀ chain ∈ chains, ∀ need ∈ place.filterNeeds chain,
      G need.1.ref (need.1.effective chain)) :
    Meets (p.createSelections chains d place)
      (fun d' => d.Grows p regions G d' ∧ ∀ chain ∈ chains, d'.Selects place.node chain)
      (p.Clash G) := by
  have hsome := hlaw.filter_isSome hplace
  simp only [createSelections]
  cases hparent : place.parent with
  | none =>
      obtain ⟨hzero, hnominal⟩ := place_root hlaw hplace hparent
      have hpush := h.push_same (a := sourceAction d.actions.length place) rfl (.source hzero)
        (fun _ _ _ _ hop => by cases hop)
      refine ⟨⟨hpush, List.prefix_append _ _⟩, fun chain hchain => ?_⟩
      refine ⟨sourceAction d.actions.length place,
        List.mem_append_right _ (List.mem_singleton.mpr rfl), ?_⟩
      rw [← hchains chain hchain, hnominal, sourceAction_task]
  | some i =>
      rw [hparent, Option.isSome_some] at hsome
      obtain ⟨v, hv⟩ := Option.isSome_iff_exists.mp hsome
      have hedge : t.parent? place.node = some i := hlaw.parent_eq hplace ▸ hparent
      obtain ⟨-, parent, -, hpp, -⟩ := hlaw.child _ _ hedge
      have hi := (hlaw.place_lt hpp).1
      subst hi
      simp only [hv, hpp]
      refine Meets.foldlM (I := fun done d' =>
        d.Grows p regions G d' ∧ ∀ chain ∈ done, d'.Selects place.node chain)
        ⟨.refl h, by simp⟩ ?_
      rintro done chain d' hpre ⟨hgrows, hdone⟩
      have hmem : chain ∈ chains := hpre.subset (by simp)
      refine (createFilter_meets hlaw hgrows.sound hplace hv hparent hpp (hchains chain hmem)
        ((hsel chain hmem _ parent hparent hpp).mono hgrows.isPrefix) (hG chain hmem)).mono ?_
      rintro d'' ⟨hgrows', hselects⟩
      refine ⟨hgrows.trans hgrows', fun chain' hchain' => ?_⟩
      rcases List.mem_append.mp hchain' with hchain' | hchain'
      · exact (hdone chain' hchain').mono hgrows'.isPrefix
      · exact List.mem_singleton.mp hchain' ▸ hselects

section Effective

variable {scope : Scope} {line : List Action} {w : String} {c : Column} {s : Systematic}

theorem carrier_effective (hc : scope.lookup w = some c) (namer : Namer) :
    scope.carrier namer (c.effective s) w = scope.carrier namer s w := by
  simp [Scope.carrier, hc]

theorem producersIn_effective (hc : scope.lookup w = some c) :
    producersIn line scope (c.effective s) [w] = producersIn line scope s [w] := by
  simp only [producersIn, List.filterMap_cons, List.filterMap_nil, hc, Option.bind_some,
    Column.isComputed_effective, Column.effective_idem]

theorem reads_effective (hr : scope.Resolved) (hc : scope.lookup w = some c) :
    ∀ d older, Scope.Reads s scope [w] d older → d.effective s = d.effective (c.effective s) := by
  intro d older hread
  refine (Column.effective_effective (hread.affects_subset hr fun i hi e he => ?_) s).symm
  rw [List.mem_singleton.mp hi, hc, Option.some.injEq] at he
  exact he ▸ List.Subset.refl _

theorem supplied_effective {index : ScopeIndex} {actions : List Action} {base tip node : Nat}
    {chain : Systematic} (hr : scope.Resolved) (hc : scope.lookup w = some c)
    (hs : Supplied index actions base tip node chain s scope [w]) :
    Supplied index actions base tip node chain (c.effective s) scope [w] := by
  refine ⟨hs.base_task, hs.frame, hs.suffix, ?_, ?_⟩
  · rw [hs.tasks_eq, ← Scope.needs_congr (reads_effective hr hc)]
    refine extended_congr fun need hneed => ?_
    exact reads_effective hr hc _ _ (Scope.mem_needs.mp hneed).1
  · intro i hi
    obtain ⟨c', hc', hcovered⟩ := hs.covered i hi
    rw [List.mem_singleton.mp hi, hc, Option.some.injEq] at hc'
    subst hc'
    exact ⟨c, List.mem_singleton.mp hi ▸ hc, by simpa using hcovered⟩

end Effective

theorem createStatistics_meets {t : SelectionTree} (hlaw : ScopeIndex.Lawful t p.index)
    (h : d.Sound p regions G) {place : Place} {w : String} {c : Column} {s : Systematic}
    {base : Nat} {b : Action} (hplace : p.index.place? place.node = some place)
    (hw : p.index.tree.weight place.node = some w) (hc : place.scope.lookup w = some c)
    (hb : d.actions[base]? = some b)
    (htask : b.task = some (.select place.node (place.chainUnder s)))
    (hG : ∀ need ∈ place.scope.needs s [w], G need.1.ref (need.1.effective s)) :
    Meets (p.createStatistics d place base s w)
      (fun r => d.Grows p regions G r.2 ∧ ∃ a, r.2.actions[r.1]? = some a ∧
        a.sums base c.ref (c.effective s) = true) (p.Clash G) := by
  simp only [createStatistics, Scope.require_eq_ok.mpr hc, ok_bind]
  cases hfound : d.statistics? base c.ref (c.effective s) with
  | some id =>
      obtain ⟨hlt, hsums, -⟩ := List.findIdx?_eq_some_iff_getElem.mp hfound
      exact ⟨.refl h, _, List.getElem?_eq_getElem hlt, hsums⟩
  | none =>
      refine (extend_meets hlaw h ⟨b, hb, by simp [htask]⟩ hplace hG).bind ?_
      rintro ⟨tip, e⟩ hr
      have hs := supplied hlaw h hb htask (by simp [hc]) hr
      simp only [pushStatistics, bind_eq hs.covered, ok_bind, producers_bindings,
        boundName_bindings hs.covered (List.mem_singleton.mpr rfl)]
      obtain ⟨a, ha, -⟩ := hr.frame
      have htip : tip < e.actions.length := (List.getElem?_eq_some_iff.mp ha).1
      have hmade : Made p regions e.actions (p.statisticsAction e.actions.length tip
          (lineage e.actions tip) place base (place.chainUnder s) w c (c.effective s)) :=
        .statistics hplace hw hc (Column.effective_idem c s) htip
          (supplied_effective (hlaw.resolved hplace) hc hs)
      have hpush := hr.sound.push_same rfl hmade (fun _ _ _ _ hop => by cases hop)
      rw [← producersIn_effective hc, ← carrier_effective hc]
      refine ⟨hr.toGrows.trans ⟨hpush, List.prefix_append _ _⟩, _, List.getElem?_concat_length, ?_⟩
      simp [Action.sums]

theorem createOutput_meets {t : SelectionTree} (hlaw : ScopeIndex.Lawful t p.index)
    (h : d.Sound p regions G) {r : AcceptedRegion} {s : Systematic} {writer : Nat}
    {spec : OutputSpec} (hr : r ∈ regions) (hplace : p.index.place? r.place.node = some r.place)
    (hsys : s ∈ r.systematics) (hspec : r.outputs[writer]? = some spec)
    (hwanted : ∀ w ∈ spec.columns ++ (r.weightOf spec).toList, ∃ c, r.place.scope.lookup w = some c)
    (hsel : d.Selects r.place.node (r.place.chainUnder s))
    (hG : ∀ need ∈ r.place.scope.needs s (spec.columns ++ (r.weightOf spec).toList),
      G need.1.ref (need.1.effective s)) :
    Meets (p.createOutput d r.name r.place s writer spec (r.weightOf spec))
      (fun result => d.Grows p regions G result.2 ∧ ∃ a, result.2.actions[result.1]? = some a ∧
        a.systematic = s ∧ ∃ request, a.operation = .output r.name writer spec.name request)
      (p.Clash G) := by
  obtain ⟨base, b, hbase, hb, htask⟩ := exists_selection hsel r.place.path
  simp only [createOutput, hbase, ok_bind]
  refine (extend_meets hlaw h ⟨b, hb, by simp [htask]⟩ hplace hG).bind ?_
  rintro ⟨tip, e⟩ hreach
  have hs := supplied hlaw h hb htask hwanted hreach
  have hbound (w : String) (hw : w ∈ spec.columns ++ (r.weightOf spec).toList) :=
    boundName_bindings (p := p) hs.covered hw
  have hcolumns : (spec.columns.filterMap fun c => (boundName (p.bindings (lineage e.actions tip)
      r.place.scope s (spec.columns ++ (r.weightOf spec).toList)) c).map fun q => (c, q)) =
      spec.columns.map fun c => (c, r.place.scope.carrier p.namer s c) := by
    rw [← List.filterMap_eq_map]
    refine List.filterMap_congr fun c hc => ?_
    rw [hbound c (List.mem_append_left _ hc)]
    rfl
  have hweight : (r.weightOf spec).bind (boundName (p.bindings (lineage e.actions tip)
      r.place.scope s (spec.columns ++ (r.weightOf spec).toList))) =
      (r.weightOf spec).map (r.place.scope.carrier p.namer s) := by
    cases hw : r.weightOf spec with
    | none => rfl
    | some w =>
        rw [hw] at hbound
        exact hbound w (by simp)
  simp only [pushOutput, bind_eq hs.covered, ok_bind, producers_bindings, hcolumns, hweight]
  obtain ⟨a, ha, -⟩ := hreach.frame
  have htip : tip < e.actions.length := (List.getElem?_eq_some_iff.mp ha).1
  have hpush := hreach.sound.push_same (a := p.outputAction e.actions.length tip
    (lineage e.actions tip) base r s writer spec) rfl (.output hr hplace hsys hspec htip hs)
    (fun _ _ _ _ hop => by cases hop)
  exact ⟨hreach.toGrows.trans ⟨hpush, List.prefix_append _ _⟩, _, List.getElem?_concat_length, rfl,
    _, rfl⟩

end Planner
end SelectionPlan
