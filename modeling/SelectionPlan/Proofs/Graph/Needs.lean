import SelectionPlan.Proofs.Graph.Planning
import SelectionPlan.Proofs.Graph.Refinement
import SelectionPlan.Proofs.Graph.Worklist

/-!
# What is needed is what is planned

The stack of inputs empties, and what it leaves are the computed columns that the inputs need, each
once and after what it reads.  A reader and what it reads agree on the systematics in effect, so a
definition finds every column it reads in the frame that it extends.
-/

namespace SelectionPlan

def ScopeIndex.scopeAt (index : ScopeIndex) : Site → Scope
  | .after node => ((index.place? node).map Place.scope).getD []
  | .within c => (((index.place? c.node).map Place.scope).getD []).before c

namespace NameTables

variable {tables : NameTables} {t : SelectionTree} {index : ScopeIndex} {s : Systematic}
  {site : Site} {inputs : List String}

/-- A scope of the index, in which names mean what they mean at a site. -/
structure Shows (tables : NameTables) (index : ScopeIndex) (site : Site) (scope : Scope) :
    Prop where
  lookup_eq : ∀ name, tables.lookup site name = (scope.lookup name).map Column.ref
  inside : ∃ node p, index.place? node = some p ∧ scope <:+ p.scope

section Tables

variable (h : tables.Tabulates t index.places) (hindex : ScopeIndex.Lawful t index)
include h hindex

theorem Tabulates.ready : tables.Ready where
  found := by
    intro site name c hc
    have hname : t.nameAt? c = some name := by
      cases site with
      | within b => exact ((h.within_iff hindex).mp hc).2
      | after node => exact ((h.after_iff hindex).mp hc).2
    obtain ⟨v, hv, -⟩ := SelectionTree.nameAt?_eq_some.mp hname
    refine ⟨v, t.preorder.idxOf c.node, h.tree_eq ▸ hv, ?_⟩
    rw [h.position_eq_idxOf hindex, if_pos (SelectionTree.lt_size_of_own hv)]
  input := by
    intro c v s i hv hi
    rw [h.tree_eq] at hv
    obtain ⟨d, hd, -⟩ := hindex.existsUnique_input hv (v.spec_mem s) hi
    exact ⟨d, (h.within_iff hindex).mpr hd⟩
  position_inj := by
    intro i j k hi hj
    rw [h.position_eq_idxOf hindex] at hi hj
    split at hi
    · rename_i hlt
      split at hj
      · rw [← hj, Option.some.injEq] at hi
        exact (List.idxOf_inj (hindex.wellFormed.mem_preorder hlt)).mp hi
      · cases hj
    · cases hi

theorem Tabulates.shows (site : Site) : tables.Shows index site (index.scopeAt site) := by
  obtain ⟨root, hroot, -⟩ := hindex.root
  rcases Nat.lt_or_ge site.node t.size with hlt | hge
  · obtain ⟨p, hp⟩ := hindex.exists_place hlt
    cases site with
    | after node =>
        have hp : index.place? node = some p := hp
        simp only [ScopeIndex.scopeAt, hp, Option.map_some, Option.getD_some]
        exact ⟨h.lookup_after hp, node, p, hp, List.suffix_refl _⟩
    | within c =>
        have hp : index.place? c.node = some p := hp
        simp only [ScopeIndex.scopeAt, hp, Option.map_some, Option.getD_some]
        exact ⟨h.lookup_within hindex hp, c.node, p, hp, List.dropWhile_suffix _⟩
  · have hnone : index.place? site.node = none := by
      cases hp : index.place? site.node with
      | none => rfl
      | some p => exact absurd (hindex.place_lt hp).2 (Nat.not_lt_of_le hge)
    have hempty : index.scopeAt site = [] := by
      cases site with
      | after node =>
          have hnone : index.place? node = none := hnone
          simp [ScopeIndex.scopeAt, hnone]
      | within c =>
          have hnone : index.place? c.node = none := hnone
          simp [ScopeIndex.scopeAt, hnone, Scope.before]
    rw [hempty]
    exact ⟨fun name => h.lookup_outside hindex hge name, 0, root, hroot, List.nil_suffix⟩

theorem Tabulates.shows_older {c : Column} {older : Scope} (hc : index.Declares c older) :
    tables.Shows index (.within c.ref) older := by
  constructor
  · intro name
    apply Option.ext
    intro b
    rw [h.within_iff hindex, Option.map_eq_some_iff]
    exact (hindex.lookup_older hc).symm
  · obtain ⟨node, p, hp, hsuffix⟩ := hc
    exact ⟨node, p, hp, (List.suffix_cons c older).trans hsuffix⟩

omit h hindex in
theorem Shows.declares {scope older : Scope} (hscope : tables.Shows index site scope) {c : Column}
    (hc : c :: older <:+ scope) : index.Declares c older := by
  obtain ⟨node, p, hp, hsuffix⟩ := hscope.inside
  exact ⟨node, p, hp, hc.trans hsuffix⟩

omit h in
theorem Shows.resolved {scope : Scope} (hscope : tables.Shows index site scope) :
    scope.Resolved := by
  obtain ⟨node, p, hp, hsuffix⟩ := hscope.inside
  exact (hindex.resolved hp).suffix hsuffix

omit hindex in
theorem Tabulates.affectsOf_eq {c : Column} {older : Scope} (hc : index.Declares c older) :
    tables.affectsOf c.ref = c.affects := by
  obtain ⟨node, p, hp, hsuffix⟩ := hc
  rw [affectsOf, h.affects_eq p (List.mem_of_find?_eq_some hp) c (hsuffix.subset (by simp)),
    Option.getD_some]

omit hindex in
theorem Tabulates.effective_eq {c : Column} {older : Scope} (hc : index.Declares c older)
    (s : Systematic) : tables.effective c.ref s = c.effective s := by
  cases s with
  | nominal => rfl
  | variation name => simp only [effective, Column.effective, h.affectsOf_eq hc]

theorem Tabulates.variableAt?_eq {c : Column} {older : Scope} (hc : index.Declares c older) :
    tables.tree.variableAt? c.ref = some c.declared := by
  rw [h.tree_eq]
  exact hindex.own_of_declares hc

theorem Tabulates.inputsUnder_eq {c : Column} {older : Scope} (hc : index.Declares c older)
    (s : Systematic) : tables.inputsUnder s c.ref = (c.specUnder s).inputs := by
  rw [inputsUnder, h.variableAt?_eq hindex hc, Option.map_some, Option.getD_some,
    h.effective_eq hc]
  rfl

theorem Tabulates.isComputed_eq {c : Column} {older : Scope} (hc : index.Declares c older)
    (s : Systematic) : tables.isComputed s c.ref = c.isComputed s := by
  rw [isComputed, h.variableAt?_eq hindex hc, Option.any_some, h.effective_eq hc]
  rfl

/-! ### Reading -/

omit h hindex in
theorem Needed.trans {c d : ColumnRef} (hc : tables.Needed s site inputs c)
    (hd : tables.Needed s (.within c) (tables.inputsUnder s c) d) :
    tables.Needed s site inputs d := by
  induction hd with
  | input hi hmeans => exact .through hc hi hmeans
  | through _ hi hmeans ih => exact .through ih hi hmeans

theorem Tabulates.needed_of_reads {scope oldest : Scope} {d : Column}
    (hscope : tables.Shows index site scope) (hreads : scope.Reads s inputs d oldest) :
    tables.Needed s site inputs d.ref := by
  induction hreads generalizing site with
  | direct hname hloc =>
      refine .input hname ?_
      rw [hscope.lookup_eq, Scope.lookup_of_locate hloc]
      rfl
  | @through scope older oldest wanted c d hc hd ihc ihd =>
      have hdecl := hscope.declares hc.suffix
      refine (ihc hscope).trans ?_
      rw [h.inputsUnder_eq hindex hdecl]
      exact ihd (h.shows_older hindex hdecl)

theorem Tabulates.reads_of_needed {scope : Scope} {b : ColumnRef}
    (hscope : tables.Shows index site scope) (hb : tables.Needed s site inputs b) :
    ∃ c older, scope.Reads s inputs c older ∧ c.ref = b := by
  induction hb with
  | input hi hmeans =>
      rw [hscope.lookup_eq, Option.map_eq_some_iff] at hmeans
      obtain ⟨c, hc, rfl⟩ := hmeans
      obtain ⟨older, hloc⟩ := Scope.exists_locate hc
      exact ⟨c, older, .direct hi hloc, rfl⟩
  | through _ hi hmeans ih =>
      obtain ⟨c, older, hreads, rfl⟩ := ih
      have hdecl := hscope.declares hreads.suffix
      rw [h.inputsUnder_eq hindex hdecl] at hi
      rw [(h.shows_older hindex hdecl).lookup_eq, Option.map_eq_some_iff] at hmeans
      obtain ⟨d, hd, rfl⟩ := hmeans
      obtain ⟨oldest, hloc⟩ := Scope.exists_locate hd
      exact ⟨d, oldest, .through hreads (.direct hi hloc), rfl⟩

theorem Tabulates.effective_agrees {c d : ColumnRef} {v : Variable}
    (hv : tables.tree.variableAt? c = some v) {i : String} (hi : i ∈ tables.inputsUnder s c)
    (hd : tables.lookup (.within c) i = some d) :
    tables.effective d s = tables.effective d (tables.effective c s) := by
  obtain ⟨c, older, hdecl, rfl, -⟩ := hindex.exists_declares (h.tree_eq ▸ hv)
  have hshows := h.shows_older hindex hdecl
  rw [hshows.lookup_eq, Option.map_eq_some_iff] at hd
  obtain ⟨d, hd, rfl⟩ := hd
  obtain ⟨oldest, hloc⟩ := Scope.exists_locate hd
  have hdecl' := hshows.declares (Scope.locate_suffix hloc).1
  rw [h.inputsUnder_eq hindex hdecl] at hi
  have haffects := (hindex.resolved_of_declares hdecl).affects_input hi hd
  rw [h.effective_eq hdecl', h.effective_eq hdecl', h.effective_eq hdecl,
    Column.effective_effective haffects]

theorem Tabulates.needKey_lt {b c : ColumnRef} {name : String}
    (hb : tables.lookup (.within c) name = some b) :
    tables.needKey s b < tables.needKey s c := by
  obtain ⟨i, j, hi, hj, hlt⟩ := (h.resolves hindex).decreasing c name b hb
  rw [Prod.Lex.toLex_lt_toLex] at hlt
  simp only [needKey, hi, hj, Option.getD_some, NeedKey.lt_iff]
  rcases hlt with hlt | ⟨heq, hlt⟩
  · exact .inl hlt
  · exact .inr ⟨heq, .inl hlt⟩

theorem Tabulates.pairwise_needs {scope : Scope} (hscope : tables.Shows index site scope) :
    (scope.needs s inputs).Pairwise fun a b =>
      tables.needKey s a.1.ref < tables.needKey s b.1.ref := by
  refine (Scope.pairwise_needs s scope inputs).imp_of_mem fun {a b} ha hb hlt => ?_
  obtain ⟨c, older⟩ := a
  obtain ⟨d, older'⟩ := b
  have hc := (Scope.mem_needs.mp ha).1.suffix
  have hd := (Scope.mem_needs.mp hb).1.suffix
  have holder : c :: older <:+ older' :=
    List.suffix_of_suffix_length_le hc ((List.suffix_cons d older').trans hd) hlt
  have hshows := h.shows_older hindex (hscope.declares hd)
  have hread : tables.lookup (.within d.ref) c.name = some c.ref := by
    rw [hshows.lookup_eq, ((hshows.resolved hindex).lookup_eq_some (c := c)).mpr
      ⟨holder.subset List.mem_cons_self, rfl⟩]
    rfl
  exact h.needKey_lt hindex hread

theorem Tabulates.found_eq {scope : Scope} (hscope : tables.Shows index site scope)
    {found : List (NeedKey × ColumnRef)} (hfound : tables.Working s site inputs [] found) :
    found = (scope.needs s inputs).map fun need => (tables.needKey s need.1.ref, need.1.ref) := by
  refine eq_of_ascending hfound.ascending ?_ fun ⟨key, b⟩ => ?_
  · rw [List.map_map, List.pairwise_map]
    exact h.pairwise_needs hindex hscope
  · rw [hfound.mem_found, List.mem_map]
    constructor
    · rintro ⟨hkey, hneeded, hcomputed⟩
      obtain ⟨c, older, hreads, href⟩ := h.reads_of_needed hindex hscope hneeded
      have href : c.ref = b := href
      subst href
      rw [h.isComputed_eq hindex (hscope.declares hreads.suffix)] at hcomputed
      exact ⟨(c, older), Scope.mem_needs.mpr ⟨hreads, hcomputed⟩, Prod.ext hkey.symm rfl⟩
    · rintro ⟨⟨c, older⟩, hmem, heq⟩
      cases heq
      obtain ⟨hreads, hcomputed⟩ := Scope.mem_needs.mp hmem
      refine ⟨rfl, h.needed_of_reads hindex hscope hreads, ?_⟩
      rw [h.isComputed_eq hindex (hscope.declares hreads.suffix)]
      exact hcomputed

end Tables

/-- What a list of needed variables, each with the systematic it is computed for, must be. -/
structure Complete (tables : NameTables) (s : Systematic) (site : Site) (inputs : List String)
    (needs : List (ColumnRef × Systematic)) : Prop where
  /-- It has the computed variables that can be reached from the inputs, and no others. -/
  mem_iff : ∀ c e, (c, e) ∈ needs ↔ tables.Needed s site inputs c ∧
    tables.isComputed s c = true ∧ e = tables.effective c s
  nodup : (needs.map Prod.fst).Nodup
  /-- A variable comes after the computed ones that it reads. -/
  ordered : ∀ before c e after, needs = before ++ (c, e) :: after →
    ∀ i ∈ tables.inputsUnder s c, ∀ d, tables.lookup (.within c) i = some d →
      tables.isComputed s d = true → (d, tables.effective d s) ∈ before
  /-- What a variable reads is in effect alike for the request and for the variable. -/
  agrees : ∀ c e, (c, e) ∈ needs → ∀ i ∈ tables.inputsUnder s c, ∀ d,
    tables.lookup (.within c) i = some d → tables.effective d s = tables.effective d e

section Tables

variable (h : tables.Tabulates t index.places) (hindex : ScopeIndex.Lawful t index)
include h hindex

theorem Tabulates.complete {found : List (NeedKey × ColumnRef)}
    (hfound : tables.Working s site inputs [] found) : tables.Complete s site inputs
      (found.map fun entry => (entry.2, entry.1.systematic)) := by
  have hmem (c : ColumnRef) (e : Systematic) :
      (c, e) ∈ found.map (fun entry => (entry.2, entry.1.systematic)) ↔
        tables.Needed s site inputs c ∧ tables.isComputed s c = true ∧
          e = tables.effective c s := by
    rw [List.mem_map]
    constructor
    · rintro ⟨⟨key, b⟩, hentry, heq⟩
      cases heq
      obtain ⟨hkey, hneeded, hcomputed⟩ := (hfound.mem_found _).mp hentry
      exact ⟨hneeded, hcomputed, congrArg NeedKey.systematic hkey⟩
    · rintro ⟨hneeded, hcomputed, rfl⟩
      exact ⟨(tables.needKey s c, c), (hfound.mem_found _).mpr ⟨rfl, hneeded, hcomputed⟩, rfl⟩
  have hascending : (found.map fun entry => (entry.2, entry.1.systematic)).Pairwise fun a b =>
      tables.needKey s a.1 < tables.needKey s b.1 := by
    have hkeys := hfound.ascending
    rw [List.pairwise_map] at hkeys ⊢
    refine hkeys.imp_of_mem fun {a b} ha hb hlt => ?_
    rwa [← hfound.keyed a ha, ← hfound.keyed b hb]
  constructor
  case mem_iff => exact hmem
  case nodup =>
    rw [List.Nodup, List.pairwise_map]
    refine hascending.imp fun {a b} hlt heq => ?_
    rw [heq] at hlt
    exact Std.Irrefl.irrefl (r := fun a b : NeedKey => a < b) _ hlt
  case ordered =>
    intro before c e after hsplit i hi d hd hcomputed
    have hc := (hmem c e).mp (hsplit ▸ by simp)
    have hneed := (hmem d (tables.effective d s)).mpr ⟨.through hc.1 hi hd, hcomputed, rfl⟩
    have hlt := h.needKey_lt hindex (s := s) hd
    rw [hsplit] at hneed hascending
    rcases List.mem_append.mp hneed with hbefore | hafter
    · exact hbefore
    · obtain ⟨-, hrest, -⟩ := List.pairwise_append.mp hascending
      have hnot : ¬ tables.needKey s c < tables.needKey s d := fun hgt =>
        Std.Irrefl.irrefl (r := fun a b : NeedKey => a < b) _
          (IsTrans.trans (r := fun a b : NeedKey => a < b) _ _ _ hlt hgt)
      rcases List.mem_cons.mp hafter with heq | hafter
      · have heq : d = c := (Prod.mk.inj heq).1
        subst heq
        exact absurd hlt hnot
      · exact absurd ((List.pairwise_cons.mp hrest).1 _ hafter) hnot
  case agrees =>
    intro c e hce i hi d hd
    obtain ⟨hneeded, -, rfl⟩ := (hmem c e).mp hce
    obtain ⟨v, -, hv, -⟩ := hneeded.exists_position (h.ready hindex)
    exact h.effective_agrees hindex hv hi hd

end Tables

end NameTables

/-! ### Frames -/

namespace Planner

variable {p : Planner} {producer? : ColumnRef → Systematic → Option ActionId} {s : Systematic}
  {scope : Scope} {wanted : List String}

theorem bind_covers (p : Planner) (reader path : String)
    (h : Covers (fun c e => (producer? c e).isSome) scope s wanted) :
    ∃ bindings, p.bind producer? scope wanted s reader path = .ok bindings ∧
      ∀ i ∈ wanted, (boundName bindings i).isSome := by
  have hbind : Meets (p.bind producer? scope wanted s reader path)
      (List.Forall₂ (fun i binding => binding.input = i) wanted) fun _ => False := by
    refine Meets.mapM fun i hi => ?_
    obtain ⟨c, hc, hcovers⟩ := h i hi
    simp only [Scope.require_eq_ok.mpr hc, ok_bind]
    split
    · obtain ⟨id, hid⟩ := Option.isSome_iff_exists.mp (hcovers ‹_›)
      simp only [hid]
      exact .ok rfl
    · exact .ok rfl
  obtain ⟨bindings, hbindings, haligned⟩ := hbind.exists_ok fun _ => id
  refine ⟨bindings, hbindings, fun i hi => ?_⟩
  obtain ⟨binding, hmem, hinput⟩ := exists_aligned haligned hi
  rw [boundName, Option.isSome_map, List.find?_isSome]
  exact ⟨binding, hmem, by simp [hinput]⟩

/-- A definition that finds what it reads is refused only for its physical name. -/
theorem createDefine_covers {d : Draft} {tip : ActionId} {c : Column} {older : Scope}
    (h : Covers (fun c e => (producer? c e).isSome) older s (c.declared.spec s).inputs) :
    Meets (p.createDefine producer? d tip c older s) (fun _ => True)
      fun error => ∃ n, error = .naming n := by
  obtain ⟨bindings, hbindings, hbound⟩ := p.bind_covers c.name c.path h
  have hresolve : c.declared.resolve s (boundName bindings) c.path =
      .ok ((c.declared.spec s).define fun i => (boundName bindings i).getD "") :=
    Variable.resolve_eq fun i hi => by
      obtain ⟨column, hcolumn⟩ := Option.isSome_iff_exists.mp (hbound i hi)
      rw [hcolumn, Option.getD_some]
  simp only [createDefine, hbindings, ok_bind, hresolve]
  cases d.registry.assign (p.namer.physical c.name s) c.name s with
  | error n => exact ⟨n, rfl⟩
  | ok registry => trivial

end Planner

namespace Builder

variable {p : Planner} {t : SelectionTree} {s : Systematic} {scope : Scope} {inputs : List String}

def Produced (s : Systematic) (done : List (Column × Scope)) (r : Lineage × Builder) : Prop :=
  ∀ need ∈ done, (r.1.producer? need.1.ref (need.1.effective s)).isSome

theorem Produced.extend {done : List (Column × Scope)} {line : Lineage} {b b' : Builder}
    (h : Produced s done (line, b)) (need : Column × Scope) (id : ActionId) :
    Produced s (done ++ [need]) (line.extend need.1.ref (need.1.effective s) id, b') := by
  intro need' hneed'
  simp only [Lineage.extend, Lineage.producer?, lookupKey]
  split
  · rfl
  · rename_i hother
    rcases List.mem_append.mp hneed' with hold | hnew
    · exact h need' hold
    · exact absurd (by rw [List.mem_singleton.mp hnew]) hother

theorem withColumn_produced {done : List (Column × Scope)} {r : Lineage × Builder}
    (h : Produced s done r) {c : Column} {older : Scope}
    (hcovers : Covers (fun c e => (r.1.producer? c e).isSome) older (c.effective s)
      (c.specUnder s).inputs) :
    Meets (withColumn p s r (c, older)) (Produced s (done ++ [(c, older)]))
      fun e => ∃ n, e = .naming n := by
  obtain ⟨line, b⟩ := r
  simp only [withColumn]
  cases hproducer : line.producer? c.ref (c.effective s) with
  | some id =>
      intro need hneed
      rcases List.mem_append.mp hneed with hold | hnew
      · exact h need hold
      · rw [List.mem_singleton.mp hnew]
        exact Option.isSome_of_eq_some hproducer
  | none =>
      cases lookupKey (line.tip, c.ref, c.effective s) b.defines with
      | some id => exact h.extend (c, older) id
      | none => exact (Planner.createDefine_covers hcovers).bind fun r _ => h.extend (c, older) r.1

section Extend

variable {index : ScopeIndex} (hindex : ScopeIndex.Lawful t index) {node : Nat} {place : Place}
  (hplace : index.place? node = some place) (hscope : scope <:+ place.scope)
include hindex hplace hscope

theorem Produced.covers {before after : List (Column × Scope)} {c : Column} {older : Scope}
    (hsplit : scope.needs s inputs = before ++ (c, older) :: after) {r : Lineage × Builder}
    (h : Produced s before r) :
    Covers (fun c e => (r.1.producer? c e).isSome) older (c.effective s)
      (c.specUnder s).inputs := by
  have hreads := (Scope.mem_needs.mp (show (c, older) ∈ scope.needs s inputs by simp [hsplit])).1
  have hdecl : index.Declares c older := ⟨node, place, hplace, hreads.suffix.trans hscope⟩
  have hresolved := hindex.resolved_of_declares hdecl
  refine Planner.covers_inputs hresolved fun d oldest hread hcomputed => ?_
  exact h (d, oldest) (Scope.mem_of_needs_split hsplit hread hcomputed)

/-- A lineage is extended column by column, and only physical names are refused. -/
theorem extend_produced {b : Builder} {line : Lineage} {before after : List (Column × Scope)}
    (hsplit : scope.needs s inputs = before ++ after) :
    Meets (before.foldlM (withColumn p s) (line, b)) (Produced s before)
      fun e => ∃ n, e = .naming n := by
  refine Meets.foldlM (I := Produced s) (fun need hneed => nomatch hneed) ?_
  rintro done ⟨c, older⟩ r ⟨rest, hdone⟩ h
  have hsplit' : scope.needs s inputs = done ++ (c, older) :: (rest ++ after) := by
    rw [hsplit, ← hdone]
    simp
  exact withColumn_produced h (h.covers hindex hplace hscope hsplit')

omit hindex hplace hscope in
theorem Produced.covers_reader {r : Lineage × Builder} (h : Produced s (scope.needs s inputs) r)
    (hinputs : ∀ i ∈ inputs, ∃ c, scope.lookup i = some c) :
    Covers (fun c e => (r.1.producer? c e).isSome) scope s inputs := by
  intro i hi
  obtain ⟨c, hc⟩ := hinputs i hi
  obtain ⟨older, hloc⟩ := Scope.exists_locate hc
  exact ⟨c, hc, fun hcomputed => h (c, older) (Scope.mem_needs.mpr ⟨.direct hi hloc, hcomputed⟩)⟩

end Extend

end Builder

/-- How a planner extends the lineage of a selection by the columns that some inputs need. -/
structure Planner.Supplies (p : Planner) (s : Systematic) (scope : Scope) (inputs : List String) :
    Prop where
  /-- When a column is about to be defined, every producer it asks for has been noted. -/
  defined : ∀ (b : Builder) base before c older after,
    scope.needs s inputs = before ++ (c, older) :: after → ∀ line b',
      before.foldlM (Builder.withColumn p s) (b.frameOf base, b) = .ok (line, b') →
      ∃ bindings, p.bind line.producer? older (c.specUnder s).inputs (c.effective s) c.name c.path =
        .ok bindings
  /-- Every producer that the reader of the inputs asks for has been noted in the end. -/
  read : ∀ (b : Builder) base, (∀ i ∈ inputs, ∃ c, scope.lookup i = some c) →
    ∀ line b' reader path, b.extend p base scope inputs s = .ok (line, b') →
      ∃ bindings, p.bind line.producer? scope inputs s reader path = .ok bindings
  /-- What is noted on the way is what the actions back to the source compute. -/
  frame : ∀ (b : Builder) index base, b.Consistent index → b.HasFrame base → ∀ before after,
    scope.needs s inputs = before ++ after → ∀ line b',
      before.foldlM (Builder.withColumn p s) (b.frameOf base, b) = .ok (line, b') →
      line.Tells b'.toDraft
  /-- No other complaint comes up than that a physical name is refused. -/
  refused : ∀ (b : Builder) base e,
    b.extend p base scope inputs s = .error e → ∃ n, e = .naming n

theorem Planner.supplies {p : Planner} {t : SelectionTree} {index : ScopeIndex}
    (hindex : ScopeIndex.Lawful t index) {node : Nat} {place : Place}
    (hplace : index.place? node = some place) {scope : Scope} (hscope : scope <:+ place.scope)
    (s : Systematic) (inputs : List String) : p.Supplies s scope inputs := by
  have hextend (b : Builder) (base : ActionId) :
      Meets (b.extend p base scope inputs s) (Builder.Produced s (scope.needs s inputs))
        fun e => ∃ n, e = .naming n :=
    Builder.extend_produced hindex hplace hscope (List.append_nil _).symm
  constructor
  case defined =>
    intro b base before c older after hsplit line b' hrun
    have hproduced := (Builder.extend_produced hindex hplace hscope hsplit).of_eq_ok hrun
    obtain ⟨bindings, hbindings, -⟩ :=
      p.bind_covers c.name c.path (hproduced.covers hindex hplace hscope hsplit)
    exact ⟨bindings, hbindings⟩
  case read =>
    intro b base hinputs line b' reader path hrun
    obtain ⟨bindings, hbindings, -⟩ :=
      p.bind_covers reader path (((hextend b base).of_eq_ok hrun).covers_reader hinputs)
    exact ⟨bindings, hbindings⟩
  case frame =>
    intro b index base hb hbase before after _ line b' hrun
    have halike := Builder.withColumns_alike (p := p) (s := s) hb hbase before
    rw [hrun] at halike
    obtain ⟨_, -, hsame⟩ := halike.exists_right
    exact hsame.tells
  case refused =>
    exact fun b base e hrun => (hextend b base).of_eq_error hrun

/-- The loop over the stack ends for all inputs read from any site.  If every input means something,
it finds what is needed, which is what planning adds to a frame; otherwise the last input that means
nothing is complained about.  Every definition that is added finds its producers in the frame. -/
theorem NameTables.needs_complete {t : SelectionTree} (ht : t.Reachable) {tables : NameTables}
    (htables : build t = .ok tables) {index : ScopeIndex}
    (hindex : ScopeIndex.build t = .ok index) (s : Systematic) (site : Site)
    (inputs : List String) (reader : String) {turns : Nat}
    (hturns : inputs.length + tables.workload s ≤ turns) :
    ((∀ i ∈ inputs, ∃ c, tables.lookup site i = some c) →
      ∃ needs, tables.needs s site inputs reader turns = some (.ok needs) ∧
        tables.Complete s site inputs needs ∧
        needs = ((index.scopeAt site).needs s inputs).map fun need =>
          (need.1.ref, need.1.effective s)) ∧
    (∀ earlier i later, inputs = earlier ++ i :: later → tables.lookup site i = none →
      (∀ j ∈ later, ∃ c, tables.lookup site j = some c) →
      tables.needs s site inputs reader turns =
        some (.error (.unresolved i reader .nominal (tables.path site.node)))) ∧
    ∀ p : Planner, p.Supplies s (index.scopeAt site) inputs := by
  obtain ⟨h, hlawful⟩ : tables.Tabulates t index.places ∧ ScopeIndex.Lawful t index := by
    rcases build_cases ht.wellFormed with ⟨e, hfails, -⟩ | ⟨_, _, hbuild, hindex', h, hlawful⟩
    · rw [htables] at hfails
      cases hfails
    · rw [htables, Except.ok.injEq] at hbuild
      rw [hindex, Except.ok.injEq] at hindex'
      subst hbuild hindex'
      exact ⟨h, hlawful⟩
  have hready := h.ready hlawful
  have hshows := h.shows hlawful site
  have hstart : tables.Working s site inputs
    (inputs.map fun i => (⟨site, i, reader⟩ : Wanted)).reverse [] := working_start reader
  have hleft : tables.left s [] = tables.workload s := by simp [left, workload]
  refine ⟨fun hinputs => ?_, ?_, ?_⟩
  · have henough : (inputs.map fun i => (⟨site, i, reader⟩ : Wanted)).reverse.length +
        tables.left s [] ≤ turns := by simpa [hleft] using hturns
    obtain ⟨found, hrun, hfound⟩ := gather_run hready hstart
      (fun w hw => by
        obtain ⟨i, hi, rfl⟩ := List.mem_map.mp (List.mem_reverse.mp hw)
        exact hinputs i hi)
      henough
    refine ⟨_, by rw [needs, hrun]; rfl, h.complete hlawful hfound, ?_⟩
    rw [h.found_eq hlawful hshows hfound, List.map_map]
    refine List.map_congr_left fun need hneed => ?_
    have hdecl := hshows.declares (Scope.mem_needs.mp hneed).1.suffix
    exact congrArg (Prod.mk need.1.ref) (h.effective_eq hdecl s)
  · rintro earlier i later rfl hnone hlater
    have hsplit : ((earlier ++ i :: later).map fun i => (⟨site, i, reader⟩ : Wanted)).reverse =
        (later.map fun i => ⟨site, i, reader⟩).reverse ++
          ⟨site, i, reader⟩ :: (earlier.map fun i => ⟨site, i, reader⟩).reverse := by simp
    rw [hsplit] at hstart
    have henough : (later.map fun i => (⟨site, i, reader⟩ : Wanted)).reverse.length + 1 +
        tables.left s [] ≤ turns := by
      rw [List.length_append, List.length_cons] at hturns
      rw [List.length_reverse, List.length_map, hleft]
      omega
    have hfails := gather_fails hready hstart
      (fun w hw => by
        obtain ⟨j, hj, rfl⟩ := List.mem_map.mp (List.mem_reverse.mp hw)
        exact hlater j hj)
      hnone henough
    rw [needs, hsplit, hfails]
    rfl
  · intro p
    obtain ⟨node, place, hplace, hsuffix⟩ := hshows.inside
    exact Planner.supplies hlawful hplace hsuffix s inputs

namespace Sample

def scale : Variable := (Variable.ofBranch "scale" "k").vary "up" (.branch "kUp")

def corrected : Variable := .computed "corrected" ["energy", "scale"] fun values => values.headD 0

def raw : Variable := .computed "raw" ["energy"] fun values => values.headD 0

def ratio : Variable := .computed "ratio" ["raw", "corrected"] fun values => values.headD 0

/-- Only the scale is varied, so the ratio reads a varied column and a nominal one. -/
def ratioTree : SelectionTree :=
  { id := 0
    nodes := [{ name := rootName, attachment := none, label := none,
                ownVariables := [energy, scale, corrected, raw, ratio] }] }

theorem ratioTree_reachable : ratioTree.Reachable :=
  have h : (SelectionTree.new 0 none).Reachable := .new 0 none
  have h := h.define (n := ⟨0, 0⟩) (v := energy) rfl
  have h := h.define (n := ⟨0, 0⟩) (v := scale) rfl
  have h := h.define (n := ⟨0, 0⟩) (v := corrected) rfl
  have h := h.define (n := ⟨0, 0⟩) (v := raw) rfl
  h.define (n := ⟨0, 0⟩) (v := ratio) rfl

end Sample

/-- Under `up` the ratio needs the corrected energy for `up` and the raw one nominally. -/
theorem NameTables.needs_complete_ratio :
    ∃ tables, build Sample.ratioTree = .ok tables ∧
      tables.needs (.variation "up") (.after 0) ["ratio"] "writer" 6 =
        some (.ok [(⟨0, 2⟩, .variation "up"), (⟨0, 3⟩, .nominal), (⟨0, 4⟩, .variation "up")]) := by
  obtain ⟨tables, htables, hsample⟩ : ∃ tables, build Sample.ratioTree = .ok tables ∧
      (tables.workload (.variation "up"), tables.lookup (.after 0) "ratio") =
        (5, some ⟨0, 4⟩) := exists_ok_of_toOption (by decide)
  obtain ⟨hworkload, hratio⟩ := Prod.mk.inj hsample
  obtain ⟨index, hindex, hneeds⟩ : ∃ index, ScopeIndex.build Sample.ratioTree = .ok index ∧
      ((index.scopeAt (.after 0)).needs (.variation "up") ["ratio"]).map (fun need =>
        (need.1.ref, need.1.effective (.variation "up"))) =
        [(⟨0, 2⟩, .variation "up"), (⟨0, 3⟩, .nominal), (⟨0, 4⟩, .variation "up")] :=
    exists_ok_of_toOption (by decide)
  have hturns : ["ratio"].length + tables.workload (.variation "up") ≤ 6 := by
    rw [hworkload]
    decide
  have hcomplete := (needs_complete Sample.ratioTree_reachable htables hindex (.variation "up")
    (.after 0) ["ratio"] "writer" hturns).1
  obtain ⟨needs, hrun, -, heq⟩ := hcomplete (by simpa using ⟨_, hratio⟩)
  exact ⟨tables, htables, by rw [hrun, heq, hneeds]⟩

end SelectionPlan
