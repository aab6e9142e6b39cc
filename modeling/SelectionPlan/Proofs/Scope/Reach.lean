import SelectionPlan.Proofs.Scope.Affects
import SelectionPlan.Proofs.Scope.Readable
import Mathlib.Logic.Relation

/-!
# How far variations reach

Variables refer to older ones by the inputs of their specifications, each input from where its
reader stands.  A variation changes a column exactly if one of the variables that can be reached
from it is overridden, the column's own included, and a selection exactly if a filter on the way
there is overridden or reads such a column.
-/

namespace SelectionPlan

/-- Some specification of a variable, nominal or not, has the name of another one as an input. -/
def Variable.Mentions (v w : Variable) : Prop := ∃ spec ∈ v.specs, w.name ∈ spec.inputs

namespace SelectionTree

def variableAt? (t : SelectionTree) (c : ColumnRef) : Option Variable := (t.own c.node)[c.slot]?

/-- The variable at `b` belongs to a strict ancestor of the node of `a`, or comes before `a` at the
same node. -/
def Precedes (t : SelectionTree) (b a : ColumnRef) : Prop :=
  b.node ∈ (t.path a.node).dropLast ∨ b.node = a.node ∧ b.slot < a.slot

def RefersTo (t : SelectionTree) (a b : ColumnRef) : Prop :=
  ∃ v w, t.variableAt? a = some v ∧ t.variableAt? b = some w ∧ t.Precedes b a ∧ v.Mentions w

def FilterRefersTo (t : SelectionTree) (node : Nat) (b : ColumnRef) : Prop :=
  ∃ v w, t.nodes[node]?.bind Node.filter = some v ∧ t.variableAt? b = some w ∧
    b.node ∈ t.path node ∧ v.Mentions w

def OverriddenAt (t : SelectionTree) (variation : String) (c : ColumnRef) : Prop :=
  ∃ v, t.variableAt? c = some v ∧ variation ∈ v.overridden

end SelectionTree

namespace ScopeIndex

def column? (index : ScopeIndex) (r : ColumnRef) : Option Column :=
  (index.places.flatMap Place.scope).find? fun c => c.ref = r

def affects (index : ScopeIndex) (r : ColumnRef) : List String :=
  ((index.column? r).map Column.affects).getD []

theorem declares_of_mem {index : ScopeIndex} {i : Nat} {p : Place} {c : Column}
    (hp : index.place? i = some p) (hc : c ∈ p.scope) : ∃ older, index.Declares c older := by
  obtain ⟨older, hsuffix⟩ := Scope.exists_suffix hc
  exact ⟨older, i, p, hp, hsuffix⟩

namespace Lawful

variable {t : SelectionTree} {index : ScopeIndex} (h : Lawful t index)
include h

/-! ### Positions in a scope -/

theorem column?_of_declares {c : Column} {older : Scope} (hc : index.Declares c older) :
    index.column? c.ref = some c := by
  have hall {d : Column} (hd : d ∈ index.places.flatMap Place.scope) :
      ∃ older, index.Declares d older := by
    obtain ⟨p, hp, hd⟩ := List.mem_flatMap.mp hd
    exact declares_of_mem (h.place_of_mem p hp) hd
  cases hfind : index.column? c.ref with
  | some d =>
      obtain ⟨older', hd⟩ := hall (List.mem_of_find?_eq_some hfind)
      have href : d.ref = c.ref := by simpa using List.find?_some hfind
      rw [(h.eq_of_ref hd hc href).1]
  | none =>
      obtain ⟨i, p, hp, hsuffix⟩ := hc
      have hmem : c ∈ index.places.flatMap Place.scope :=
        List.mem_flatMap.mpr ⟨p, List.mem_of_find?_eq_some hp, hsuffix.subset (by simp)⟩
      simpa using List.find?_eq_none.mp hfind c hmem

theorem affects_of_declares {c : Column} {older : Scope} (hc : index.Declares c older) :
    index.affects c.ref = c.affects := by
  rw [affects, h.column?_of_declares hc]
  rfl

theorem mem_extended_scope {i : Nat} {p : Place} {above : Scope} {chain : List String}
    (hp : index.place? i = some p) (hext : p.Extends t above chain i) {b : ColumnRef} :
    (∃ d ∈ p.scope, d.ref = b) ↔
      (∃ d ∈ above, d.ref = b) ∨ b.node = i ∧ ∃ w, t.variableAt? b = some w := by
  constructor
  · rintro ⟨d, hd, rfl⟩
    obtain ⟨older, hsuffix⟩ := Scope.exists_suffix hd
    rcases hext.own_column d older hsuffix with habove | ⟨hnode, -, -⟩
    · exact .inl ⟨d, habove.subset (by simp), rfl⟩
    · exact .inr ⟨hnode, d.declared, h.own_of_declares ⟨i, p, hp, hsuffix⟩⟩
  · rintro (⟨d, hd, rfl⟩ | ⟨rfl, w, hw⟩)
    · exact ⟨d, hext.suffix.subset hd, rfl⟩
    · obtain ⟨node, hnode, -, -, -, hdecl⟩ := hext.declaration
      have hown : t.own b.node = node.ownVariables := by simp [SelectionTree.own, hnode]
      have hslot : b.slot < node.ownVariables.length :=
        hown ▸ (List.getElem?_eq_some_iff.mp hw).1
      have hlength : p.scope.length = node.ownVariables.length + above.length := by
        simpa using congrArg List.length hdecl
      -- Counted from the oldest column of the node, the column stands at the variable's slot.
      have hlt : node.ownVariables.length - 1 - b.slot < p.scope.length := by omega
      have hsuffix := List.drop_suffix (node.ownVariables.length - 1 - b.slot) p.scope
      rw [List.drop_eq_getElem_cons hlt] at hsuffix
      have holder : (p.scope.drop (node.ownVariables.length - 1 - b.slot + 1)).length =
          above.length + b.slot := by
        rw [List.length_drop]
        omega
      refine ⟨p.scope[node.ownVariables.length - 1 - b.slot], List.getElem_mem hlt, ?_⟩
      rcases hext.own_column _ _ hsuffix with habove | ⟨hd, -, hlen⟩
      · have hle := habove.length_le
        rw [List.length_cons, holder] at hle
        omega
      · have hsame : p.scope[node.ownVariables.length - 1 - b.slot].ref.slot = b.slot := by omega
        cases b
        rw [ColumnRef.mk.injEq]
        exact ⟨hd, hsame⟩

theorem mem_scope {i : Nat} {p : Place} (hp : index.place? i = some p) {b : ColumnRef} :
    (∃ d ∈ p.scope, d.ref = b) ↔ b.node ∈ t.path i ∧ ∃ w, t.variableAt? b = some w := by
  induction i, (h.place_lt hp).2 using h.wellFormed.induction generalizing p with
  | root =>
      obtain ⟨q, hq, hext⟩ := h.root
      rw [hp, Option.some.injEq] at hq
      subst hq
      simp [h.mem_extended_scope hp hext, SelectionTree.path_root]
  | child i parent hparent ih =>
      obtain ⟨q, above, hq, habove, hext⟩ := h.child i parent hparent
      rw [hp, Option.some.injEq] at hq
      subst hq
      rw [h.mem_extended_scope hp hext, ih habove, h.wellFormed.path_child hparent,
        List.mem_append, List.mem_singleton, or_and_right]

theorem exists_above {i : Nat} {p : Place} (hp : index.place? i = some p) :
    ∃ above chain, p.Extends t above chain i ∧ ∀ b, (∃ d ∈ above, d.ref = b) ↔
      b.node ∈ (t.path i).dropLast ∧ ∃ w, t.variableAt? b = some w := by
  induction i, (h.place_lt hp).2 using h.wellFormed.induction with
  | root =>
      obtain ⟨q, hq, hext⟩ := h.root
      rw [hp, Option.some.injEq] at hq
      subst hq
      exact ⟨[], [], hext, by simp [SelectionTree.path_root]⟩
  | child i parent hparent _ =>
      obtain ⟨q, above, hq, habove, hext⟩ := h.child i parent hparent
      rw [hp, Option.some.injEq] at hq
      subst hq
      refine ⟨above.scope, above.chain, hext, fun b => ?_⟩
      rw [h.mem_scope habove, h.wellFormed.path_child hparent, List.dropLast_concat]

theorem mem_older {c : Column} {older : Scope} (hc : index.Declares c older) {b : ColumnRef} :
    (∃ d ∈ older, d.ref = b) ↔ t.Precedes b c.ref ∧ ∃ w, t.variableAt? b = some w := by
  obtain ⟨i, p, hp, hsuffix⟩ := hc
  obtain ⟨q, hq, hsuffix, -, -, -⟩ := h.column_home (h.place_lt hp).2 p c older hp hsuffix
  obtain ⟨above, chain, hext, habove⟩ := h.exists_above hq
  have hnode : c.ref.node ∉ (t.path c.ref.node).dropLast := by
    have hnodup := h.wellFormed.nodup_path (h.place_lt hq).2
    rw [← t.dropLast_path, ← List.concat_eq_append, List.nodup_concat] at hnodup
    exact hnodup.1
  have hown : older.length = above.length + c.ref.slot := by
    rcases hext.own_column c older hsuffix with hsuffix | ⟨-, -, hlen⟩
    · exact absurd ((habove c.ref).mp ⟨c, hsuffix.subset (by simp), rfl⟩).1 hnode
    · exact hlen
  have hsee : older <:+ q.scope := (List.suffix_cons c older).trans hsuffix
  have hinherit : above <:+ older := List.suffix_of_suffix_length_le hext.suffix hsee (by omega)
  constructor
  · rintro ⟨d, hd, rfl⟩
    obtain ⟨rest, hd'⟩ := Scope.exists_suffix hd
    have hdeclared := h.own_of_declares ⟨_, q, hq, hd'.trans hsee⟩
    refine ⟨?_, d.declared, hdeclared⟩
    rcases hext.own_column d rest (hd'.trans hsee) with hsuffix | ⟨hsame, -, hlen⟩
    · exact .inl ((habove d.ref).mp ⟨d, hsuffix.subset (by simp), rfl⟩).1
    · have hle := hd'.length_le
      rw [List.length_cons] at hle
      exact .inr ⟨hsame, by omega⟩
  · rintro ⟨hnode | ⟨hsame, hslot⟩, w, hw⟩
    · obtain ⟨d, hd, rfl⟩ := (habove b).mpr ⟨hnode, w, hw⟩
      exact ⟨d, hinherit.subset hd, rfl⟩
    · have hscope := (h.mem_extended_scope hq hext).mpr (.inr ⟨hsame, w, hw⟩)
      obtain ⟨d, hd, rfl⟩ := hscope
      obtain ⟨rest, hd'⟩ := Scope.exists_suffix hd
      rcases hext.own_column d rest hd' with hsuffix | ⟨-, -, hlen⟩
      · exact ⟨d, hinherit.subset (hsuffix.subset (by simp)), rfl⟩
      · have hd'' := List.suffix_of_suffix_length_le hd' hsee (by rw [List.length_cons]; omega)
        exact ⟨d, hd''.subset (by simp), rfl⟩

/-! ### References -/

/-- What a name means in a scope is the one variable of this name among those that are visible. -/
theorem lookup_iff {scope : Scope} (hscope : scope.Resolved) {visible : ColumnRef → Prop}
    (hdeclared : ∀ d ∈ scope, ∃ older, index.Declares d older)
    (hvisible : ∀ b, (∃ d ∈ scope, d.ref = b) ↔ visible b ∧ ∃ w, t.variableAt? b = some w)
    {name : String} {b : ColumnRef} : (∃ d, scope.lookup name = some d ∧ d.ref = b) ↔
      visible b ∧ (t.variableAt? b).map Variable.name = some name := by
  constructor
  · rintro ⟨d, hd, rfl⟩
    obtain ⟨hmem, rfl⟩ := hscope.lookup_eq_some.mp hd
    obtain ⟨older, hdecl⟩ := hdeclared d hmem
    refine ⟨((hvisible d.ref).mp ⟨d, hmem, rfl⟩).1, ?_⟩
    rw [SelectionTree.variableAt?, h.own_of_declares hdecl]
    rfl
  · rintro ⟨hsees, hname⟩
    obtain ⟨w, hw, rfl⟩ := Option.map_eq_some_iff.mp hname
    obtain ⟨d, hmem, rfl⟩ := (hvisible b).mpr ⟨hsees, w, hw⟩
    obtain ⟨older, hdecl⟩ := hdeclared d hmem
    rw [SelectionTree.variableAt?, h.own_of_declares hdecl, Option.some.injEq] at hw
    exact ⟨d, hscope.lookup_eq_some.mpr ⟨hmem, congrArg Variable.name hw⟩, rfl⟩

theorem lookup_older {c : Column} {older : Scope} (hc : index.Declares c older) {name : String}
    {b : ColumnRef} : (∃ d, older.lookup name = some d ∧ d.ref = b) ↔
      t.Precedes b c.ref ∧ (t.variableAt? b).map Variable.name = some name := by
  refine h.lookup_iff ?_ ?_ fun b => h.mem_older hc
  · exact (h.resolved_of_declares hc).suffix (List.suffix_cons c older)
  · obtain ⟨i, p, hp, hsuffix⟩ := hc
    exact fun d hd => declares_of_mem hp (hsuffix.subset (List.mem_cons_of_mem c hd))

theorem lookup_scope {i : Nat} {p : Place} (hp : index.place? i = some p) {name : String}
    {b : ColumnRef} : (∃ d, p.scope.lookup name = some d ∧ d.ref = b) ↔
      b.node ∈ t.path i ∧ (t.variableAt? b).map Variable.name = some name :=
  h.lookup_iff (h.resolved hp) (fun _ => declares_of_mem hp) fun _ => h.mem_scope hp

theorem exists_declares {a : ColumnRef} {v : Variable} (ha : t.variableAt? a = some v) :
    ∃ c older, index.Declares c older ∧ c.ref = a ∧ c.declared = v := by
  obtain ⟨p, hp⟩ := h.exists_place (SelectionTree.lt_size_of_own ha)
  have hnode := h.wellFormed.mem_path_self (SelectionTree.lt_size_of_own ha)
  obtain ⟨c, hc, rfl⟩ := (h.mem_scope hp).mpr ⟨hnode, v, ha⟩
  obtain ⟨older, hdecl⟩ := declares_of_mem hp hc
  rw [SelectionTree.variableAt?, h.own_of_declares hdecl, Option.some.injEq] at ha
  exact ⟨c, older, hdecl, rfl, ha⟩

theorem existsUnique_input {a : ColumnRef} {v : Variable} (ha : t.variableAt? a = some v)
    {spec : Specification} (hspec : spec ∈ v.specs) {i : String} (hi : i ∈ spec.inputs) :
    ∃! b, t.Precedes b a ∧ (t.variableAt? b).map Variable.name = some i := by
  obtain ⟨c, older, hdecl, rfl, rfl⟩ := h.exists_declares ha
  have hinput : i ∈ c.declared.allInputs := Variable.mem_allInputs_iff.mpr ⟨spec, hspec, hi⟩
  cases h.resolved_of_declares hdecl with
  | cons _ _ hinputs _ =>
      obtain ⟨d, hd⟩ := hinputs i hinput
      refine ⟨d.ref, (h.lookup_older hdecl).mp ⟨d, hd, rfl⟩, fun b hb => ?_⟩
      obtain ⟨d', hd', rfl⟩ := (h.lookup_older hdecl).mpr hb
      rw [hd, Option.some.injEq] at hd'
      rw [hd']

theorem existsUnique_filterInput {node : Nat} {v : Variable}
    (hv : t.nodes[node]?.bind Node.filter = some v) {spec : Specification} (hspec : spec ∈ v.specs)
    {i : String} (hi : i ∈ spec.inputs) :
    ∃! b, b.node ∈ t.path node ∧ (t.variableAt? b).map Variable.name = some i := by
  obtain ⟨n, hn, -⟩ := Option.bind_eq_some_iff.mp hv
  obtain ⟨p, hp⟩ := h.exists_place (List.getElem?_eq_some_iff.mp hn).1
  have hseen := h.readable.filterInputs node v hv spec hspec i hi
  rw [← h.scope_declared hp, ← Scope.lookup_isSome] at hseen
  obtain ⟨d, hd⟩ := Option.isSome_iff_exists.mp hseen
  refine ⟨d.ref, (h.lookup_scope hp).mp ⟨d, hd, rfl⟩, fun b hb => ?_⟩
  obtain ⟨d', hd', rfl⟩ := (h.lookup_scope hp).mpr hb
  rw [hd, Option.some.injEq] at hd'
  rw [hd']

theorem refersTo_iff {c : Column} {older : Scope} (hc : index.Declares c older) {b : ColumnRef} :
    t.RefersTo c.ref b ↔
      ∃ i ∈ c.declared.allInputs, ∃ d, older.lookup i = some d ∧ d.ref = b := by
  simp only [h.lookup_older hc, Variable.mem_allInputs_iff]
  constructor
  · rintro ⟨v, w, hv, hw, hprecedes, spec, hspec, hi⟩
    rw [SelectionTree.variableAt?, h.own_of_declares hc, Option.some.injEq] at hv
    subst hv
    exact ⟨w.name, ⟨spec, hspec, hi⟩, hprecedes, by rw [hw, Option.map_some]⟩
  · rintro ⟨i, ⟨spec, hspec, hi⟩, hprecedes, hname⟩
    obtain ⟨w, hw, rfl⟩ := Option.map_eq_some_iff.mp hname
    exact ⟨c.declared, w, h.own_of_declares hc, hw, hprecedes, spec, hspec, hi⟩

theorem filterRefersTo_iff {i : Nat} {p : Place} (hp : index.place? i = some p) {v : Variable}
    (hv : t.nodes[i]?.bind Node.filter = some v) {b : ColumnRef} : t.FilterRefersTo i b ↔
      ∃ input ∈ v.allInputs, ∃ d, p.scope.lookup input = some d ∧ d.ref = b := by
  simp only [h.lookup_scope hp, Variable.mem_allInputs_iff]
  constructor
  · rintro ⟨v', w, hv', hw, hnode, spec, hspec, hinput⟩
    rw [hv, Option.some.injEq] at hv'
    subst hv'
    exact ⟨w.name, ⟨spec, hspec, hinput⟩, hnode, by rw [hw, Option.map_some]⟩
  · rintro ⟨input, ⟨spec, hspec, hinput⟩, hnode, hname⟩
    obtain ⟨w, hw, rfl⟩ := Option.map_eq_some_iff.mp hname
    exact ⟨v, w, hv, hw, hnode, spec, hspec, hinput⟩

/-! ### Reach -/

theorem overriddenAt_iff {c : Column} {older : Scope} (hc : index.Declares c older)
    {variation : String} :
    t.OverriddenAt variation c.ref ↔ variation ∈ c.declared.overridden := by
  simp [SelectionTree.OverriddenAt, SelectionTree.variableAt?, h.own_of_declares hc]

theorem reaches_of_affects {c : Column} {older : Scope} (hc : index.Declares c older)
    {variation : String} (haffects : variation ∈ c.affects) :
    ∃ b, Relation.ReflTransGen t.RefersTo c.ref b ∧ t.OverriddenAt variation b := by
  -- The columns that a column reads are older, so there are fewer below them.
  induction hlength : older.length using Nat.strongRecOn generalizing c older with
  | _ n ih =>
      cases h.resolved_of_declares hc with
      | cons _ _ _ hexact =>
          rcases (hexact variation).mp haffects with hover | ⟨i, hi, d, hd, haffects⟩
          · exact ⟨c.ref, .refl, (h.overriddenAt_iff hc).mpr hover⟩
          · obtain ⟨rest, hlocate⟩ := Scope.exists_locate hd
            have hsuffix := (Scope.locate_suffix hlocate).1
            have hdecl : index.Declares d rest := by
              obtain ⟨i, p, hp, hsee⟩ := hc
              exact ⟨i, p, hp, hsuffix.trans ((List.suffix_cons c older).trans hsee)⟩
            have hlt : rest.length < n := by
              have hle := hsuffix.length_le
              rw [List.length_cons] at hle
              omega
            obtain ⟨b, hreach, hover⟩ := ih rest.length hlt hdecl haffects rfl
            exact ⟨b, .head ((h.refersTo_iff hc).mpr ⟨i, hi, d, hd, rfl⟩) hreach, hover⟩

theorem affects_of_reaches {a b : ColumnRef} (hreach : Relation.ReflTransGen t.RefersTo a b)
    {variation : String} (hover : t.OverriddenAt variation b) : variation ∈ index.affects a := by
  induction hreach using Relation.ReflTransGen.head_induction_on with
  | refl =>
      have ⟨v, hv, _⟩ := hover
      obtain ⟨c, older, hc, rfl, -⟩ := h.exists_declares hv
      rw [h.affects_of_declares hc]
      exact (h.resolved_of_declares hc).overridden_subset ((h.overriddenAt_iff hc).mp hover)
  | @head a a' hrefers _ ih =>
      have ⟨v, _, hv, _⟩ := hrefers
      obtain ⟨c, older, hc, rfl, -⟩ := h.exists_declares hv
      obtain ⟨i, hi, d, hd, rfl⟩ := (h.refersTo_iff hc).mp hrefers
      have hresolved := h.resolved_of_declares hc
      rw [h.affects_of_declares hc]
      cases hresolved with
      | cons hrest _ _ hexact =>
          refine (hexact variation).mpr (.inr ⟨i, hi, d, hd, ?_⟩)
          obtain ⟨j, p, hp, hsee⟩ := hc
          have hmem : d ∈ p.scope :=
            hsee.subset (List.mem_cons_of_mem c (hrest.lookup_eq_some.mp hd).1)
          obtain ⟨rest, hdecl⟩ := declares_of_mem hp hmem
          rwa [h.affects_of_declares hdecl] at ih

/-- The variations noted at a column are those that override its variable, or one that can be
reached from it along inputs. -/
theorem mem_affects {a : ColumnRef} {variation : String} : variation ∈ index.affects a ↔
    ∃ b, Relation.ReflTransGen t.RefersTo a b ∧ t.OverriddenAt variation b := by
  refine ⟨fun haffects => ?_, fun ⟨b, hreach, hover⟩ => h.affects_of_reaches hreach hover⟩
  cases hcolumn : index.column? a with
  | none => simp [affects, hcolumn] at haffects
  | some c =>
      have href : c.ref = a := by simpa using List.find?_some hcolumn
      obtain ⟨p, hp, hc⟩ := List.mem_flatMap.mp (List.mem_of_find?_eq_some hcolumn)
      obtain ⟨older, hdecl⟩ := declares_of_mem (h.place_of_mem p hp) hc
      rw [← href, h.affects_of_declares hdecl] at haffects
      exact href ▸ h.reaches_of_affects hdecl haffects

/-- The variations noted at a place are those that override a filter on the way there, or change a
column that such a filter reads. -/
theorem mem_chain_iff {i : Nat} {p : Place} (hp : index.place? i = some p) {variation : String} :
    variation ∈ p.chain ↔ ∃ m ∈ t.path i, ∃ v, t.nodes[m]?.bind Node.filter = some v ∧
      (variation ∈ v.overridden ∨ ∃ b, t.FilterRefersTo m b ∧ variation ∈ index.affects b) := by
  rw [h.mem_chain hp]
  refine exists_congr fun m => and_congr_right fun hm => ?_
  have hlt := Nat.lt_of_le_of_lt (h.wellFormed.le_of_mem_path (h.place_lt hp).2 hm)
    (h.place_lt hp).2
  obtain ⟨q, hq⟩ := h.exists_place hlt
  refine exists_congr fun v => and_congr_right fun hv => or_congr_right ?_
  simp only [← h.scope_declared hq, (h.resolved hq).affects_iff, h.filterRefersTo_iff hq hv]
  constructor
  · rintro ⟨input, hinput, d, hd, haffects⟩
    obtain ⟨older, hdecl⟩ := declares_of_mem hq ((h.resolved hq).lookup_eq_some.mp hd).1
    exact ⟨d.ref, ⟨input, hinput, d, hd, rfl⟩, h.affects_of_declares hdecl ▸ haffects⟩
  · rintro ⟨b, ⟨input, hinput, d, hd, rfl⟩, haffects⟩
    obtain ⟨older, hdecl⟩ := declares_of_mem hq ((h.resolved hq).lookup_eq_some.mp hd).1
    exact ⟨input, hinput, d, hd, h.affects_of_declares hdecl ▸ haffects⟩

theorem chain_subset {i m : Nat} {p q : Place} (hp : index.place? i = some p)
    (hq : index.place? m = some q) (hm : m ∈ t.path i) : q.chain ⊆ p.chain := by
  intro variation hchain
  obtain ⟨k, hk, haffected⟩ := (h.mem_chain hq variation).mp hchain
  exact (h.mem_chain hp variation).mpr
    ⟨k, h.wellFormed.path_subset (h.place_lt hp).2 hm hk, haffected⟩

end Lawful
end ScopeIndex
end SelectionPlan
