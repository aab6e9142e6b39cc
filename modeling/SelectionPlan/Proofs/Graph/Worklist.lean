import SelectionPlan.Proofs.Scope.Lookup

/-!
# Needed columns by a stack of inputs

The computed columns that some inputs need can be found with a stack of the inputs that still have
to be resolved.  What is found is kept by position, slot and systematic, and only a column that is
new puts its own inputs on the stack.
-/

namespace SelectionPlan

/-- What needed columns are ordered by: the position of the node, the slot and the systematic. -/
structure NeedKey where
  position : Nat
  slot : Nat
  systematic : Systematic
  deriving DecidableEq

namespace NeedKey

instance : LT NeedKey :=
  ⟨fun a b => a.position < b.position ∨ a.position = b.position ∧
    (a.slot < b.slot ∨ a.slot = b.slot ∧ a.systematic < b.systematic)⟩

theorem lt_iff {a b : NeedKey} : a < b ↔ a.position < b.position ∨ a.position = b.position ∧
    (a.slot < b.slot ∨ a.slot = b.slot ∧ a.systematic < b.systematic) := Iff.rfl

instance : DecidableLT NeedKey := fun a b =>
  inferInstanceAs (Decidable (a.position < b.position ∨ a.position = b.position ∧
    (a.slot < b.slot ∨ a.slot = b.slot ∧ a.systematic < b.systematic)))

instance : Std.Trichotomous (fun a b : NeedKey => a < b) where
  trichotomous a b hab hba := by
    rw [lt_iff] at hab hba
    have hposition : a.position = b.position := by omega
    have hslot : a.slot = b.slot := by omega
    have hsystematic : a.systematic = b.systematic :=
      Std.Trichotomous.trichotomous (r := fun s s' : Systematic => s < s') _ _
        (fun h => hab (.inr ⟨hposition, .inr ⟨hslot, h⟩⟩))
        (fun h => hba (.inr ⟨hposition.symm, .inr ⟨hslot.symm, h⟩⟩))
    cases a
    cases b
    simp_all

instance : IsTrans NeedKey (fun a b => a < b) where
  trans a b c hab hbc := by
    rw [lt_iff] at hab hbc ⊢
    rcases hab with hab | ⟨hab, hab' | ⟨hab', hsystematic⟩⟩ <;>
      rcases hbc with hbc | ⟨hbc, hbc' | ⟨hbc', hsystematic'⟩⟩
    case inr.inr.inr.inr =>
      exact .inr ⟨hab.trans hbc, .inr ⟨hab'.trans hbc',
        IsTrans.trans (r := fun s s' : Systematic => s < s') _ _ _ hsystematic hsystematic'⟩⟩
    all_goals omega

instance : Std.Irrefl (fun a b : NeedKey => a < b) where
  irrefl a h := by
    rcases lt_iff.mp h with h | ⟨-, h | ⟨-, h⟩⟩
    · exact Nat.lt_irrefl _ h
    · exact Nat.lt_irrefl _ h
    · exact Std.Irrefl.irrefl (r := fun s s' : Systematic => s < s') _ h

end NeedKey

namespace SelectionTree

def columns (t : SelectionTree) : List ColumnRef :=
  (List.range t.size).flatMap fun node =>
    (List.range (t.own node).length).map fun slot => ⟨node, slot⟩

theorem mem_columns {t : SelectionTree} {c : ColumnRef} :
    c ∈ t.columns ↔ ∃ v, t.variableAt? c = some v := by
  simp only [columns, List.mem_flatMap, List.mem_map, List.mem_range, variableAt?]
  constructor
  · rintro ⟨node, -, slot, hslot, rfl⟩
    exact ⟨_, List.getElem?_eq_getElem hslot⟩
  · rintro ⟨v, hv⟩
    exact ⟨c.node, lt_size_of_own hv, c.slot, (List.getElem?_eq_some_iff.mp hv).1, rfl⟩

theorem nodup_columns (t : SelectionTree) : t.columns.Nodup := by
  rw [columns, List.nodup_flatMap]
  refine ⟨fun node _ => List.nodup_range.map fun a b h => (ColumnRef.mk.inj h).2, ?_⟩
  refine List.nodup_range.imp fun {i j} hne => ?_
  refine List.disjoint_left.mpr ?_
  intro c hi hj
  obtain ⟨a, -, rfl⟩ := List.mem_map.mp hi
  obtain ⟨b, -, heq⟩ := List.mem_map.mp hj
  exact hne (ColumnRef.mk.inj heq).1.symm

end SelectionTree

namespace NameTables

/-- The systematic that a variable is read for under `s`: nominal unless `s` changes it. -/
def effective (tables : NameTables) (c : ColumnRef) (s : Systematic) : Systematic :=
  match s with
  | .variation name => if name ∈ tables.affectsOf c then s else .nominal
  | .nominal => .nominal

structure Wanted where
  site : Site
  input : String
  reader : String

/-- Empties a stack of inputs into what has been found, if that takes no more than `turns` turns.
Computed variables are added to what has been found and put their own inputs on the stack. -/
def gather (tables : NameTables) (s : Systematic) : (turns : Nat) → (stack : List Wanted) →
    (found : List (NeedKey × ColumnRef)) →
    Option (Except BuildError (List (NeedKey × ColumnRef)))
  | _, [], found => some (.ok found)
  | 0, _ :: _, _ => none
  | turns + 1, w :: stack, found =>
    match tables.require w.site w.input w.reader with
    | .error e => some (.error e)
    | .ok c =>
      match tables.tree.variableAt? c with
      | none => some (.error .foreignNode)
      | some v =>
        let effective := tables.effective c s
        if v.isBranch effective then tables.gather s turns stack found
        else
          match tables.position? c.node with
          | none => some (.error .foreignNode)
          | some position =>
            let key : NeedKey := ⟨position, c.slot, effective⟩
            if (lookupKey key found).isSome then
              tables.gather s turns stack (insertKey key c found)
            else
              let inputs := (v.spec effective).inputs.map fun i => ⟨.within c, i, v.name⟩
              tables.gather s turns (inputs.reverse ++ stack) (insertKey key c found)

/-- The computed variables that some inputs read from a site need under `s`, each with the
systematic it is computed for, in the order of their keys. -/
def needs (tables : NameTables) (s : Systematic) (site : Site) (inputs : List String)
    (reader : String) (turns : Nat) : Option (Except BuildError (List (ColumnRef × Systematic))) :=
  let stack := (inputs.map fun i => ⟨site, i, reader⟩).reverse
  (tables.gather s turns stack []).map fun outcome =>
    outcome.map fun found => found.map fun (key, c) => (c, key.systematic)

def inputsUnder (tables : NameTables) (s : Systematic) (c : ColumnRef) : List String :=
  ((tables.tree.variableAt? c).map fun v => (v.spec (tables.effective c s)).inputs).getD []

def isComputed (tables : NameTables) (s : Systematic) (c : ColumnRef) : Bool :=
  (tables.tree.variableAt? c).any fun v => !v.isBranch (tables.effective c s)

/-- The variables that can be reached from some inputs: those that the inputs mean, and those that
the inputs of such variables mean. -/
inductive Needed (tables : NameTables) (s : Systematic) (site : Site) (inputs : List String) :
    ColumnRef → Prop
  | input {i : String} {c : ColumnRef} : i ∈ inputs → tables.lookup site i = some c →
      Needed tables s site inputs c
  | through {i : String} {c d : ColumnRef} : Needed tables s site inputs c →
      i ∈ tables.inputsUnder s c → tables.lookup (.within c) i = some d →
      Needed tables s site inputs d

def workload (tables : NameTables) (s : Systematic) : Nat :=
  (tables.tree.columns.flatMap (tables.inputsUnder s)).length

def needKey (tables : NameTables) (s : Systematic) (c : ColumnRef) : NeedKey :=
  ⟨(tables.position? c.node).getD 0, c.slot, tables.effective c s⟩

structure Ready (tables : NameTables) : Prop where
  /-- What a name means is a variable of the tree. -/
  found : ∀ site name c, tables.lookup site name = some c →
    ∃ v i, tables.tree.variableAt? c = some v ∧ tables.position? c.node = some i
  /-- The inputs of a variable mean something to it. -/
  input : ∀ c v s i, tables.tree.variableAt? c = some v → i ∈ (v.spec s).inputs →
    ∃ d, tables.lookup (.within c) i = some d
  position_inj : ∀ i j k, tables.position? i = some k → tables.position? j = some k → i = j

variable {tables : NameTables} {s : Systematic} {site : Site} {inputs : List String}

theorem isComputed_of_mem_inputsUnder {c : ColumnRef} {i : String}
    (hi : i ∈ tables.inputsUnder s c) : tables.isComputed s c = true := by
  simp only [inputsUnder, isComputed] at hi ⊢
  cases hv : tables.tree.variableAt? c with
  | none => simp [hv] at hi
  | some v =>
      rw [hv, Option.map_some, Option.getD_some] at hi
      rw [Option.any_some, Variable.isBranch]
      cases hspec : v.spec (tables.effective c s) with
      | branch column => simp [hspec, Specification.inputs] at hi
      | function f inputs => rfl
      | expression e => rfl

/-! ### The loop -/

/-- The work that is left: the inputs of the variables that have not been found. -/
def left (tables : NameTables) (s : Systematic) (found : List (NeedKey × ColumnRef)) : Nat :=
  ((tables.tree.columns.filter fun c => c ∉ found.map Prod.snd).flatMap
    (tables.inputsUnder s)).length

/-- What holds while the stack is emptied: what has been found and what is on the stack is needed,
and whatever else is needed is behind an input on the stack. -/
structure Working (tables : NameTables) (s : Systematic) (site : Site) (inputs : List String)
    (stack : List Wanted) (found : List (NeedKey × ColumnRef)) : Prop where
  ascending : (found.map Prod.fst).Pairwise (· < ·)
  keyed : ∀ entry ∈ found, entry.1 = tables.needKey s entry.2
  sound : ∀ entry ∈ found, tables.Needed s site inputs entry.2 ∧
    tables.isComputed s entry.2 = true
  wanted : ∀ w ∈ stack, ∀ c, tables.lookup w.site w.input = some c → tables.Needed s site inputs c
  inputs_covered : ∀ i ∈ inputs, ∀ c, tables.lookup site i = some c →
    tables.isComputed s c = true → c ∈ found.map Prod.snd ∨
      ∃ w ∈ stack, tables.lookup w.site w.input = some c
  reads_covered : ∀ b ∈ found.map Prod.snd, ∀ i ∈ tables.inputsUnder s b, ∀ c,
    tables.lookup (.within b) i = some c → tables.isComputed s c = true →
      c ∈ found.map Prod.snd ∨ ∃ w ∈ stack, tables.lookup w.site w.input = some c

section Step

variable (hready : tables.Ready)
include hready

theorem Needed.exists_position {c : ColumnRef} (h : tables.Needed s site inputs c) :
    ∃ v i, tables.tree.variableAt? c = some v ∧ tables.position? c.node = some i := by
  cases h with
  | input _ hc => exact hready.found _ _ _ hc
  | through _ _ hc => exact hready.found _ _ _ hc

theorem needKey_inj {b c : ColumnRef} (hb : tables.Needed s site inputs b)
    (hc : tables.Needed s site inputs c) (h : tables.needKey s b = tables.needKey s c) : b = c := by
  obtain ⟨-, i, -, hi⟩ := hb.exists_position hready
  obtain ⟨-, j, -, hj⟩ := hc.exists_position hready
  simp only [needKey, hi, hj, Option.getD_some, NeedKey.mk.injEq] at h
  obtain ⟨rfl, hslot, -⟩ := h
  have hnode := hready.position_inj _ _ _ hi hj
  cases b
  cases c
  exact ColumnRef.mk.injEq .. ▸ ⟨hnode, hslot⟩

namespace Working

variable {w : Wanted} {stack : List Wanted} {found : List (NeedKey × ColumnRef)}
  (h : tables.Working s site inputs (w :: stack) found) {c : ColumnRef}
  (hc : tables.lookup w.site w.input = some c)
include h hc

omit hready in
theorem pop (hdone : tables.isComputed s c = true → c ∈ found.map Prod.snd) :
    tables.Working s site inputs stack found where
  ascending := h.ascending
  keyed := h.keyed
  sound := h.sound
  wanted := fun w' hw' => h.wanted w' (List.mem_cons_of_mem w hw')
  inputs_covered := by
    intro i hi b hb hcomputed
    rcases h.inputs_covered i hi b hb hcomputed with hfound | ⟨w', hw', hmeans⟩
    · exact .inl hfound
    · rcases List.mem_cons.mp hw' with rfl | hw'
      · rw [hc, Option.some.injEq] at hmeans
        exact .inl (hmeans ▸ hdone (hmeans ▸ hcomputed))
      · exact .inr ⟨w', hw', hmeans⟩
  reads_covered := by
    intro a ha i hi b hb hcomputed
    rcases h.reads_covered a ha i hi b hb hcomputed with hfound | ⟨w', hw', hmeans⟩
    · exact .inl hfound
    · rcases List.mem_cons.mp hw' with rfl | hw'
      · rw [hc, Option.some.injEq] at hmeans
        exact .inl (hmeans ▸ hdone (hmeans ▸ hcomputed))
      · exact .inr ⟨w', hw', hmeans⟩

theorem mem_insert (entry : NeedKey × ColumnRef) :
    entry ∈ insertKey (tables.needKey s c) c found ↔
      entry = (tables.needKey s c, c) ∨ entry ∈ found := by
  have hneeded := h.wanted w List.mem_cons_self c hc
  rw [mem_insertKey h.ascending]
  constructor
  · rintro (hnew | ⟨hold, -⟩)
    · exact .inl hnew
    · exact .inr hold
  · rintro (hnew | hold)
    · exact .inl hnew
    · by_cases hkey : entry.1 = tables.needKey s c
      · have heq := needKey_inj hready (h.sound entry hold).1 hneeded
          ((h.keyed entry hold).symm.trans hkey)
        exact .inl (Prod.ext hkey heq)
      · exact .inr ⟨hold, hkey⟩

theorem mem_found_insert (b : ColumnRef) :
    b ∈ (insertKey (tables.needKey s c) c found).map Prod.snd ↔
      b = c ∨ b ∈ found.map Prod.snd := by
  simp only [List.mem_map, h.mem_insert hready hc]
  constructor
  · rintro ⟨entry, rfl | hold, rfl⟩
    · exact .inl rfl
    · exact .inr ⟨entry, hold, rfl⟩
  · rintro (rfl | ⟨entry, hold, rfl⟩)
    · exact ⟨_, .inl rfl, rfl⟩
    · exact ⟨entry, .inr hold, rfl⟩

theorem insert_found (hfound : (lookupKey (tables.needKey s c) found).isSome) :
    insertKey (tables.needKey s c) c found = found ∧ c ∈ found.map Prod.snd := by
  obtain ⟨b, hb⟩ := Option.isSome_iff_exists.mp hfound
  have hmem := mem_of_lookupKey hb
  have heq : b = c := needKey_inj hready (h.sound _ hmem).1 (h.wanted w List.mem_cons_self c hc)
    (h.keyed _ hmem).symm
  subst heq
  refine ⟨eq_of_ascending ?_ h.ascending fun entry => ?_, List.mem_map_of_mem hmem⟩
  · rw [map_fst_insertKey]
    exact pairwise_insertDistinct h.ascending
  · rw [h.mem_insert hready hc]
    exact or_iff_right_of_imp fun heq => heq ▸ hmem

theorem push {v : Variable} (hv : tables.tree.variableAt? c = some v)
    (hcomputed : tables.isComputed s c = true) :
    tables.Working s site inputs
      (((v.spec (tables.effective c s)).inputs.map fun i => ⟨.within c, i, v.name⟩).reverse ++
        stack) (insertKey (tables.needKey s c) c found) := by
  have hneeded := h.wanted w List.mem_cons_self c hc
  have hinputs : tables.inputsUnder s c = (v.spec (tables.effective c s)).inputs := by
    rw [inputsUnder, hv, Option.map_some, Option.getD_some]
  have hmem := h.mem_found_insert hready hc
  have hcovered {b : ColumnRef} (hb : b ∈ found.map Prod.snd ∨
      ∃ w' ∈ w :: stack, tables.lookup w'.site w'.input = some b) :
      b ∈ (insertKey (tables.needKey s c) c found).map Prod.snd ∨
        ∃ w' ∈ ((v.spec (tables.effective c s)).inputs.map fun i =>
          (⟨.within c, i, v.name⟩ : Wanted)).reverse ++ stack,
          tables.lookup w'.site w'.input = some b := by
    rcases hb with hfound | ⟨w', hw', hmeans⟩
    · exact .inl ((hmem b).mpr (.inr hfound))
    · rcases List.mem_cons.mp hw' with rfl | hw'
      · rw [hc, Option.some.injEq] at hmeans
        exact .inl ((hmem b).mpr (.inl hmeans.symm))
      · exact .inr ⟨w', List.mem_append_right _ hw', hmeans⟩
  constructor
  case ascending =>
    rw [map_fst_insertKey]
    exact pairwise_insertDistinct h.ascending
  case keyed =>
    intro entry hentry
    rcases (h.mem_insert hready hc entry).mp hentry with rfl | hold
    · rfl
    · exact h.keyed entry hold
  case sound =>
    intro entry hentry
    rcases (h.mem_insert hready hc entry).mp hentry with rfl | hold
    · exact ⟨hneeded, hcomputed⟩
    · exact h.sound entry hold
  case wanted =>
    intro w' hw' b hb
    rcases List.mem_append.mp hw' with hnew | hold
    · obtain ⟨i, hi, rfl⟩ := List.mem_map.mp (List.mem_reverse.mp hnew)
      exact .through hneeded (hinputs ▸ hi) hb
    · exact h.wanted w' (List.mem_cons_of_mem w hold) b hb
  case inputs_covered =>
    exact fun i hi b hb hcomp => hcovered (h.inputs_covered i hi b hb hcomp)
  case reads_covered =>
    intro a ha i hi b hb hcomp
    rcases (hmem a).mp ha with rfl | ha
    · refine .inr ⟨⟨.within a, i, v.name⟩, ?_, hb⟩
      rw [hinputs] at hi
      exact List.mem_append_left _ (List.mem_reverse.mpr (List.mem_map_of_mem hi))
    · exact hcovered (h.reads_covered a ha i hi b hb hcomp)

theorem left_push (hv : ∃ v, tables.tree.variableAt? c = some v)
    (hfresh : ¬ (lookupKey (tables.needKey s c) found).isSome) :
    tables.left s found = (tables.inputsUnder s c).length +
      tables.left s (insertKey (tables.needKey s c) c found) := by
  have hnew : c ∉ found.map Prod.snd := by
    intro hmem
    obtain ⟨⟨key, b⟩, hentry, rfl⟩ := List.mem_map.mp hmem
    have hkey : key = tables.needKey s b := h.keyed _ hentry
    rw [hkey] at hentry
    exact hfresh (lookupKey_isSome_iff.mpr (List.mem_map_of_mem hentry))
  have hcolumns := tables.tree.nodup_columns
  have hperm : (tables.tree.columns.filter fun b => b ∉ found.map Prod.snd).Perm
      (c :: tables.tree.columns.filter fun b =>
        b ∉ (insertKey (tables.needKey s c) c found).map Prod.snd) := by
    rw [List.perm_ext_iff_of_nodup (hcolumns.filter _)
      (List.nodup_cons.mpr ⟨?_, hcolumns.filter _⟩)]
    · intro b
      simp only [List.mem_cons, List.mem_filter, decide_eq_true_eq, h.mem_found_insert hready hc,
        not_or]
      by_cases heq : b = c
      · simp only [heq, true_or, iff_true]
        exact ⟨SelectionTree.mem_columns.mpr hv, hnew⟩
      · simp only [heq, not_false_eq_true, true_and, false_or]
    · simp only [List.mem_filter, decide_eq_true_eq, h.mem_found_insert hready hc, true_or,
        not_true_eq_false, and_false, not_false_eq_true]
  rw [left, (hperm.flatMap_right _).length_eq, List.flatMap_cons, List.length_append, left]

end Working

/-- One turn: what the input on top means is found, and the inputs that it adds to the stack were
left before. -/
theorem gather_step {w : Wanted} {stack : List Wanted} {found : List (NeedKey × ColumnRef)}
    (h : tables.Working s site inputs (w :: stack) found) {c : ColumnRef}
    (hc : tables.lookup w.site w.input = some c) :
    ∃ more found', (∀ turns, tables.gather s (turns + 1) (w :: stack) found =
        tables.gather s turns (more ++ stack) found') ∧
      tables.Working s site inputs (more ++ stack) found' ∧
      (∀ w' ∈ more, ∃ d, tables.lookup w'.site w'.input = some d) ∧
      more.length + tables.left s found' = tables.left s found := by
  obtain ⟨v, position, hv, hposition⟩ := hready.found _ _ _ hc
  have hrequire : tables.require w.site w.input w.reader = .ok c := by rw [require, hc]
  have hkey : (⟨position, c.slot, tables.effective c s⟩ : NeedKey) = tables.needKey s c := by
    rw [needKey, hposition, Option.getD_some]
  have hcomputed : tables.isComputed s c = !v.isBranch (tables.effective c s) := by
    rw [isComputed, hv, Option.any_some]
  cases hbranch : v.isBranch (tables.effective c s) with
  | true =>
      refine ⟨[], found, fun turns => ?_, h.pop hc fun hcomp => ?_, by simp, Nat.zero_add _⟩
      · simp only [gather, hrequire, hv, hbranch, if_true, List.nil_append]
      · rw [hcomputed, hbranch] at hcomp
        cases hcomp
  | false =>
      by_cases hfound : (lookupKey (tables.needKey s c) found).isSome
      · obtain ⟨hsame, hmem⟩ := h.insert_found hready hc hfound
        refine ⟨[], found, fun turns => ?_, h.pop hc fun _ => hmem, by simp, Nat.zero_add _⟩
        simp only [gather, hrequire, hv, hbranch, hposition, hkey, hfound, if_true, hsame,
          List.nil_append]
        rfl
      · have hpush := h.push hready hc hv (by rw [hcomputed, hbranch]; rfl)
        refine ⟨_, _, fun turns => ?_, hpush, ?_, ?_⟩
        · simp only [gather, hrequire, hv, hbranch, hposition, hkey, hfound]
          rfl
        · intro w' hw'
          obtain ⟨i, hi, rfl⟩ := List.mem_map.mp (List.mem_reverse.mp hw')
          exact hready.input c v _ i hv hi
        · rw [h.left_push hready hc ⟨v, hv⟩ hfound, inputsUnder, hv]
          simp

/-- If every input means something, the loop ends when its turns suffice for what is left. -/
theorem gather_run {turns : Nat} {stack : List Wanted} {found : List (NeedKey × ColumnRef)}
    (h : tables.Working s site inputs stack found)
    (hstack : ∀ w ∈ stack, ∃ c, tables.lookup w.site w.input = some c)
    (hturns : stack.length + tables.left s found ≤ turns) :
    ∃ found', tables.gather s turns stack found = some (.ok found') ∧
      tables.Working s site inputs [] found' := by
  induction turns generalizing stack found with
  | zero =>
      have hnil : stack = [] := List.length_eq_zero_iff.mp (by omega)
      subst hnil
      exact ⟨found, rfl, h⟩
  | succ turns ih =>
      cases stack with
      | nil => exact ⟨found, rfl, h⟩
      | cons w stack =>
          obtain ⟨c, hc⟩ := hstack w List.mem_cons_self
          obtain ⟨more, found', hstep, h', hmore, hleft⟩ := gather_step hready h hc
          rw [hstep]
          refine ih h' (fun w' hw' => ?_) ?_
          · rcases List.mem_append.mp hw' with hnew | hold
            · exact hmore w' hnew
            · exact hstack w' (List.mem_cons_of_mem w hold)
          · rw [List.length_append]
            rw [List.length_cons] at hturns
            omega

/-- The first input from the top that means nothing is complained about. -/
theorem gather_fails {turns : Nat} {good rest : List Wanted} {bad : Wanted}
    {found : List (NeedKey × ColumnRef)}
    (h : tables.Working s site inputs (good ++ bad :: rest) found)
    (hgood : ∀ w ∈ good, ∃ c, tables.lookup w.site w.input = some c)
    (hbad : tables.lookup bad.site bad.input = none)
    (hturns : good.length + 1 + tables.left s found ≤ turns) :
    tables.gather s turns (good ++ bad :: rest) found =
      some (.error (.unresolved bad.input bad.reader .nominal (tables.path bad.site.node))) := by
  induction turns generalizing good found with
  | zero => omega
  | succ turns ih =>
      cases good with
      | nil => simp only [List.nil_append, gather, require, hbad]
      | cons w good =>
          obtain ⟨c, hc⟩ := hgood w List.mem_cons_self
          rw [List.cons_append] at h ⊢
          obtain ⟨more, found', hstep, h', hmore, hleft⟩ := gather_step hready h hc
          rw [hstep, ← List.append_assoc]
          rw [← List.append_assoc] at h'
          refine ih h' (fun w' hw' => ?_) ?_
          · rcases List.mem_append.mp hw' with hnew | hold
            · exact hmore w' hnew
            · exact hgood w' (List.mem_cons_of_mem w hold)
          · rw [List.length_append]
            rw [List.length_cons] at hturns
            omega

end Step

/-- When the stack is empty, what has been found are the computed variables that are needed. -/
theorem Working.mem_found {found : List (NeedKey × ColumnRef)}
    (h : tables.Working s site inputs [] found) (entry : NeedKey × ColumnRef) :
    entry ∈ found ↔ entry.1 = tables.needKey s entry.2 ∧
      tables.Needed s site inputs entry.2 ∧ tables.isComputed s entry.2 = true := by
  have hcomplete {c : ColumnRef} (hc : tables.Needed s site inputs c) :
      tables.isComputed s c = true → c ∈ found.map Prod.snd := by
    induction hc with
    | input hi hmeans =>
        intro hcomputed
        rcases h.inputs_covered _ hi _ hmeans hcomputed with hfound | ⟨w, hw, -⟩
        · exact hfound
        · cases hw
    | through _ hi hmeans ih =>
        intro hcomputed
        have hread := ih (isComputed_of_mem_inputsUnder hi)
        rcases h.reads_covered _ hread _ hi _ hmeans hcomputed with hfound | ⟨w, hw, -⟩
        · exact hfound
        · cases hw
  constructor
  · exact fun hentry => ⟨h.keyed entry hentry, h.sound entry hentry⟩
  · rintro ⟨hkey, hneeded, hcomputed⟩
    obtain ⟨entry', hentry', heq⟩ := List.mem_map.mp (hcomplete hneeded hcomputed)
    have hsame : entry' = entry :=
      Prod.ext ((h.keyed entry' hentry').trans (by rw [heq, hkey])) heq
    exact hsame ▸ hentry'

theorem working_start (reader : String) : tables.Working s site inputs
    (inputs.map fun i => ⟨site, i, reader⟩).reverse [] := by
  constructor
  case ascending => exact List.Pairwise.nil
  case keyed => exact fun _ hentry => nomatch hentry
  case sound => exact fun _ hentry => nomatch hentry
  case wanted =>
    intro w hw c hc
    obtain ⟨i, hi, rfl⟩ := List.mem_map.mp (List.mem_reverse.mp hw)
    exact .input hi hc
  case inputs_covered =>
    exact fun i hi c hc _ =>
      .inr ⟨⟨site, i, reader⟩, List.mem_reverse.mpr (List.mem_map_of_mem hi), hc⟩
  case reads_covered => exact fun _ hb => nomatch hb

end NameTables
end SelectionPlan
