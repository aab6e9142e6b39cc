import SelectionPlan.Proofs.Graph.Task
import SelectionPlan.Proofs.Triple
import Mathlib.Data.List.TakeWhile

/-!
# Required selections

The recursion that settles the required selections stops where it comes to one that is required
already.  Nothing is missed, because above such a selection everything was required with it.
-/

namespace SelectionPlan

namespace SelectionKey

theorem lt_iff {a b : SelectionKey} :
    a < b ↔ a.position < b.position ∨ a.position = b.position ∧ a.chain < b.chain := Iff.rfl

instance : Std.Trichotomous (fun a b : SelectionKey => a < b) where
  trichotomous a b hab hba := by
    rw [lt_iff] at hab hba
    have hposition : a.position = b.position := by omega
    have hchain : a.chain = b.chain :=
      Std.Trichotomous.trichotomous (r := fun s s' : Systematic => s < s') _ _
        (fun h => hab (.inr ⟨hposition, h⟩)) (fun h => hba (.inr ⟨hposition.symm, h⟩))
    cases a
    cases b
    simp_all

instance : IsTrans SelectionKey (fun a b => a < b) where
  trans a b c hab hbc := by
    rw [lt_iff] at hab hbc ⊢
    rcases hab with hab | ⟨hab, hchain⟩ <;> rcases hbc with hbc | ⟨hbc, hchain'⟩
    case inr.inr =>
      exact .inr ⟨hab.trans hbc,
        IsTrans.trans (r := fun s s' : Systematic => s < s') _ _ _ hchain hchain'⟩
    all_goals omega

/-! ### Selections at a position -/

theorem not_lt_nominal (s : Systematic) : ¬ s < .nominal := by
  change ¬ Systematic.before s .nominal = true
  cases s <;> simp [Systematic.before]

theorem mem_chainsAt {required : List SelectionKey} (h : required.Pairwise (· < ·)) {position : Nat}
    {chain : Systematic} : chain ∈ chainsAt required position ↔ ⟨position, chain⟩ ∈ required := by
  induction required with
  | nil => simp [chainsAt]
  | cons key rest ih =>
      obtain ⟨hkey, hrest⟩ := List.pairwise_cons.mp h
      obtain ⟨k, c⟩ := key
      have hstart : (⟨k, c⟩ : SelectionKey) < ⟨position, .nominal⟩ ↔ k < position := by
        simp [lt_iff, not_lt_nominal]
      rcases Nat.lt_trichotomy k position with hlt | rfl | hgt
      · have hskip : chainsAt (⟨k, c⟩ :: rest) position = chainsAt rest position := by
          simp [chainsAt, hstart, hlt]
        have hne : (⟨position, chain⟩ : SelectionKey) ≠ ⟨k, c⟩ := by
          intro heq
          cases heq
          exact Nat.lt_irrefl _ hlt
        rw [hskip, ih hrest, List.mem_cons, or_iff_right hne]
      · -- No later selection is before this one, so the range goes on in the rest.
        have hfrom : rest.dropWhile (fun key => decide (key < ⟨k, .nominal⟩)) = rest := by
          refine List.dropWhile_eq_self_iff.mpr fun hlen => ?_
          have hnext := lt_iff.mp (hkey _ (List.getElem_mem hlen))
          simp only [decide_eq_true_eq, lt_iff, not_lt_nominal, and_false, or_false]
          simp only at hnext
          omega
        have hgo : chainsAt (⟨k, c⟩ :: rest) k = c :: chainsAt rest k := by
          simp [chainsAt, hstart, hfrom]
        rw [hgo, List.mem_cons, List.mem_cons, ih hrest, mk.injEq]
        simp
      · have hend : chainsAt (⟨k, c⟩ :: rest) position = [] := by
          have hne : k ≠ position := by omega
          simp [chainsAt, hstart, Nat.not_lt.mpr (Nat.le_of_lt hgt), hne]
        have habsent : (⟨position, chain⟩ : SelectionKey) ∉
            (⟨k, c⟩ :: rest : List SelectionKey) := by
          rw [List.mem_cons, not_or]
          refine ⟨fun heq => ?_, fun hmem => ?_⟩
          · cases heq
            exact Nat.lt_irrefl _ hgt
          · have hlater := lt_iff.mp (hkey _ hmem)
            simp only at hlater
            omega
        simp [hend, habsent]

theorem pairwise_chainsAt {required : List SelectionKey} (h : required.Pairwise (· < ·))
    (position : Nat) : (chainsAt required position).Pairwise (· < ·) := by
  simp only [chainsAt, List.pairwise_map]
  refine ((h.sublist (List.dropWhile_suffix _).sublist).sublist
    (List.takeWhile_prefix _).sublist).imp_of_mem fun {a b} ha hb hlt => ?_
  have hposition : a.position = position := by simpa using List.mem_takeWhile_imp ha
  have hposition' : b.position = position := by simpa using List.mem_takeWhile_imp hb
  rcases lt_iff.mp hlt with hlt | ⟨-, hlt⟩
  · omega
  · exact hlt

end SelectionKey

theorem getElem?_of_zipIdx {α : Type} {xs : List α} {done : List (α × Nat)} {x : α} {k : Nat}
    (h : (done ++ [(x, k)]) <+: xs.zipIdx) : xs[k]? = some x ∧ k = done.length := by
  obtain ⟨rest, h⟩ := h
  have hget : xs.zipIdx[done.length]? = some (x, k) := by
    rw [← h, List.append_assoc, List.getElem?_append_right (Nat.le_refl _), Nat.sub_self]
    rfl
  rw [List.getElem?_zipIdx, Option.map_eq_some_iff] at hget
  obtain ⟨y, hy, heq⟩ := hget
  rw [Nat.zero_add, Prod.mk.injEq] at heq
  obtain ⟨rfl, rfl⟩ := heq
  exact ⟨hy, rfl⟩

def AcceptedRegion.ways (r : AcceptedRegion) : List (Nat × Systematic) :=
  r.systematics.map fun s => (r.place.node, s)

namespace ScopeIndex

/-- The selection of a node that lies on the way to another one, for the systematic in effect
there under `s`.  The root has the source instead. -/
def OnWay (index : ScopeIndex) (node : Nat) (s : Systematic) (key : SelectionKey) : Prop :=
  ∃ place ∈ index.trail node, place.parent.isSome ∧
    index.position? place.node = some key.position ∧ place.chainUnder s = key.chain

/-- Where a selection on the way to a node is required, so are those on the way to that one. -/
def UpwardClosed (index : ScopeIndex) (node : Nat) (s : Systematic)
    (required : List SelectionKey) : Prop :=
  ∀ place ∈ index.trail node, ∀ position, index.position? place.node = some position →
    ⟨position, place.chainUnder s⟩ ∈ required →
      ∀ key, index.OnWay place.node s key → key ∈ required

theorem eq_of_position {index : ScopeIndex} {i j position : Nat}
    (hi : index.position? i = some position) (hj : index.position? j = some position) : i = j := by
  obtain ⟨_, hi, -⟩ := List.findIdx?_eq_some_iff_getElem.mp hi
  obtain ⟨_, hj, -⟩ := List.findIdx?_eq_some_iff_getElem.mp hj
  rw [decide_eq_true_eq] at hi hj
  exact hi.symm.trans hj

theorem exists_position {index : ScopeIndex} {i : Nat} {place : Place}
    (h : index.place? i = some place) : ∃ position, index.position? i = some position := by
  rw [← Option.isSome_iff_exists, position?, List.findIdx?_isSome, List.any_eq_true]
  have hnode := List.find?_some h
  exact ⟨place, List.mem_of_find?_eq_some h, hnode⟩

namespace Lawful

variable {t : SelectionTree} {index : ScopeIndex} (h : Lawful t index)
include h

theorem position_of_getElem? {k : Nat} {place : Place} (hk : index.places[k]? = some place) :
    index.position? place.node = some k := by
  obtain ⟨hlt, rfl⟩ := List.getElem?_eq_some_iff.mp hk
  have hnodup : (index.places.map Place.node).Nodup := h.places_node ▸ h.wellFormed.nodup_preorder
  refine List.findIdx?_eq_some_iff_getElem.mpr ⟨hlt, by simp, fun j hj => ?_⟩
  rw [decide_eq_true_eq]
  intro heq
  exact absurd (List.inj_on_of_nodup_map hnodup (List.getElem_mem _) (List.getElem_mem _) heq)
    fun heq => Nat.ne_of_lt hj (hnodup.of_map.getElem_inj_iff.mp heq)

theorem trail_subset {i : Nat} {p q : Place} (hp : index.place? i = some p)
    (hq : q ∈ index.trail i) : index.trail q.node ⊆ index.trail i := by
  intro r hr
  obtain ⟨j, hj, hplace⟩ := h.mem_trail.mp hq
  obtain ⟨k, hk, hr⟩ := h.mem_trail.mp hr
  rw [(h.place_lt hplace).1] at hk
  exact h.mem_trail.mpr ⟨k, h.wellFormed.path_subset (h.place_lt hp).2 hj hk, hr⟩

theorem eq_of_mem_trail {i j : Nat} {p q : Place} (hp : p ∈ index.trail i)
    (hq : q ∈ index.trail j) (heq : p.node = q.node) : p = q := by
  obtain ⟨k, -, hp⟩ := h.mem_trail.mp hp
  obtain ⟨l, -, hq⟩ := h.mem_trail.mp hq
  rw [← (h.place_lt hp).1, heq, (h.place_lt hq).1, hq, Option.some.injEq] at hp
  exact hp.symm

theorem onWay_root {s : Systematic} {key : SelectionKey} : ¬ index.OnWay 0 s key := by
  rintro ⟨q, hq, hparent, -⟩
  obtain ⟨p, hp, -⟩ := h.root
  rw [h.trail_root hp, List.mem_singleton] at hq
  rw [hq, h.parent_eq hp, h.wellFormed.parent_root] at hparent
  cases hparent

theorem onWay_child {i parent position : Nat} {p : Place} (hparent : t.parent? i = some parent)
    (hp : index.place? i = some p) (hposition : index.position? i = some position)
    {s : Systematic} {key : SelectionKey} :
    index.OnWay i s key ↔ key = ⟨position, p.chainUnder s⟩ ∨ index.OnWay parent s key := by
  have hself : (p.parent.isSome ∧ index.position? p.node = some key.position ∧
      p.chainUnder s = key.chain) ↔ key = ⟨position, p.chainUnder s⟩ := by
    obtain ⟨k, c⟩ := key
    rw [h.parent_eq hp, hparent, (h.place_lt hp).1, hposition]
    simp [eq_comm]
  rw [OnWay, h.trail_child hparent hp, List.exists_mem_cons_iff, hself, OnWay]

theorem chainUnder_above {i parent : Nat} {p q : Place} (hparent : t.parent? i = some parent)
    (hp : index.place? i = some p) (hq : q ∈ index.trail parent) (s : Systematic) :
    q.chainUnder (p.chainUnder s) = q.chainUnder s := by
  have hmem : q ∈ index.trail i := h.trail_child hparent hp ▸ List.mem_cons_of_mem _ hq
  exact Place.chainUnder_chainUnder (h.above hp hmem).2 s

theorem onWay_chainUnder {i parent j : Nat} {p : Place} (hparent : t.parent? i = some parent)
    (hp : index.place? i = some p) (hj : index.trail j ⊆ index.trail parent) {s : Systematic}
    {key : SelectionKey} : index.OnWay j (p.chainUnder s) key ↔ index.OnWay j s key :=
  exists_congr fun q => and_congr_right fun hq => by
    rw [h.chainUnder_above hparent hp (hj hq) s]

/-- The selections above the one that is required next stay closed, as it is none of them. -/
theorem upwardClosed_insert {i parent position : Nat} {p above : Place}
    (hparent : t.parent? i = some parent) (hp : index.place? i = some p)
    (hposition : index.position? i = some position) (habove : index.place? parent = some above)
    {s : Systematic} {required : List SelectionKey} (hclosed : index.UpwardClosed i s required) :
    index.UpwardClosed parent (p.chainUnder s)
      (insertDistinct ⟨position, p.chainUnder s⟩ required) := by
  have htrail := h.trail_child hparent hp
  have hnodup := h.nodup_trail (h.place_lt hp).2
  rw [htrail, List.map_cons, List.nodup_cons, (h.place_lt hp).1] at hnodup
  intro q hq k hk hin key hkey
  rw [h.chainUnder_above hparent hp hq, mem_insertDistinct, SelectionKey.mk.injEq] at hin
  rw [h.onWay_chainUnder hparent hp (h.trail_subset habove hq)] at hkey
  rw [mem_insertDistinct]
  rcases hin with ⟨rfl, -⟩ | hin
  · exact absurd (eq_of_position hk hposition ▸ List.mem_map_of_mem hq) hnodup.1
  · exact .inr (hclosed q (htrail ▸ List.mem_cons_of_mem _ hq) k hk hin key hkey)

/-- One run adds the selections on the way to its node. -/
theorem requireWithin_eq_ok {bound i : Nat} {p : Place} {s : Systematic}
    {required : List SelectionKey} (hp : index.place? i = some p) (hbound : i ≤ bound)
    (hsorted : required.Pairwise (· < ·)) (hclosed : index.UpwardClosed i s required) :
    ∃ more, index.requireWithin bound i s required = .ok more ∧ more.Pairwise (· < ·) ∧
      ∀ key, key ∈ more ↔ key ∈ required ∨ index.OnWay i s key := by
  have hi := (h.place_lt hp).2
  induction i, hi using h.wellFormed.induction generalizing p s required bound with
  | root =>
      have hparent : p.parent = none := (h.parent_eq hp).trans h.wellFormed.parent_root
      refine ⟨required, ?_, hsorted, fun key => by simp [h.onWay_root]⟩
      unfold requireWithin
      simp only [hp, hparent]
  | child i parent hparent ih =>
      have hp' : p.parent = some parent := (h.parent_eq hp).trans hparent
      have hfilter := h.filter_isSome hp
      rw [hp', Option.isSome_some] at hfilter
      obtain ⟨v, hv⟩ := Option.isSome_iff_exists.mp hfilter
      obtain ⟨position, hposition⟩ := exists_position hp
      by_cases hmem : ⟨position, p.chainUnder s⟩ ∈ required
      · have hself : p.node = i := (h.place_lt hp).1
        have hall := hclosed p (by simp [h.trail_child hparent hp]) position (hself ▸ hposition)
          hmem
        refine ⟨required, ?_, hsorted, fun key => ⟨.inl, fun hkey => ?_⟩⟩
        · unfold requireWithin
          simp only [hp, hp', hv, hposition, hmem, if_true]
        · exact hkey.elim id fun hway => hall key (hself.symm ▸ hway)
      · obtain ⟨-, above, -, habove, -⟩ := h.child i parent hparent
        have hlt := h.wellFormed.parent_lt hparent
        obtain ⟨bound, rfl⟩ : ∃ b, bound = b + 1 := ⟨bound - 1, by omega⟩
        obtain ⟨more, hmore, hsorted', hiff⟩ := ih habove (by omega : parent ≤ bound)
          (pairwise_insertDistinct hsorted)
          (h.upwardClosed_insert hparent hp hposition habove hclosed)
        refine ⟨more, ?_, hsorted', fun key => ?_⟩
        · rw [requireWithin]
          simp only [hp, hp', hv, hposition, hmem, if_false, hmore]
        · rw [hiff, h.onWay_chainUnder hparent hp (List.Subset.refl _), mem_insertDistinct,
            h.onWay_child hparent hp hposition]
          tauto

end Lawful

/-- An ascending list of exactly the selections on the way to some nodes, each under a
systematic. -/
structure Requires (index : ScopeIndex) (asked : List (Nat × Systematic))
    (required : List SelectionKey) : Prop where
  placed : ∀ way ∈ asked, ∃ p, index.place? way.1 = some p
  sorted : required.Pairwise (· < ·)
  mem_iff : ∀ key, key ∈ required ↔ ∃ way ∈ asked, index.OnWay way.1 way.2 key

namespace Lawful

variable {t : SelectionTree} {index : ScopeIndex} (h : Lawful t index)
include h

/-- A selection is required on the way to some node, and the ways agree from there up. -/
theorem upwardClosed_of_requires {asked : List (Nat × Systematic)} {required : List SelectionKey}
    (hr : index.Requires asked required) (i : Nat) (s : Systematic) :
    index.UpwardClosed i s required := by
  rintro q hq position hposition hmem key ⟨r, hr', hparent, hkey, hchain⟩
  obtain ⟨⟨j, s'⟩, hway, q', hq', -, hposition', hchain'⟩ := (hr.mem_iff _).mp hmem
  have heq := h.eq_of_mem_trail hq' hq (eq_of_position hposition' hposition)
  subst heq
  obtain ⟨p', hp'⟩ := hr.placed _ hway
  obtain ⟨k, -, hplace⟩ := h.mem_trail.mp hq
  have hsub := (h.above ((h.place_lt hplace).1 ▸ hplace) hr').2
  refine (hr.mem_iff key).mpr ⟨_, hway, r, h.trail_subset hp' hq' hr', hparent, hkey, ?_⟩
  calc r.chainUnder s' = r.chainUnder (q'.chainUnder s') :=
        (Place.chainUnder_chainUnder hsub s').symm
    _ = r.chainUnder (q'.chainUnder s) := by rw [hchain']
    _ = r.chainUnder s := Place.chainUnder_chainUnder hsub s
    _ = key.chain := hchain

theorem requireSelections_meets {i : Nat} {p : Place} {s : Systematic}
    {asked : List (Nat × Systematic)} {required : List SelectionKey}
    (hp : index.place? i = some p) (hr : index.Requires asked required) :
    Meets (index.requireSelections i s required) (index.Requires (asked ++ [(i, s)]))
      fun _ => False := by
  obtain ⟨more, hmore, hsorted, hiff⟩ := h.requireWithin_eq_ok hp (Nat.le_refl i) hr.sorted
    (h.upwardClosed_of_requires hr i s)
  rw [requireSelections, hmore]
  refine ⟨?_, hsorted, fun key => ?_⟩
  · simp only [List.mem_append, List.mem_singleton]
    rintro way (hway | rfl)
    · exact hr.placed way hway
    · exact ⟨p, hp⟩
  · rw [hiff, hr.mem_iff]
    simp only [List.mem_append, List.mem_singleton, or_and_right, exists_or, exists_eq_left]

/-- Exactly the selections on the way to a region, for a systematic it requests, are required. -/
theorem requirements_meets {regions : List AcceptedRegion}
    (hplaced : ∀ r ∈ regions, index.place? r.place.node = some r.place) :
    Meets (index.requirements regions) (index.Requires (regions.flatMap AcceptedRegion.ways))
      fun _ => False := by
  refine Meets.foldlM (I := fun done => index.Requires (done.flatMap AcceptedRegion.ways))
    ⟨by simp, .nil, by simp⟩ ?_
  intro done r required hpre hr
  rw [List.flatMap_append, List.flatMap_singleton, AcceptedRegion.ways]
  refine Meets.foldlM (I := fun systematics => index.Requires
    (done.flatMap AcceptedRegion.ways ++ systematics.map fun s => (r.place.node, s))) ?_ ?_
  · rwa [List.map_nil, List.append_nil]
  · intro systematics s required _ hr
    rw [List.map_append, ← List.append_assoc]
    exact h.requireSelections_meets (hplaced r (hpre.subset (by simp))) hr

end Lawful
end ScopeIndex

namespace Planner

variable {p : Planner} {regions : List AcceptedRegion}

theorem mem_chainsAt {place : Place} {chain : Systematic} :
    chain ∈ p.chainsAt regions place ↔ ∃ r ∈ regions,
      place.node ∈ p.index.tree.path r.place.node ∧ ∃ s ∈ r.systematics,
        place.chainUnder s = chain := by
  simp only [chainsAt, mem_sortDistinct, List.mem_flatMap, List.mem_filter, decide_eq_true_eq,
    List.mem_map, and_assoc]

/-- The required selections at a place are those that the regions below it run on. -/
theorem chainsAt_eq {t : SelectionTree} (hlaw : ScopeIndex.Lawful t p.index)
    {required : List SelectionKey}
    (hr : p.index.Requires (regions.flatMap AcceptedRegion.ways) required) {place : Place}
    {position : Nat} (hplace : p.index.place? place.node = some place)
    (hposition : p.index.position? place.node = some position)
    (hparent : place.parent.isSome) :
    SelectionKey.chainsAt required position = p.chainsAt regions place := by
  refine eq_of_sorted (SelectionKey.pairwise_chainsAt hr.sorted position)
    (pairwise_unionDistinct .nil) fun chain => ?_
  rw [SelectionKey.mem_chainsAt hr.sorted, hr.mem_iff, mem_chainsAt]
  simp only [List.mem_flatMap, AcceptedRegion.ways, List.mem_map]
  constructor
  · rintro ⟨_, ⟨r, hr, s, hs, rfl⟩, q, hq, -, hkey, hchain⟩
    obtain ⟨j, hj, hq⟩ := hlaw.mem_trail.mp hq
    have hnode := ScopeIndex.eq_of_position hkey hposition
    rw [← (hlaw.place_lt hq).1, hnode] at hj hq
    rw [hplace, Option.some.injEq] at hq
    exact ⟨r, hr, hlaw.tree_eq ▸ hj, s, hs, hq ▸ hchain⟩
  · rintro ⟨r, hr, hbelow, s, hs, hchain⟩
    exact ⟨_, ⟨r, hr, s, hs, rfl⟩, place,
      hlaw.mem_trail.mpr ⟨_, hlaw.tree_eq ▸ hbelow, hplace⟩, hparent, hposition, hchain⟩

end Planner
end SelectionPlan
