import SelectionPlan.Naming.Namer
import SelectionPlan.Proofs.Triple

/-!
# Tagged names read back

A tagged scheme splits a physical name at the first separator.  Under its policy a part neither
holds a separator nor ends in one of its characters, so the first separator is the one between the
parts.
-/

namespace SelectionPlan

section Split

variable {separator head tail : List Char}

theorem splitOnce_separator (hne : separator ≠ []) :
    splitOnce separator (separator ++ tail) = some ([], tail) := by
  cases separator with
  | nil => exact absurd rfl hne
  | cons c rest =>
      have hstart : (c :: rest).isPrefixOf (c :: (rest ++ tail)) = true :=
        List.isPrefixOf_iff_prefix.mpr (List.prefix_append (c :: rest) tail)
      rw [List.cons_append, splitOnce, if_pos hstart]
      simp

/-- The separator does not begin inside a part that is free of it and does not end in one of its
characters. -/
theorem not_prefix_append (hfree : ¬ separator <+: head)
    (hlast : ∀ c ∈ head.getLast?, c ∉ separator)
    (hne : head ≠ []) : ¬ separator <+: head ++ tail := by
  intro hsep
  rcases List.prefix_or_prefix_of_prefix hsep (List.prefix_append head tail) with h | h
  · exact hfree h
  · have hmem : head.getLast hne ∈ separator := h.subset (List.getLast_mem hne)
    exact hlast _ (List.getLast?_eq_some_getLast hne) hmem

theorem splitOnce_join (hne : separator ≠ []) (hfree : splitOnce separator head = none)
    (hlast : ∀ c ∈ head.getLast?, c ∉ separator) (tail : List Char) :
    splitOnce separator (head ++ (separator ++ tail)) = some (head, tail) := by
  induction head with
  | nil => exact splitOnce_separator hne
  | cons c rest ih =>
      rw [splitOnce] at hfree
      split at hfree
      · cases hfree
      · rename_i hstart
        have hnot : ¬ separator.isPrefixOf (c :: (rest ++ (separator ++ tail))) = true := by
          intro h
          have hpart : ¬ separator <+: c :: rest := fun h =>
            hstart (List.isPrefixOf_iff_prefix.mpr h)
          exact not_prefix_append hpart hlast (List.cons_ne_nil c rest)
            (List.isPrefixOf_iff_prefix.mp h)
        have hrest : ∀ b ∈ rest.getLast?, b ∉ separator := by
          intro b hb
          refine hlast b ?_
          rw [List.getLast?_cons, Option.mem_def.mp hb]
          rfl
        rw [List.cons_append, splitOnce, if_neg hnot, ih (Option.map_eq_none_iff.mp hfree) hrest]
        rfl

theorem eq_join_of_splitOnce {text : List Char}
    (h : splitOnce separator text = some (head, tail)) : text = head ++ (separator ++ tail) := by
  induction text generalizing head with
  | nil =>
      rw [splitOnce] at h
      split at h
      · rename_i hempty
        cases h
        rw [List.isEmpty_iff.mp hempty]
        rfl
      · cases h
  | cons c rest ih =>
      rw [splitOnce] at h
      split at h
      · rename_i hstart
        cases h
        have hparts := List.prefix_iff_eq_append.mp (List.isPrefixOf_iff_prefix.mp hstart)
        rw [List.nil_append, hparts]
      · obtain ⟨⟨head', tail'⟩, hrest, heq⟩ := Option.map_eq_some_iff.mp h
        cases heq
        rw [ih hrest]
        rfl

end Split

theorem NameTag.fault?_eq_none {tag : NameTag} {name : String} (h : tag.fault? name = none) :
    splitOnce tag.separator.toList name.toList = none ∧
      ∀ c ∈ name.toList.getLast?, c ∉ tag.separator.toList := by
  simp only [fault?] at h
  split at h
  · cases h
  · split at h
    · cases h
    · split at h
      · cases h
      · rename_i hfree
        split at h
        · cases h
        · rename_i htouches
          refine ⟨by simpa using hfree, fun c hc hmem => htouches ?_⟩
          rw [Option.mem_def.mp hc]
          simp [hmem]

theorem NameTag.identifier_of_accepted {tag : NameTag} {name : String}
    (h : tag.fault? name = none) : name ≠ "" ∧ ∀ c ∈ name.toList, isIdentifierRest c = true := by
  simp only [fault?] at h
  split at h
  · cases h
  · split at h
    · cases h
    · rename_i hidentifier
      rw [Bool.not_eq_true', Bool.not_eq_false] at hidentifier
      cases hname : name.toList with
      | nil => simp [hname, isIdentifier] at hidentifier
      | cons c rest =>
          simp only [hname, isIdentifier, Bool.and_eq_true, List.all_eq_true] at hidentifier
          refine ⟨fun hempty => by simp [hempty] at hname, fun d hd => ?_⟩
          rcases List.mem_cons.mp hd with rfl | hd
          · have hstart := hidentifier.1
            simp only [isIdentifierStart, isIdentifierRest, Bool.or_eq_true] at hstart ⊢
            exact hstart.imp_left fun halpha => by simp [Char.isAlphanum, halpha]
          · exact hidentifier.2 d hd

namespace Namer

/-- A systematic whose name a namer accepts.  Nominal has no name. -/
def Accepts (namer : Namer) (s : Systematic) : Prop :=
  ∀ name, s = .variation name → namer.checkSystematic name = .ok ()

variable {tag : NameTag} {logical logical' : String} {s s' : Systematic}

theorem checkLogical_tagged :
    (Namer.tagged tag).checkLogical logical = .ok () ↔ tag.fault? logical = none := by
  cases h : tag.fault? logical <;> simp [checkLogical, h]

theorem checkSystematic_tagged {name : String} :
    (Namer.tagged tag).checkSystematic name = .ok () ↔ tag.fault? name = none := by
  cases h : tag.fault? name <;> simp [checkSystematic, h]

theorem parse_physical (hlogical : (Namer.tagged tag).checkLogical logical = .ok ())
    (hs : (Namer.tagged tag).Accepts s) :
    (Namer.tagged tag).parse ((Namer.tagged tag).physical logical s) = .ok (logical, s) := by
  obtain ⟨hfree, hlast⟩ := NameTag.fault?_eq_none (checkLogical_tagged.mp hlogical)
  have hseparator : tag.separator.toList ≠ [] := by
    simpa using tag.separator_ne_empty
  cases s with
  | nominal => simp only [physical, parse, hfree, hlogical, ok_bind]; rfl
  | variation name =>
      have hname := hs name rfl
      obtain ⟨hfree', hlast'⟩ := NameTag.fault?_eq_none (checkSystematic_tagged.mp hname)
      by_cases horder : tag.systematicFirst = true
      · have hsplit := splitOnce_join hseparator hfree' hlast' logical.toList
        simp only [physical, horder, if_true, parse, String.toList_append, List.append_assoc,
          hsplit, String.ofList_toList, hlogical, hname, ok_bind]
        rfl
      · have hsplit := splitOnce_join hseparator hfree hlast name.toList
        simp only [physical, horder, parse, String.toList_append, List.append_assoc, hsplit,
          String.ofList_toList, hlogical, hname, ok_bind, Bool.false_eq_true, if_false]
        rfl

theorem physical_inj (hlogical : (Namer.tagged tag).checkLogical logical = .ok ())
    (hs : (Namer.tagged tag).Accepts s)
    (hlogical' : (Namer.tagged tag).checkLogical logical' = .ok ())
    (hs' : (Namer.tagged tag).Accepts s')
    (h : (Namer.tagged tag).physical logical s = (Namer.tagged tag).physical logical' s') :
    logical = logical' ∧ s = s' := by
  have hparse := parse_physical hlogical hs
  rw [h, parse_physical hlogical' hs'] at hparse
  cases hparse
  exact ⟨rfl, rfl⟩

def Allows (namer : Namer) (logical : String) (s : Systematic) : Prop :=
  namer.checkLogical logical = .ok () ∧ namer.Accepts s

theorem physical_of_parse {physical : String}
    (h : (Namer.tagged tag).parse physical = .ok (logical, s)) :
    (Namer.tagged tag).Allows logical s ∧ (Namer.tagged tag).physical logical s = physical := by
  simp only [parse] at h
  cases hsplit : splitOnce tag.separator.toList physical.toList with
  | none =>
      simp only [hsplit] at h
      obtain ⟨⟨⟩, hlogical, h⟩ := bind_eq_ok.mp h
      cases h
      exact ⟨⟨hlogical, fun name hname => by cases hname⟩, rfl⟩
  | some parts =>
      obtain ⟨head, tail⟩ := parts
      simp only [hsplit] at h
      obtain ⟨⟨⟩, hlogical, h⟩ := bind_eq_ok.mp h
      obtain ⟨⟨⟩, hname, h⟩ := bind_eq_ok.mp h
      cases h
      refine ⟨⟨hlogical, fun name heq => ?_⟩, ?_⟩
      · cases heq
        exact hname
      · have hjoin : String.ofList (head ++ (tag.separator.toList ++ tail)) = physical := by
          rw [← eq_join_of_splitOnce hsplit, String.ofList_toList]
        rw [← hjoin]
        by_cases horder : tag.systematicFirst = true <;>
          simp [Namer.physical, horder, String.append_assoc]

/-- The tagged scheme of a separator, with the variation's name on either side of it. -/
def ofSeparator (separator : String) (systematicFirst : Bool) : Namer :=
  .tagged (NameTag.make separator systematicFirst)

/-- Whatever the separator is and on whichever side of it the variation stands, physical names and
the allowed pairs of a logical name and a systematic correspond one to one. -/
theorem tagged_codec (separator : String) (first : Bool) :
    (NameTag.make separator first).separator = (if separator = "" then "__" else separator) ∧
      (NameTag.make separator first).systematicFirst = first ∧
      (∀ logical s, (ofSeparator separator first).Allows logical s →
        (ofSeparator separator first).parse ((ofSeparator separator first).physical logical s) =
          .ok (logical, s)) ∧
      (∀ logical s logical' s', (ofSeparator separator first).Allows logical s →
        (ofSeparator separator first).Allows logical' s' → (logical, s) ≠ (logical', s') →
        (ofSeparator separator first).physical logical s ≠
          (ofSeparator separator first).physical logical' s') ∧
      (∀ logical logical' name, (ofSeparator separator first).Allows logical .nominal →
        (ofSeparator separator first).Allows logical' (.variation name) →
        (ofSeparator separator first).physical logical .nominal ≠
          (ofSeparator separator first).physical logical' (.variation name)) ∧
      (∀ physical logical s, (ofSeparator separator first).parse physical = .ok (logical, s) →
        (ofSeparator separator first).Allows logical s ∧
          (ofSeparator separator first).physical logical s = physical) ∧
      ∀ physical, (∃ pair, (ofSeparator separator first).parse physical = .ok pair) ↔
        ∃ logical s, (ofSeparator separator first).Allows logical s ∧
          (ofSeparator separator first).physical logical s = physical := by
  let namer := ofSeparator separator first
  have hread (logical : String) (s : Systematic) (h : namer.Allows logical s) :
      namer.parse (namer.physical logical s) = .ok (logical, s) := parse_physical h.1 h.2
  have hapart (logical : String) (s : Systematic) (logical' : String) (s' : Systematic)
      (h : namer.Allows logical s) (h' : namer.Allows logical' s')
      (hne : (logical, s) ≠ (logical', s')) :
      namer.physical logical s ≠ namer.physical logical' s' := by
    intro hsame
    obtain ⟨rfl, rfl⟩ := physical_inj h.1 h.2 h'.1 h'.2 hsame
    exact hne rfl
  refine ⟨?_, ?_, hread, hapart, fun logical logical' name h h' => ?_,
    fun physical logical s => physical_of_parse, fun physical => ⟨?_, ?_⟩⟩
  · rw [NameTag.make]
    split <;> rfl
  · rw [NameTag.make]
    split <;> rfl
  · exact hapart _ _ _ _ h h' (by simp)
  · rintro ⟨⟨logical, s⟩, h⟩
    exact ⟨logical, s, physical_of_parse h⟩
  · rintro ⟨logical, s, h, rfl⟩
    exact ⟨(logical, s), hread logical s h⟩

/-- A separator that overlaps itself, next to names that begin and end in other letters. -/
theorem tagged_codec_sample :
    (ofSeparator "aba" true).Allows "ptbz" (.variation "up_bz") ∧
      (ofSeparator "aba" true).physical "ptbz" (.variation "up_bz") = "up_bzabaptbz" ∧
      (ofSeparator "aba" true).parse "up_bzabaptbz" = .ok ("ptbz", .variation "up_bz") ∧
      (ofSeparator "aba" true).physical "ptbz" .nominal ≠ "up_bzabaptbz" := by
  have hallowed : (ofSeparator "aba" true).Allows "ptbz" (.variation "up_bz") :=
    ⟨by decide, fun name hname => by cases hname; decide⟩
  have hnominal : (ofSeparator "aba" true).Allows "ptbz" .nominal :=
    ⟨hallowed.1, fun name hname => by cases hname⟩
  have hphysical :
      (ofSeparator "aba" true).physical "ptbz" (.variation "up_bz") = "up_bzabaptbz" := by
    decide
  obtain ⟨-, -, hread, -, hnominal_ne, -⟩ := tagged_codec "aba" true
  refine ⟨hallowed, hphysical, ?_, ?_⟩
  · rw [← hphysical]
    exact hread "ptbz" (.variation "up_bz") hallowed
  · rw [← hphysical]
    exact hnominal_ne "ptbz" "ptbz" "up_bz" hnominal hallowed

end Namer
end SelectionPlan
