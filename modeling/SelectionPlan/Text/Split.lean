/-!
# Splitting texts
-/

namespace SelectionPlan

/-- The parts of a text between the occurrences of a character; there is always at least one. -/
def splitOnChar (separator : Char) : List Char → List (List Char)
  | [] => [[]]
  | c :: rest =>
    if c = separator then [] :: splitOnChar separator rest
    else
      match splitOnChar separator rest with
      | [] => [[c]]
      | part :: parts => (c :: part) :: parts

theorem splitOnChar_ne_nil (c : Char) (xs : List Char) : splitOnChar c xs ≠ [] := by
  cases xs with
  | nil => simp [splitOnChar]
  | cons x xs =>
      rw [splitOnChar]
      split
      · exact List.cons_ne_nil _ _
      · split <;> exact List.cons_ne_nil _ _

theorem splitOnChar_append (c : Char) (xs ys : List Char) :
    splitOnChar c (xs ++ c :: ys) = splitOnChar c xs ++ splitOnChar c ys := by
  induction xs with
  | nil => simp [splitOnChar]
  | cons x xs ih =>
      rw [List.cons_append, splitOnChar, splitOnChar, ih]
      split
      · rfl
      · cases hxs : splitOnChar c xs with
        | nil => exact absurd hxs (splitOnChar_ne_nil c xs)
        | cons part parts => rfl

theorem splitOnChar_of_not_mem {c : Char} {xs : List Char} (h : c ∉ xs) :
    splitOnChar c xs = [xs] := by
  induction xs with
  | nil => rfl
  | cons x xs ih =>
      rw [List.mem_cons, not_or] at h
      rw [splitOnChar, if_neg (Ne.symm h.1), ih h.2]

theorem splitOnChar_intercalate {c : Char} {parts : List (List Char)} (hne : parts ≠ [])
    (h : ∀ part ∈ parts, c ∉ part) : splitOnChar c ([c].intercalate parts) = parts := by
  induction parts with
  | nil => exact absurd rfl hne
  | cons part rest ih =>
      have hpart : splitOnChar c part = [part] := splitOnChar_of_not_mem (h part List.mem_cons_self)
      cases rest with
      | nil => rw [List.intercalate_singleton, hpart]
      | cons next rest =>
          have hrest := ih (List.cons_ne_nil _ _) fun p hp => h p (List.mem_cons_of_mem _ hp)
          rw [List.intercalate_cons_cons, List.append_assoc, List.singleton_append,
            splitOnChar_append, hpart, hrest]
          rfl

end SelectionPlan
