import SelectionPlan.Proofs.Expression.Words
import SelectionPlan.Proofs.Triple

/-!
# Longest matches

A text is cut into blanks and words, each the longest that there is where it starts; this is what
the lexer does.
-/

namespace SelectionPlan

/-- A text that is cut into blanks and longest words. -/
inductive Lexed : List Char → List Token → Prop
  | nil : Lexed [] []
  | blank {c : Char} {rest : List Char} {tokens : List Token} : isBlank c = true →
      Lexed rest tokens → Lexed (c :: rest) tokens
  | word {word rest : List Char} {t : Token} {tokens : List Token} :
      LongestWord (word ++ rest) word (some t) → Lexed rest tokens →
      Lexed (word ++ rest) (t :: tokens)

/-! ### Scanning -/

theorem longest_number {cs : List Char} (h : Lexer.startsNumber cs = true) :
    LongestWord cs (Lexer.numberText cs) (numeral? (Lexer.numberText cs)) := by
  let run := cs.takeWhile isDigitOrPoint
  obtain ⟨after, hafter⟩ : run <+: cs := List.takeWhile_prefix _
  obtain ⟨⟨e, hexponent⟩, hstarts⟩ := exponentText_starts (cs.drop run.length)
  have hshape : NumberShape (Lexer.numberText cs) :=
    ⟨run, _, e, startsNumber_run h, fun c hc => List.mem_takeWhile_imp hc, hexponent, rfl⟩
  refine ⟨.number hshape.word, ?_, fun other token hother hstarts => ?_⟩
  · rw [← hafter, List.drop_left] at hstarts
    change run ++ Lexer.exponentText (cs.drop run.length) <+: cs
    rw [← hafter, List.prefix_append_right_inj, List.drop_left]
    exact hstarts
  · exact (hother.number_of_startsNumber hstarts h).2

theorem longest_identifier {c : Char} (h : isIdentifierStart c = true) (rest : List Char) :
    LongestWord (c :: rest) (c :: rest.takeWhile isIdentifierRest)
      (some (.identifier (String.ofList (c :: rest.takeWhile isIdentifierRest)))) where
  spells := .identifier h fun _ hd => List.mem_takeWhile_imp hd
  starts := List.cons_prefix_cons.mpr ⟨rfl, List.takeWhile_prefix _⟩
  longest := fun _ _ hother hstarts => (hother.identifier_of_start hstarts h).2

theorem symbolWord?_shape {word : List Char} {t : Token} (h : symbolWord? word = some t) :
    (∃ c, word = [c] ∧ ∀ next, ∃ found, Lexer.symbol c next = .ok found) ∨
      ∃ c d, word = [c, d] ∧ Lexer.symbol c (some d) = .ok (t, 2) := by
  unfold symbolWord? at h
  split at h <;> cases h <;> first
    | exact .inr ⟨_, _, rfl, rfl⟩
    | exact .inl ⟨_, rfl, fun next => ⟨_, rfl⟩⟩
    | refine .inl ⟨_, rfl, fun next => ?_⟩
      -- What is one character may go on with an equals sign.
      by_cases hnext : next = some '='
      · rw [hnext]
        exact ⟨_, rfl⟩
      · simp [Lexer.symbol]

theorem symbol_eq_ok {c : Char} {next : Option Char} {t : Token} {n : Nat}
    (h : Lexer.symbol c next = .ok (t, n)) :
    (n = 1 ∧ symbolWord? [c] = some t) ∨
      (n = 2 ∧ ∃ d, next = some d ∧ symbolWord? [c, d] = some t) := by
  unfold Lexer.symbol at h
  split at h <;> cases h <;> first
    | exact .inl ⟨rfl, rfl⟩
    | exact .inr ⟨rfl, _, rfl, rfl⟩

theorem longest_symbol {c : Char} {rest : List Char} {t : Token} {n : Nat}
    (hstart : isIdentifierStart c = false) (hnumber : Lexer.startsNumber (c :: rest) = false)
    (h : Lexer.symbol c rest.head? = .ok (t, n)) :
    ∃ word, n = word.length ∧ LongestWord (c :: rest) word (some t) := by
  have hlongest (other : List Char) (token : Option Token) (hother : Word other token)
      (hstarts : other <+: c :: rest) : other.length ≤ n := by
    obtain ⟨t', -, hsymbol⟩ := hother.symbol_of_start hstarts hstart hnumber
    rcases symbolWord?_shape hsymbol with ⟨d, rfl, -⟩ | ⟨d, e, rfl, hscan⟩
    · rcases symbol_eq_ok h with ⟨rfl, -⟩ | ⟨rfl, -⟩ <;> simp
    · obtain ⟨rfl, hrest⟩ := List.cons_prefix_cons.mp hstarts
      obtain ⟨after, rfl⟩ := hrest
      rw [List.singleton_append, List.head?_cons, hscan] at h
      cases h
      exact Nat.le_refl 2
  rcases symbol_eq_ok h with ⟨rfl, hword⟩ | ⟨rfl, d, hnext, hword⟩
  · exact ⟨[c], rfl, .symbol hword, by simp, hlongest⟩
  · obtain ⟨after, rfl⟩ := List.head?_eq_some_iff.mp hnext
    exact ⟨[c, d], rfl, .symbol hword, by simp, hlongest⟩

theorem scan_eq_ok {c : Char} {rest : List Char} {t : Token} {n : Nat}
    (h : Lexer.scan c rest = .ok (t, n)) :
    ∃ word, n = word.length ∧ LongestWord (c :: rest) word (some t) := by
  rw [Lexer.scan] at h
  split at h
  · rename_i hnumber
    have hlongest := longest_number hnumber
    cases hvalue : Decimal.readUnsigned? (Lexer.numberText (c :: rest)) with
    | none => simp [hvalue] at h
    | some d =>
        simp only [hvalue, Except.ok.injEq, Prod.mk.injEq] at h
        obtain ⟨rfl, rfl⟩ := h
        rw [numeral?, hvalue] at hlongest
        exact ⟨_, rfl, hlongest⟩
  · rename_i hnumber
    split at h
    · rename_i hstart
      cases h
      exact ⟨_, rfl, longest_identifier hstart rest⟩
    · rename_i hstart
      exact longest_symbol (by simpa using hstart) (by simpa using hnumber) h

theorem LongestWord.scan {c : Char} {rest word : List Char} {t : Token}
    (h : LongestWord (c :: rest) word (some t)) : Lexer.scan c rest = .ok (t, word.length) := by
  cases hscan : Lexer.scan c rest with
  | ok result =>
      obtain ⟨t', n⟩ := result
      obtain ⟨word', rfl, h'⟩ := scan_eq_ok hscan
      obtain ⟨rfl, ht⟩ := h.unique h'
      rw [Option.some.inj ht]
  | error e =>
      exfalso
      rw [Lexer.scan] at hscan
      split at hscan
      · rename_i hnumber
        obtain ⟨rfl, ht⟩ := h.unique (longest_number hnumber)
        obtain ⟨d, hd, -⟩ := Option.map_eq_some_iff.mp ht.symm
        simp [hd] at hscan
      · rename_i hnumber
        split at hscan
        · cases hscan
        · rename_i hstart
          obtain ⟨t', -, hsymbol⟩ := h.spells.symbol_of_start h.starts (by simpa using hstart)
            (by simpa using hnumber)
          rcases symbolWord?_shape hsymbol with ⟨d, rfl, hfound⟩ | ⟨d, e', rfl, hfound⟩
          · obtain ⟨rfl, -⟩ := List.cons_prefix_cons.mp h.starts
            obtain ⟨found, hok⟩ := hfound rest.head?
            rw [hok] at hscan
            cases hscan
          · obtain ⟨rfl, after, rfl⟩ := List.cons_prefix_cons.mp h.starts
            rw [List.singleton_append, List.head?_cons, hfound] at hscan
            cases hscan

/-! ### Texts -/

theorem LongestWord.exists_cons {text word : List Char} {token : Option Token}
    (h : LongestWord text word token) :
    ∃ c rest, word = c :: rest ∧ isBlank c = false := by
  have hstart (c : Char) (hc : isIdentifierStart c = true ∨ isDigitOrPoint c = true) :
      isBlank c = false := by
    rw [Bool.eq_false_iff]
    intro hblank
    simp only [isBlank, Bool.or_eq_true, beq_iff_eq] at hblank
    rcases hblank with (((rfl | rfl) | rfl) | rfl) | rfl <;> revert hc <;> decide
  cases h.spells with
  | @identifier c rest hc _ => exact ⟨c, rest, rfl, hstart c (.inl hc)⟩
  | number hword =>
      have hnumber := hword.shape.1.starts []
      rw [List.append_nil] at hnumber
      cases word with
      | nil => cases hnumber
      | cons c rest =>
          exact ⟨c, rest, rfl, hstart c (.inr (isDigitOrPoint_of_startsNumber hnumber))⟩
  | symbol hsymbol =>
      obtain ⟨c, rest, hword, -, -, hblank⟩ := symbolWord?_start hsymbol
      exact ⟨c, rest, hword, hblank⟩

theorem lexFrom_skip (word rest : List Char) (offset : Nat) :
    Lexer.lexFrom word.length offset (word ++ rest) =
      Lexer.lexFrom 0 (offset + word.length) rest := by
  induction word generalizing offset with
  | nil => rfl
  | cons c word ih =>
      rw [List.length_cons, List.cons_append, Lexer.lexFrom, ih, Nat.add_assoc, Nat.add_comm 1]

theorem lexFrom_word {word rest : List Char} {t : Token}
    (h : LongestWord (word ++ rest) word (some t)) (offset : Nat) :
    Lexer.lexFrom 0 offset (word ++ rest) = do
      let following ← Lexer.lexFrom 0 (offset + word.length) rest
      return ⟨t, offset, offset + word.length⟩ :: following := by
  obtain ⟨c, others, rfl, hblank⟩ := h.exists_cons
  have hscan : Lexer.scan c (others ++ rest) = .ok (t, others.length + 1) := h.scan
  have hskip := lexFrom_skip others rest (offset + 1)
  rw [Nat.add_assoc, Nat.add_comm 1] at hskip
  rw [List.cons_append, Lexer.lexFrom, hblank, if_neg Bool.false_ne_true, hscan, ok_bind]
  simp only [Nat.add_sub_cancel, hskip, List.length_cons]

theorem lexFrom_sound {offset : Nat} {cs : List Char} {lexemes : List Lexeme}
    (h : Lexer.lexFrom 0 offset cs = .ok lexemes) : Lexed cs (lexemes.map Lexeme.token) := by
  induction hlength : cs.length using Nat.strongRecOn generalizing cs offset lexemes with
  | _ length ih =>
      cases cs with
      | nil =>
          cases h
          exact .nil
      | cons c rest =>
          have hlex := h
          rw [Lexer.lexFrom] at h
          split at h
          · rename_i hblank
            exact .blank hblank (ih _ (by simp [← hlength]) h rfl)
          · obtain ⟨⟨t, n⟩, hscan, -⟩ := bind_eq_ok.mp h
            obtain ⟨word, rfl, hlongest⟩ := scan_eq_ok hscan
            obtain ⟨after, hafter⟩ := hlongest.starts
            rw [← hafter] at hlex hlongest hlength ⊢
            rw [lexFrom_word hlongest] at hlex
            obtain ⟨following, hfollowing, hlexemes⟩ := bind_eq_ok.mp hlex
            cases hlexemes
            obtain ⟨d, others, rfl, -⟩ := hlongest.exists_cons
            have hshorter : after.length < length := by
              rw [← hlength, List.cons_append, List.length_cons, List.length_append]
              omega
            exact .word hlongest (ih _ hshorter hfollowing rfl)

theorem Lexed.lexFrom {cs : List Char} {tokens : List Token} (h : Lexed cs tokens) (offset : Nat) :
    ∃ lexemes, Lexer.lexFrom 0 offset cs = .ok lexemes ∧ lexemes.map Lexeme.token = tokens := by
  induction h generalizing offset with
  | nil => exact ⟨[], rfl, rfl⟩
  | blank hblank _ ih =>
      obtain ⟨lexemes, hlex, htokens⟩ := ih (offset + 1)
      exact ⟨lexemes, by rw [Lexer.lexFrom, if_pos hblank, hlex], htokens⟩
  | @word word rest t tokens hlongest _ ih =>
      obtain ⟨lexemes, hlex, htokens⟩ := ih (offset + word.length)
      refine ⟨⟨t, offset, offset + word.length⟩ :: lexemes, ?_, ?_⟩
      · rw [lexFrom_word hlongest, hlex]
        rfl
      · rw [List.map_cons, htokens]

/-- A text is cut as the lexer cuts it. -/
theorem lexed_iff {text : List Char} {tokens : List Token} :
    Lexed text tokens ↔ ∃ lexemes, lex text = .ok lexemes ∧ lexemes.map Lexeme.token = tokens := by
  constructor
  · exact fun h => h.lexFrom 0
  · rintro ⟨lexemes, hlex, rfl⟩
    exact lexFrom_sound hlex

end SelectionPlan
