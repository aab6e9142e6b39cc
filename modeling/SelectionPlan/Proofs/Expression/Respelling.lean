import SelectionPlan.Expression
import SelectionPlan.Naming.Namer
import SelectionPlan.Proofs.Expression.Lexing
import SelectionPlan.Proofs.Expression.Occurrences
import Mathlib.Data.List.Chain

/-!
# Texts with other column names

A text is cut into the same words when its columns are spelled with other identifiers.  A word can
only grow into what follows it, so it stays the longest if that starts as before.  Where an
identifier takes the place of another one this holds too, because no number and no identifier stands
directly in front of a column.
-/

namespace SelectionPlan

/-! ### Words that stay the longest -/

def Ends (rest : List Char) : Prop := ∀ c ∈ rest.head?, isIdentifierRest c = false ∧ c ≠ '.'

theorem isIdentifierRest_of_start {c : Char} (h : isIdentifierStart c = true) :
    isIdentifierRest c = true := by
  simp only [isIdentifierStart, isIdentifierRest, Char.isAlphanum, Bool.or_eq_true] at h ⊢
  tauto

theorem isIdentifierRest_of_digit {c : Char} (h : c.isDigit = true) :
    isIdentifierRest c = true := by
  simp [isIdentifierRest, Char.isAlphanum, h]

theorem takeWhile_append_of_stop {p : Char → Bool} {run rest : List Char}
    (hrun : ∀ c ∈ run, p c = true) (hstop : ∀ c ∈ rest.head?, p c = false) :
    (run ++ rest).takeWhile p = run := by
  rw [List.takeWhile_append_of_pos hrun]
  cases rest with
  | nil => simp
  | cons c rest => simp [hstop c rfl]

theorem NumberShape.numberText_append {word rest : List Char} (h : NumberShape word)
    (hend : Ends rest) : Lexer.numberText (word ++ rest) = word := by
  obtain ⟨run, exponent, e, -, hrun, hexponent, rfl⟩ := h
  have hstop : ∀ c ∈ (exponent ++ rest).head?, isDigitOrPoint c = false := by
    intro c hc
    cases hexponent with
    | empty =>
        obtain ⟨hidentifier, hpoint⟩ := hend c hc
        have hdigit : c.isDigit = false := by
          rw [Bool.eq_false_iff]
          intro hdigit
          rw [isIdentifierRest_of_digit hdigit] at hidentifier
          cases hidentifier
        simp [isDigitOrPoint, hdigit, hpoint]
    | marked hmark =>
        cases hc
        rcases hmark with rfl | rfl <;> rfl
  have htake : (run ++ (exponent ++ rest)).takeWhile isDigitOrPoint = run :=
    takeWhile_append_of_stop hrun hstop
  have hmarked : Lexer.exponentText (exponent ++ rest) = exponent := by
    cases hexponent with
    | empty =>
        cases rest with
        | nil => rfl
        | cons c rest =>
            have hidentifier := (hend c rfl).1
            have hmark : ¬ (c = 'e' ∨ c = 'E') := by
              rintro (rfl | rfl) <;> cases hidentifier
            simp [Lexer.exponentText, hmark]
    | @marked mark sign digits hmark hsign hne hdigits =>
        have hafter : ∀ c ∈ rest.head?, c.isDigit = false := by
          intro c hc
          rw [Bool.eq_false_iff]
          intro hdigit
          have hidentifier := (hend c hc).1
          rw [isIdentifierRest_of_digit hdigit] at hidentifier
          cases hidentifier
        rw [List.cons_append, List.append_assoc, exponentText_eq hmark hsign hne hdigits,
          takeWhile_append_of_stop hdigits hafter]
  rw [List.append_assoc]
  change List.takeWhile isDigitOrPoint _ ++
    Lexer.exponentText (List.drop (List.takeWhile isDigitOrPoint _).length _) = _
  rw [htake, List.drop_left, hmarked]

theorem longest_identifier_append {c : Char} {others rest : List Char}
    (hc : isIdentifierStart c = true) (hothers : ∀ d ∈ others, isIdentifierRest d = true)
    (hend : Ends rest) : LongestWord (c :: others ++ rest) (c :: others)
      (some (.identifier (String.ofList (c :: others)))) := by
  have hlongest := longest_identifier hc (others ++ rest)
  rwa [takeWhile_append_of_stop hothers fun d hd => (hend d hd).1] at hlongest

/-- The first character of a text is that of another one, or an identifier starts in both. -/
def SameStart (cs cs' : List Char) : Prop :=
  cs'.head? = cs.head? ∨ ∃ c c', cs.head? = some c ∧ cs'.head? = some c' ∧
    isIdentifierStart c = true ∧ isIdentifierStart c' = true

theorem SameStart.ends {cs cs' : List Char} (h : SameStart cs cs') (hend : Ends cs) : Ends cs' := by
  rcases h with hsame | ⟨c, c', hc, _, hstart, _⟩
  · intro c hc
    rw [hsame] at hc
    exact hend c hc
  · have hidentifier := (hend c hc).1
    rw [isIdentifierRest_of_start hstart] at hidentifier
    cases hidentifier

theorem symbol_identifier (c : Char) {next : Char} (h : isIdentifierStart next = true) :
    Lexer.symbol c (some next) = Lexer.symbol c none := by
  have hne : next ≠ '=' ∧ next ≠ '&' ∧ next ≠ '|' := by
    refine ⟨?_, ?_, ?_⟩ <;>
    · intro heq
      subst heq
      cases h
  unfold Lexer.symbol
  split <;> simp_all

def Token.isOperand : Token → Bool
  | .number _ | .identifier _ => true
  | _ => false

theorem LongestWord.respelled {word rest rest' : List Char} {t : Token}
    (h : LongestWord (word ++ rest) word (some t)) (hstart : SameStart rest rest')
    (hend : t.isOperand = true → Ends rest) : LongestWord (word ++ rest') word (some t) := by
  cases hspells : h.spells with
  | number hword =>
      obtain ⟨hshape, htoken⟩ := hword.shape
      have hoperand : t.isOperand = true := by
        obtain ⟨d, _, rfl⟩ := Option.map_eq_some_iff.mp htoken.symm
        rfl
      have hlongest := longest_number (hshape.starts rest')
      rwa [hshape.numberText_append (hstart.ends (hend hoperand)), ← htoken] at hlongest
  | @identifier c others hc hothers =>
      exact longest_identifier_append hc hothers (hstart.ends (hend rfl))
  | symbol hsymbol =>
      obtain ⟨c, others, rfl, hidentifier, hdigit, _⟩ := symbolWord?_start hsymbol
      have hnumber (after : List Char) : Lexer.startsNumber (c :: after) = false := by
        rw [Bool.eq_false_iff]
        intro hnumber
        rw [isDigitOrPoint_of_startsNumber hnumber] at hdigit
        cases hdigit
      have hscan : Lexer.symbol c (others ++ rest).head? = .ok (t, others.length + 1) := by
        have hscan := h.scan
        rwa [Lexer.scan, hnumber, hidentifier] at hscan
      have hscan' : Lexer.symbol c (others ++ rest').head? = .ok (t, others.length + 1) := by
        cases others with
        | cons d others => exact hscan
        | nil =>
            rw [List.nil_append] at hscan ⊢
            rcases hstart with hsame | ⟨d, d', hd, hd', hstart, hstart'⟩
            · rw [hsame, hscan]
            · rw [hd, symbol_identifier c hstart] at hscan
              rw [hd', symbol_identifier c hstart', hscan]
      obtain ⟨word', hlength, hlongest⟩ := longest_symbol hidentifier (hnumber _) hscan'
      have hword : word' = c :: others := by
        have hprefix := List.prefix_of_prefix_length_le hlongest.starts
          (List.prefix_append (c :: others) rest') (by simp [← hlength])
        exact hprefix.eq_of_length (by simp [← hlength])
      rwa [hword] at hlongest

/-! ### Lexemes in their places -/

/-- A text that is cut into blanks and longest words, with the lexemes where they stand when the
text starts at a position. -/
inductive Placed : Nat → List Char → List Lexeme → Prop
  | nil {offset : Nat} : Placed offset [] []
  | blank {offset : Nat} {c : Char} {rest : List Char} {lexemes : List Lexeme} : isBlank c = true →
      Placed (offset + 1) rest lexemes → Placed offset (c :: rest) lexemes
  | word {offset : Nat} {word rest : List Char} {t : Token} {lexemes : List Lexeme} :
      LongestWord (word ++ rest) word (some t) → Placed (offset + word.length) rest lexemes →
      Placed offset (word ++ rest) (⟨t, offset, offset + word.length⟩ :: lexemes)

theorem Lexed.placed {cs : List Char} {tokens : List Token} (h : Lexed cs tokens) {offset : Nat}
    {lexemes : List Lexeme} (hlex : Lexer.lexFrom 0 offset cs = .ok lexemes) :
    Placed offset cs lexemes := by
  induction h generalizing offset lexemes with
  | nil =>
      cases hlex
      exact .nil
  | blank hblank _ ih =>
      rw [Lexer.lexFrom, if_pos hblank] at hlex
      exact .blank hblank (ih hlex)
  | word hlongest _ ih =>
      rw [lexFrom_word hlongest] at hlex
      obtain ⟨following, hfollowing, hlexemes⟩ := bind_eq_ok.mp hlex
      cases hlexemes
      exact .word hlongest (ih hfollowing)

theorem placed_of_lex {cs : List Char} {lexemes : List Lexeme} (h : lex cs = .ok lexemes) :
    Placed 0 cs lexemes := (lexFrom_sound h).placed h

theorem Placed.start_le {offset : Nat} {cs : List Char} {lexemes : List Lexeme}
    (h : Placed offset cs lexemes) : ∀ l ∈ lexemes, offset ≤ l.start ∧ l.start ≤ l.stop := by
  induction h with
  | nil => simp
  | blank _ _ ih =>
      intro l hl
      have hle := ih l hl
      omega
  | word _ _ ih =>
      intro l hl
      rcases List.mem_cons.mp hl with rfl | hl
      · simp
      · have hle := ih l hl
        omega

theorem mem_occurrences {lexemes : List Lexeme} {o : Occurrence} (h : o ∈ occurrences lexemes) :
    ∃ l ∈ lexemes, l.token = .identifier o.name ∧ l.start = o.start ∧ l.stop = o.stop := by
  induction lexemes with
  | nil => cases h
  | cons l rest ih =>
      rw [occurrences, List.mem_append, Option.mem_toList] at h
      rcases h with h | h
      · obtain ⟨name, hname, rfl⟩ := Option.map_eq_some_iff.mp h
        exact ⟨l, List.mem_cons_self, Token.column?_eq_some hname, rfl, rfl⟩
      · obtain ⟨l', hl', hplace⟩ := ih h
        exact ⟨l', List.mem_cons_of_mem l hl', hplace⟩

/-! ### Respelled texts -/

/-- A text that is cut into tokens, and the text with the columns spelled as `f` says. -/
inductive Respelled (f : String → String) : List Char → List Token → List Char → Prop
  | nil : Respelled f [] [] []
  | blank {c : Char} {rest rest' : List Char} {tokens : List Token} : isBlank c = true →
      Respelled f rest tokens rest' → Respelled f (c :: rest) tokens (c :: rest')
  | word {word rest rest' : List Char} {t : Token} {tokens : List Token} :
      LongestWord (word ++ rest) word (some t) → Respelled f rest tokens rest' →
      Respelled f (word ++ rest) (t :: tokens)
        ((t.column? tokens.head?).elim word (fun name => (f name).toList) ++ rest')

theorem Expression.renameFrom_append {name : Nat → String} {cursor : Nat}
    {references : List ColumnReference} (before text : List Char)
    (h : ∀ r ∈ references, cursor + before.length ≤ r.start ∧ r.start ≤ r.stop) :
    renameFrom name cursor references (before ++ text) =
      before ++ renameFrom name (cursor + before.length) references text := by
  cases references with
  | nil => rfl
  | cons r references =>
      obtain ⟨hstart, hstop⟩ := h r List.mem_cons_self
      have htake : (before ++ text).take (r.start - cursor) =
          before ++ text.take (r.start - (cursor + before.length)) := by
        rw [List.take_append, List.take_of_length_le (by omega), Nat.sub_sub]
      have hdrop : (before ++ text).drop (r.stop - cursor) =
          text.drop (r.stop - (cursor + before.length)) := by
        rw [List.drop_append, List.drop_of_length_le (by omega), Nat.sub_sub, List.nil_append]
      simp only [renameFrom, htake, hdrop, List.append_assoc]

theorem Placed.respelled {f : String → String} (name : Nat → String) (slot : String → Nat)
    {offset : Nat} {cs : List Char} {lexemes : List Lexeme} (h : Placed offset cs lexemes)
    (hname : ∀ o ∈ occurrences lexemes, name (slot o.name) = f o.name) :
    Respelled f cs (lexemes.map Lexeme.token) (Expression.renameFrom name offset
      ((occurrences lexemes).map fun o => ⟨o.start, o.stop, slot o.name⟩) cs) := by
  have hbounds {offset : Nat} {cs : List Char} {lexemes : List Lexeme}
      (h : Placed offset cs lexemes) : ∀ r ∈ (occurrences lexemes).map fun o =>
        (⟨o.start, o.stop, slot o.name⟩ : ColumnReference),
      offset ≤ r.start ∧ r.start ≤ r.stop := by
    intro r hr
    obtain ⟨o, ho, rfl⟩ := List.mem_map.mp hr
    obtain ⟨l, hl, _, hstart, hstop⟩ := mem_occurrences ho
    simpa [hstart, hstop] using h.start_le l hl
  induction h with
  | nil => exact .nil
  | @blank offset c rest lexemes hblank hrest ih =>
      have happend : Expression.renameFrom name offset _ (c :: rest) =
          c :: Expression.renameFrom name (offset + 1) _ rest :=
        Expression.renameFrom_append [c] rest (hbounds hrest)
      rw [happend]
      exact .blank hblank (ih hname)
  | @word offset word rest t lexemes hlongest hrest ih =>
      rw [occurrences, ← List.head?_map] at hname ⊢
      have hrespelled := ih fun o ho => hname o (List.mem_append_right _ ho)
      have hword := Respelled.word hlongest hrespelled
      cases hcolumn : t.column? (lexemes.map Lexeme.token).head? with
      | none =>
          simp only [hcolumn, Option.elim_none] at hword
          simp only [Option.map_none, Option.toList_none, List.nil_append, List.map_cons]
          rwa [Expression.renameFrom_append word rest (hbounds hrest)]
      | some n =>
          simp only [hcolumn, Option.elim_some] at hword
          have hn : name (slot n) = f n := by
            refine hname ⟨n, offset, offset + word.length⟩ (List.mem_append_left _ ?_)
            rw [hcolumn]
            simp
          simpa [Expression.renameFrom, hn] using hword

/-! ### Tokens of respelled texts -/

theorem columnNames_cons (t : Token) (rest : List Token) :
    columnNames (t :: rest) = (t.column? rest.head?).toList ++ columnNames rest := by
  cases t with
  | identifier name =>
      by_cases hopens : Opens rest
      · cases rest with
        | nil => exact hopens.elim
        | cons next rest =>
            cases next with
            | openParen => rfl
            | _ => exact hopens.elim
      · have hnext : rest.head? ≠ some .openParen := fun hopen => hopens (opens_of_head hopen)
        rw [columnNames_identifier hopens, identifierTerm, Token.column?_identifier name hnext]
        by_cases htrue : name = "true"
        · simp [htrue, Term.leaves]
        · by_cases hfalse : name = "false" <;> simp [htrue, hfalse, Term.leaves]
  | _ => rfl

def renameColumns (f : String → String) : List Token → List Token
  | [] => []
  | t :: rest =>
    (t.column? rest.head?).elim t (fun name => .identifier (f name)) :: renameColumns f rest

def IsColumnName (name : String) : Prop :=
  isIdentifier name.toList = true ∧ name ≠ "true" ∧ name ≠ "false"

theorem IsColumnName.exists_cons {name : String} (h : IsColumnName name) : ∃ c others,
    name.toList = c :: others ∧ isIdentifierStart c = true ∧
      ∀ d ∈ others, isIdentifierRest d = true := by
  have hidentifier := h.1
  cases hname : name.toList with
  | nil => simp [hname, isIdentifier] at hidentifier
  | cons c others =>
      simp only [hname, isIdentifier, Bool.and_eq_true, List.all_eq_true] at hidentifier
      exact ⟨c, others, rfl, hidentifier.1, hidentifier.2⟩

/-- Tokens of which no two neighbours are numbers or identifiers. -/
def Apart (tokens : List Token) : Prop :=
  tokens.IsChain fun t t' => ¬ (t.isOperand = true ∧ t'.isOperand = true)

theorem Word.eq_toList {word : List Char} {name : String}
    (h : Word word (some (.identifier name))) : word = name.toList ∧
      ∃ c others, word = c :: others ∧ isIdentifierStart c = true := by
  generalize htoken : some (Token.identifier name) = token at h
  cases h with
  | number hword =>
      rw [hword.shape.2, numeral?, eq_comm, Option.map_eq_some_iff] at htoken
      obtain ⟨d, _, hd⟩ := htoken
      cases hd
  | @identifier c others hc hothers =>
      cases htoken
      exact ⟨by simp, c, others, rfl, hc⟩
  | symbol hsymbol =>
      unfold symbolWord? at hsymbol
      split at hsymbol <;> cases hsymbol <;> cases htoken

namespace Respelled

variable {f : String → String} {cs cs' : List Char} {tokens : List Token}

theorem eq_self (h : Respelled f cs tokens cs') (hf : ∀ name ∈ columnNames tokens, f name = name) :
    cs' = cs := by
  induction h with
  | nil => rfl
  | blank _ _ ih => rw [ih hf]
  | @word word rest rest' t tokens hlongest hrest ih =>
      rw [columnNames_cons] at hf
      rw [ih fun name hname => hf name (List.mem_append_right _ hname)]
      cases hcolumn : t.column? tokens.head? with
      | none => rfl
      | some name =>
          have hspells := hlongest.spells
          rw [Token.column?_eq_some hcolumn] at hspells
          rw [Option.elim_some, hf name (by simp [hcolumn]), hspells.eq_toList.1]

theorem sameStart (h : Respelled f cs tokens cs')
    (hf : ∀ name ∈ columnNames tokens, IsColumnName (f name)) : SameStart cs cs' := by
  cases h with
  | nil => exact .inl rfl
  | blank _ _ => exact .inl rfl
  | @word word rest rest' t tokens hlongest hrest =>
      obtain ⟨c, others, rfl, _⟩ := hlongest.exists_cons
      cases hcolumn : t.column? tokens.head? with
      | none => exact .inl rfl
      | some name =>
          have hspells := hlongest.spells
          rw [Token.column?_eq_some hcolumn] at hspells
          obtain ⟨d, others', hd, hstart⟩ := hspells.eq_toList.2
          cases hd
          obtain ⟨c', others', hname, hstart', _⟩ :=
            (hf name (by simp [columnNames_cons, hcolumn])).exists_cons
          exact .inr ⟨c, c', rfl, by simp [hname], hstart, hstart'⟩

theorem ends (h : Respelled f cs tokens cs')
    (hnext : ∀ t ∈ tokens.head?, t.isOperand = false) : Ends cs := by
  cases h with
  | nil => simp [Ends]
  | @blank c rest rest' tokens hblank hrest =>
      intro d hd
      cases hd
      simp only [isBlank, Bool.or_eq_true, beq_iff_eq] at hblank
      rcases hblank with (((rfl | rfl) | rfl) | rfl) | rfl <;> decide
  | @word word rest rest' t tokens hlongest hrest =>
      have hoperand := hnext t rfl
      cases hlongest.spells with
      | number hword =>
          obtain ⟨d, _, rfl⟩ := Option.map_eq_some_iff.mp hword.shape.2.symm
          cases hoperand
      | identifier => cases hoperand
      | symbol hsymbol =>
          obtain ⟨c, others, rfl, hstart, hdigit, _⟩ := symbolWord?_start hsymbol
          intro d hd
          cases hd
          simp only [isIdentifierStart, isDigitOrPoint, Bool.or_eq_false_iff, beq_eq_false_iff_ne]
            at hstart hdigit
          simp [isIdentifierRest, Char.isAlphanum, hstart, hdigit]

/-- A respelled text is cut into the renamed tokens. -/
theorem lexed (h : Respelled f cs tokens cs') (hapart : Apart tokens)
    (hf : ∀ name ∈ columnNames tokens, IsColumnName (f name)) :
    Lexed cs' (renameColumns f tokens) := by
  induction h with
  | nil => exact .nil
  | blank hblank _ ih => exact .blank hblank (ih hapart hf)
  | @word word rest rest' t tokens hlongest hrest ih =>
      obtain ⟨hnext, hapart⟩ := List.isChain_cons.mp hapart
      rw [columnNames_cons] at hf
      have hfrest : ∀ name ∈ columnNames tokens, IsColumnName (f name) :=
        fun name hname => hf name (List.mem_append_right _ hname)
      have hstart := hrest.sameStart hfrest
      have hend (hoperand : t.isOperand = true) : Ends rest := by
        refine hrest.ends fun t' ht' => ?_
        rw [Bool.eq_false_iff]
        exact fun hoperand' => hnext t' ht' ⟨hoperand, hoperand'⟩
      have hlexed := ih hapart hfrest
      rw [renameColumns]
      cases hcolumn : t.column? tokens.head? with
      | none => exact .word (hlongest.respelled hstart hend) hlexed
      | some name =>
          have hoperand : t.isOperand = true := by
            rw [Token.column?_eq_some hcolumn]
            rfl
          obtain ⟨c, others, hname, hc, hothers⟩ :=
            (hf name (by simp [hcolumn])).exists_cons
          have hword := longest_identifier_append hc hothers (hstart.ends (hend hoperand))
          rw [← hname, String.ofList_toList] at hword
          exact .word hword hlexed

end Respelled

end SelectionPlan
