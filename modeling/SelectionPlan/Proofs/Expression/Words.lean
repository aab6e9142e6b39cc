import SelectionPlan.Expression.Lexer
import Mathlib.Data.List.TakeWhile

/-!
# Words

Numbers, identifiers and symbols are spelled by words.  A word that looks like a number but has two
points spells nothing.  Which kind a word is of shows in its first characters, so it spells one
token only.
-/

namespace SelectionPlan

/-! ### Words -/

def symbolWord? : List Char → Option Token
  | ['('] => some .openParen
  | [')'] => some .closeParen
  | [','] => some .comma
  | ['!'] => some .bang
  | ['+'] => some (.binary .add)
  | ['-'] => some (.binary .sub)
  | ['*'] => some (.binary .mul)
  | ['/'] => some (.binary .div)
  | ['<'] => some (.binary .lt)
  | ['<', '='] => some (.binary .le)
  | ['>'] => some (.binary .gt)
  | ['>', '='] => some (.binary .ge)
  | ['=', '='] => some (.binary .eq)
  | ['!', '='] => some (.binary .ne)
  | ['&', '&'] => some (.binary .and)
  | ['|', '|'] => some (.binary .or)
  | _ => none

def isDigitOrPoint (c : Char) : Bool := c.isDigit || c == '.'

/-- An exponent and its value: nothing, or a mark, at most one sign and some digits. -/
inductive Exponent : List Char → Int → Prop
  | empty : Exponent [] 0
  | marked {mark : Char} {sign digits : List Char} : mark = 'e' ∨ mark = 'E' →
      sign = [] ∨ sign = ['+'] ∨ sign = ['-'] → digits ≠ [] → (∀ c ∈ digits, c.isDigit = true) →
      Exponent (mark :: (sign ++ digits))
        (if sign = ['-'] then -(Decimal.digitsValue digits : Int) else Decimal.digitsValue digits)

/-- The words of numbers.  One with a second point spells nothing. -/
inductive NumberWord : List Char → Option Token → Prop
  | whole {digits exponent : List Char} {e : Int} : digits ≠ [] →
      (∀ c ∈ digits, c.isDigit = true) → Exponent exponent e →
      NumberWord (digits ++ exponent)
        (some (.number (Decimal.toFloat false ⟨Decimal.digitsValue digits, e⟩)))
  | pointed {whole fraction exponent : List Char} {e : Int} : whole ++ fraction ≠ [] →
      (∀ c ∈ whole, c.isDigit = true) → (∀ c ∈ fraction, c.isDigit = true) →
      Exponent exponent e →
      NumberWord (whole ++ '.' :: (fraction ++ exponent))
        (some (.number (Decimal.toFloat false
          ⟨Decimal.digitsValue (whole ++ fraction), e - fraction.length⟩)))
  | overpointed {whole fraction others exponent : List Char} {e : Int} : whole ++ fraction ≠ [] →
      (∀ c ∈ whole, c.isDigit = true) → (∀ c ∈ fraction, c.isDigit = true) →
      (∀ c ∈ others, isDigitOrPoint c = true) → Exponent exponent e →
      NumberWord (whole ++ '.' :: (fraction ++ '.' :: (others ++ exponent))) none

inductive Word : List Char → Option Token → Prop
  | number {word : List Char} {token : Option Token} : NumberWord word token → Word word token
  | identifier {c : Char} {rest : List Char} : isIdentifierStart c = true →
      (∀ d ∈ rest, isIdentifierRest d = true) →
      Word (c :: rest) (some (.identifier (String.ofList (c :: rest))))
  | symbol {t : Token} {word : List Char} : symbolWord? word = some t → Word word (some t)

structure LongestWord (text word : List Char) (token : Option Token) : Prop where
  spells : Word word token
  starts : word <+: text
  longest : ∀ other token', Word other token' → other <+: text → other.length ≤ word.length

/-! ### Numbers -/

theorem length_le_takeWhile {p : Char → Bool} {run cs : List Char} (hrun : ∀ c ∈ run, p c = true)
    (h : run <+: cs) : run.length ≤ (cs.takeWhile p).length := by
  obtain ⟨after, rfl⟩ := h
  rw [List.takeWhile_append_of_pos hrun, List.length_append]
  exact Nat.le_add_right _ _

theorem take_sign {sign digits : List Char} (hsign : sign = [] ∨ sign = ['+'] ∨ sign = ['-'])
    (hne : digits ≠ []) (hdigits : ∀ c ∈ digits, c.isDigit = true) (after : List Char) :
    ((sign ++ (digits ++ after)).takeWhile fun d => d == '+' || d == '-').take 1 = sign := by
  obtain ⟨d, ds, rfl⟩ := List.exists_cons_of_ne_nil hne
  have hdigit := hdigits d List.mem_cons_self
  have hplus : d ≠ '+' := by
    rintro rfl
    cases hdigit
  have hminus : d ≠ '-' := by
    rintro rfl
    cases hdigit
  rcases hsign with rfl | rfl | rfl <;> simp [hplus, hminus]

theorem exponentText_eq {mark : Char} {sign digits : List Char} (hmark : mark = 'e' ∨ mark = 'E')
    (hsign : sign = [] ∨ sign = ['+'] ∨ sign = ['-']) (hne : digits ≠ [])
    (hdigits : ∀ c ∈ digits, c.isDigit = true) (after : List Char) :
    Lexer.exponentText (mark :: (sign ++ (digits ++ after))) =
      mark :: (sign ++ (digits ++ after).takeWhile Char.isDigit) := by
  have hsome : ((digits ++ after).takeWhile Char.isDigit).isEmpty = false := by
    rw [List.takeWhile_append_of_pos hdigits]
    simp [hne]
  simp only [Lexer.exponentText, hmark, if_true, take_sign hsign hne hdigits after,
    List.drop_left, hsome, Bool.false_eq_true, if_false]

theorem exponentText_longest {exponent cs : List Char} {e : Int} (h : Exponent exponent e)
    (hstarts : exponent <+: cs) : exponent.length ≤ (Lexer.exponentText cs).length := by
  cases h with
  | empty => exact Nat.zero_le _
  | @marked mark sign digits hmark hsign hne hdigits =>
      obtain ⟨after, rfl⟩ := hstarts
      rw [List.cons_append, List.append_assoc, exponentText_eq hmark hsign hne hdigits after]
      have hle := length_le_takeWhile hdigits (List.prefix_append digits after)
      simp only [List.length_cons, List.length_append]
      omega

theorem exponentText_starts (cs : List Char) :
    (∃ e, Exponent (Lexer.exponentText cs) e) ∧ Lexer.exponentText cs <+: cs := by
  cases cs with
  | nil => exact ⟨⟨0, .empty⟩, List.nil_prefix⟩
  | cons c rest =>
      rw [Lexer.exponentText]
      split
      · rename_i hmark
        let signs := rest.takeWhile fun d => d == '+' || d == '-'
        have hsign : signs.take 1 = [] ∨ signs.take 1 = ['+'] ∨ signs.take 1 = ['-'] := by
          cases hsigns : signs with
          | nil => exact .inl rfl
          | cons d ds =>
              have hd : d ∈ signs := hsigns ▸ List.mem_cons_self
              have hd := List.mem_takeWhile_imp hd
              simp only [Bool.or_eq_true, beq_iff_eq] at hd
              rcases hd with rfl | rfl
              · exact .inr (.inl rfl)
              · exact .inr (.inr rfl)
        obtain ⟨after, hafter⟩ : signs.take 1 <+: rest :=
          (List.take_prefix 1 signs).trans (List.takeWhile_prefix _)
        simp only
        split
        · exact ⟨⟨0, .empty⟩, List.nil_prefix⟩
        · rename_i hdigits
          refine ⟨⟨_, .marked hmark hsign (by simpa using hdigits) fun d hd => ?_⟩, ?_⟩
          · exact List.mem_takeWhile_imp hd
          · rw [List.cons_prefix_cons]
            refine ⟨rfl, ?_⟩
            have hdrop : rest.drop (signs.take 1).length = after := by
              rw [← hafter, List.drop_left]
            change signs.take 1 ++ (rest.drop (signs.take 1).length).takeWhile Char.isDigit <+: rest
            rw [hdrop, ← hafter, List.prefix_append_right_inj]
            exact List.takeWhile_prefix _
      · exact ⟨⟨0, .empty⟩, List.nil_prefix⟩

theorem startsNumber_append {run after : List Char} (h : Lexer.startsNumber run = true) :
    Lexer.startsNumber (run ++ after) = true := by
  cases run with
  | nil => cases h
  | cons c rest =>
      cases rest with
      | nil =>
          simp only [Lexer.startsNumber, List.head?_nil, Option.map_none, Option.getD_none,
            Bool.and_false, Bool.or_false] at h
          simp [Lexer.startsNumber, h]
      | cons d rest => exact h

theorem startsNumber_run {cs : List Char} (h : Lexer.startsNumber cs = true) :
    Lexer.startsNumber (cs.takeWhile isDigitOrPoint) = true := by
  cases cs with
  | nil => cases h
  | cons c rest =>
      simp only [Lexer.startsNumber, Bool.or_eq_true, Bool.and_eq_true, beq_iff_eq] at h
      rcases h with hdigit | ⟨rfl, hnext⟩
      · have hc : isDigitOrPoint c = true := by simp [isDigitOrPoint, hdigit]
        simp [hc, Lexer.startsNumber, hdigit]
      · cases rest with
        | nil => cases hnext
        | cons d rest =>
            have hd : d.isDigit = true := by simpa using hnext
            have hd' : isDigitOrPoint d = true := by simp [isDigitOrPoint, hd]
            have hpoint : isDigitOrPoint '.' = true := rfl
            simp [hpoint, hd', Lexer.startsNumber, hd]

/-! ### Literals -/

theorem span_digits {digits rest : List Char} (hdigits : ∀ c ∈ digits, c.isDigit = true)
    (hrest : ∀ c ∈ rest.head?, c.isDigit = false) :
    (digits ++ rest).takeWhile Char.isDigit = digits ∧
      (digits ++ rest).dropWhile Char.isDigit = rest := by
  rw [List.takeWhile_append_of_pos hdigits, List.dropWhile_append_of_pos hdigits]
  cases rest with
  | nil => simp
  | cons c rest =>
      have hc : c.isDigit = false := hrest c rfl
      simp [hc]

theorem exists_digits {run : List Char} (hrun : ∀ c ∈ run, isDigitOrPoint c = true) :
    ∃ digits after, run = digits ++ after ∧ (∀ c ∈ digits, c.isDigit = true) ∧
      (after = [] ∨ ∃ others, after = '.' :: others) := by
  refine ⟨run.takeWhile Char.isDigit, run.dropWhile Char.isDigit,
    (List.takeWhile_append_dropWhile).symm, fun c hc => List.mem_takeWhile_imp hc, ?_⟩
  cases hafter : run.dropWhile Char.isDigit with
  | nil => exact .inl rfl
  | cons c others =>
      have hmem : c ∈ run := (List.dropWhile_sublist _).subset (hafter ▸ List.mem_cons_self)
      have hc : c.isDigit = false := by
        have hhead := List.head_dropWhile_not Char.isDigit (l := run) (by simp [hafter])
        simpa [hafter] using hhead
      have hpoint : c = '.' := by simpa [isDigitOrPoint, hc] using hrun c hmem
      exact .inr ⟨others, by rw [hpoint]⟩

theorem Exponent.read {exponent : List Char} {e : Int} (h : Exponent exponent e) :
    Decimal.readExponent? exponent = some e := by
  cases h with
  | empty => rfl
  | @marked mark sign digits hmark hsign hne hdigits =>
      have hsplit : Decimal.splitSign (sign ++ digits) = (decide (sign = ['-']), digits) := by
        obtain ⟨d, ds, rfl⟩ := List.exists_cons_of_ne_nil hne
        have hdigit := hdigits d List.mem_cons_self
        rcases hsign with rfl | rfl | rfl
        · simp only [List.nil_append, Decimal.splitSign]
          split
          · rename_i heq
            cases heq
            cases hdigit
          · rename_i heq
            cases heq
            cases hdigit
          · rfl
        · rfl
        · rfl
      have hall : digits.all Char.isDigit = true := List.all_eq_true.mpr hdigits
      simp [Decimal.readExponent?, hmark, hsplit, hne, hall]

theorem Exponent.head {exponent : List Char} {e : Int} (h : Exponent exponent e) :
    ∀ c ∈ exponent.head?, c.isDigit = false ∧ c ≠ '.' := by
  cases h with
  | empty => simp
  | marked hmark =>
      intro c hc
      cases hc
      rcases hmark with rfl | rfl <;> decide

theorem readUnsigned?_whole {whole rest : List Char} (hwhole : ∀ c ∈ whole, c.isDigit = true)
    (hne : whole ≠ []) (hrest : ∀ c ∈ rest.head?, c.isDigit = false ∧ c ≠ '.') :
    Decimal.readUnsigned? (whole ++ rest) =
      (Decimal.readExponent? rest).map fun e => ⟨Decimal.digitsValue whole, e⟩ := by
  obtain ⟨htake, hdrop⟩ := span_digits hwhole fun c hc => (hrest c hc).1
  simp only [Decimal.readUnsigned?, htake, hdrop]
  cases rest with
  | nil => simp [hne]
  | cons c others =>
      have hpoint : c ≠ '.' := (hrest c rfl).2
      simp [hpoint, hne]

theorem readUnsigned?_pointed {whole fraction rest : List Char}
    (hwhole : ∀ c ∈ whole, c.isDigit = true) (hfraction : ∀ c ∈ fraction, c.isDigit = true)
    (hne : whole ++ fraction ≠ []) (hrest : ∀ c ∈ rest.head?, c.isDigit = false) :
    Decimal.readUnsigned? (whole ++ '.' :: (fraction ++ rest)) =
      (Decimal.readExponent? rest).map fun e =>
        ⟨Decimal.digitsValue (whole ++ fraction), e - fraction.length⟩ := by
  have hpoint : ∀ c ∈ ('.' :: (fraction ++ rest)).head?, c.isDigit = false := by
    intro c hc
    cases hc
    rfl
  obtain ⟨htake, hdrop⟩ := span_digits hwhole hpoint
  obtain ⟨htake', hdrop'⟩ := span_digits hfraction hrest
  have hempty : (whole ++ fraction).isEmpty = false := by simpa using hne
  simp only [Decimal.readUnsigned?, htake, hdrop, htake', hdrop', hempty, Bool.false_eq_true,
    if_false]

def numeral? (word : List Char) : Option Token :=
  (Decimal.readUnsigned? word).map fun d => .number (d.toFloat false)

/-- The shape of number words: digits and points as a number starts, then an exponent. -/
def NumberShape (word : List Char) : Prop :=
  ∃ run exponent e, Lexer.startsNumber run = true ∧ (∀ c ∈ run, isDigitOrPoint c = true) ∧
    Exponent exponent e ∧ word = run ++ exponent

namespace NumberShape

theorem starts {word : List Char} (h : NumberShape word) (after : List Char) :
    Lexer.startsNumber (word ++ after) = true := by
  obtain ⟨run, exponent, e, hstart, -, -, rfl⟩ := h
  rw [List.append_assoc]
  exact startsNumber_append hstart

/-- The number at the head of a text is at least as long as any number word there. -/
theorem length_le {word cs : List Char} (h : NumberShape word) (hstarts : word <+: cs) :
    word.length ≤ (Lexer.numberText cs).length := by
  obtain ⟨run, exponent, e, -, hrun, hexponent, rfl⟩ := h
  obtain ⟨after, rfl⟩ := hstarts
  cases hexponent with
  | empty =>
      have hle := length_le_takeWhile hrun (List.prefix_append run after)
      simp only [List.append_nil, Lexer.numberText, List.length_append]
      exact Nat.le_add_right_of_le hle
  | @marked mark sign digits hmark hsign hne hdigits =>
      have hexponent := Exponent.marked hmark hsign hne hdigits
      have hstop : isDigitOrPoint mark = false := by
        rcases hmark with rfl | rfl <;> rfl
      have hrun :
          (run ++ mark :: (sign ++ digits) ++ after).takeWhile isDigitOrPoint = run := by
        rw [List.append_assoc, List.takeWhile_append_of_pos hrun, List.cons_append,
          List.takeWhile_cons_of_neg (by simp [hstop]), List.append_nil]
      have hle := exponentText_longest hexponent (List.prefix_append _ after)
      change _ ≤ (List.takeWhile isDigitOrPoint _ ++
        Lexer.exponentText (List.drop (List.takeWhile isDigitOrPoint _).length _)).length
      rw [hrun, List.append_assoc run, List.drop_left, List.length_append, List.length_append]
      exact Nat.add_le_add_left hle _

end NumberShape

theorem startsNumber_of_digits {digits : List Char} (hne : digits ≠ [])
    (hdigits : ∀ c ∈ digits, c.isDigit = true) (after : List Char) :
    Lexer.startsNumber (digits ++ after) = true := by
  obtain ⟨c, rest, rfl⟩ := List.exists_cons_of_ne_nil hne
  simp [Lexer.startsNumber, hdigits c List.mem_cons_self]

theorem startsNumber_pointed {whole fraction : List Char} (hne : whole ++ fraction ≠ [])
    (hwhole : ∀ c ∈ whole, c.isDigit = true) (hfraction : ∀ c ∈ fraction, c.isDigit = true)
    (after : List Char) : Lexer.startsNumber (whole ++ '.' :: (fraction ++ after)) = true := by
  cases whole with
  | cons c rest => exact startsNumber_of_digits (List.cons_ne_nil c rest) hwhole _
  | nil =>
      obtain ⟨c, rest, rfl⟩ := List.exists_cons_of_ne_nil hne
      simp [Lexer.startsNumber, hfraction c List.mem_cons_self]

theorem NumberWord.shape {word : List Char} {token : Option Token} (h : NumberWord word token) :
    NumberShape word ∧ token = numeral? word := by
  have hdigit {digits : List Char} (h : ∀ c ∈ digits, c.isDigit = true) :
      ∀ c ∈ digits, isDigitOrPoint c = true := by
    intro c hc
    rw [isDigitOrPoint, h c hc, Bool.true_or]
  have hpoint : isDigitOrPoint '.' = true := rfl
  cases h with
  | @whole digits exponent e hne hdigits hexponent =>
      refine ⟨⟨digits, exponent, e, ?_, hdigit hdigits, hexponent, rfl⟩, ?_⟩
      · rw [← List.append_nil digits]
        exact startsNumber_of_digits hne hdigits []
      · rw [numeral?, readUnsigned?_whole hdigits hne hexponent.head, hexponent.read]
        rfl
  | @pointed whole fraction exponent e hne hwhole hfraction hexponent =>
      refine ⟨⟨whole ++ '.' :: fraction, exponent, e, ?_, ?_, hexponent, by simp⟩, ?_⟩
      · rw [← List.append_nil fraction]
        exact startsNumber_pointed hne hwhole hfraction []
      · rw [List.forall_mem_append, List.forall_mem_cons]
        exact ⟨hdigit hwhole, hpoint, hdigit hfraction⟩
      · rw [numeral?, readUnsigned?_pointed hwhole hfraction hne fun c hc =>
          (hexponent.head c hc).1, hexponent.read]
        rfl
  | @overpointed whole fraction others exponent e hne hwhole hfraction hothers hexponent =>
      refine ⟨⟨whole ++ '.' :: (fraction ++ '.' :: others), exponent, e,
        startsNumber_pointed hne hwhole hfraction _, ?_, hexponent, by simp⟩, ?_⟩
      · simp only [List.forall_mem_append, List.forall_mem_cons]
        exact ⟨hdigit hwhole, hpoint, hdigit hfraction, hpoint, hothers⟩
      · have hrest : ∀ c ∈ ('.' :: (others ++ exponent)).head?, c.isDigit = false := by
          intro c hc
          cases hc
          rfl
        rw [numeral?, readUnsigned?_pointed hwhole hfraction hne hrest]
        rfl

theorem NumberShape.word {word : List Char} (h : NumberShape word) :
    NumberWord word (numeral? word) := by
  obtain ⟨run, exponent, e, hstart, hrun, hexponent, rfl⟩ := h
  have hword : ∃ token, NumberWord (run ++ exponent) token := by
    obtain ⟨whole, after, rfl, hwhole, rfl | ⟨others, rfl⟩⟩ := exists_digits hrun
    · have hne : whole ≠ [] := by
        rintro rfl
        cases hstart
      rw [List.append_nil]
      exact ⟨_, .whole hne hwhole hexponent⟩
    · obtain ⟨fraction, beyond, rfl, hfraction, hbeyond⟩ := exists_digits
        fun c hc => hrun c (List.mem_append_right _ (List.mem_cons_of_mem _ hc))
      -- A point with no digit before it has one after it.
      have hne : whole ++ fraction ≠ [] := by
        intro hempty
        obtain ⟨rfl, rfl⟩ := List.append_eq_nil_iff.mp hempty
        rcases hbeyond with rfl | ⟨others, rfl⟩ <;> cases hstart
      simp only [List.append_assoc, List.cons_append]
      rcases hbeyond with rfl | ⟨others, rfl⟩
      · exact ⟨_, .pointed hne hwhole hfraction hexponent⟩
      · refine ⟨_, .overpointed hne hwhole hfraction (fun c hc => hrun c ?_) hexponent⟩
        simp [hc]
  obtain ⟨token, hword⟩ := hword
  rwa [hword.shape.2] at hword

/-! ### The first character of a word -/

theorem isDigitOrPoint_of_startsNumber {c : Char} {rest : List Char}
    (h : Lexer.startsNumber (c :: rest) = true) : isDigitOrPoint c = true := by
  simp only [Lexer.startsNumber, Bool.or_eq_true, Bool.and_eq_true] at h
  rw [isDigitOrPoint, Bool.or_eq_true]
  exact h.imp_right And.left

theorem letter_of_identifierStart {c : Char} (h : isIdentifierStart c = true) : 65 ≤ c.val := by
  have hranges : (decide (c.val ≥ 65 ∧ c.val ≤ 90) || (c.val ≥ 97 && c.val ≤ 122) || c == '_') =
      true := h
  simp only [Bool.or_eq_true, Bool.and_eq_true, decide_eq_true_eq, beq_iff_eq] at hranges
  rcases hranges with (⟨hupper, -⟩ | ⟨hlower, -⟩) | rfl
  · exact hupper
  · exact UInt32.le_trans (by decide) hlower
  · decide

theorem isDigitOrPoint_of_identifierStart {c : Char} (h : isIdentifierStart c = true) :
    isDigitOrPoint c = false := by
  have hletter := letter_of_identifierStart h
  rw [Bool.eq_false_iff]
  intro hdigit
  have hrange : (c.val ≥ 48 && c.val ≤ 57 || c == '.') = true := hdigit
  simp only [Bool.or_eq_true, Bool.and_eq_true, decide_eq_true_eq, beq_iff_eq] at hrange
  rcases hrange with ⟨-, hle⟩ | rfl
  · exact absurd (UInt32.le_trans hletter hle) (by decide)
  · exact absurd hletter (by decide)

theorem symbolWord?_start {word : List Char} {t : Token} (h : symbolWord? word = some t) :
    ∃ c rest, word = c :: rest ∧ isIdentifierStart c = false ∧ isDigitOrPoint c = false ∧
      isBlank c = false := by
  unfold symbolWord? at h
  split at h <;> first | exact ⟨_, _, rfl, rfl, rfl, rfl⟩ | cases h

theorem Word.number_of_startsNumber {word cs : List Char} {token : Option Token}
    (h : Word word token) (hstarts : word <+: cs) (hstart : Lexer.startsNumber cs = true) :
    token = numeral? word ∧ word.length ≤ (Lexer.numberText cs).length := by
  have hne (c : Char) (rest : List Char) (hword : word = c :: rest)
      (hc : isDigitOrPoint c = false) : False := by
    subst hword
    obtain ⟨after, rfl⟩ := hstarts
    rw [isDigitOrPoint_of_startsNumber hstart] at hc
    cases hc
  cases h with
  | @identifier c rest hc => exact (hne c rest rfl (isDigitOrPoint_of_identifierStart hc)).elim
  | symbol hmem =>
      obtain ⟨c, rest, hword, -, hc, -⟩ := symbolWord?_start hmem
      exact (hne c rest hword hc).elim
  | number hword => exact ⟨hword.shape.2, hword.shape.1.length_le hstarts⟩

theorem Word.identifier_of_start {c : Char} {word rest : List Char} {token : Option Token}
    (h : Word word token) (hstarts : word <+: c :: rest) (hstart : isIdentifierStart c = true) :
    token = some (.identifier (String.ofList word)) ∧
      word.length ≤ (c :: rest.takeWhile isIdentifierRest).length := by
  cases h with
  | @identifier d others _ hothers =>
      obtain ⟨rfl, hothers'⟩ := List.cons_prefix_cons.mp hstarts
      exact ⟨rfl, Nat.succ_le_succ (length_le_takeWhile hothers hothers')⟩
  | symbol hsymbol =>
      obtain ⟨d, others, rfl, hd, -⟩ := symbolWord?_start hsymbol
      obtain ⟨rfl, -⟩ := List.cons_prefix_cons.mp hstarts
      rw [hstart] at hd
      cases hd
  | number hword =>
      obtain ⟨after, hafter⟩ := hstarts
      have hnumber := hword.shape.1.starts after
      rw [hafter] at hnumber
      have hdigit := isDigitOrPoint_of_startsNumber hnumber
      rw [isDigitOrPoint_of_identifierStart hstart] at hdigit
      cases hdigit

theorem Word.symbol_of_start {c : Char} {word rest : List Char} {token : Option Token}
    (h : Word word token) (hstarts : word <+: c :: rest) (hstart : isIdentifierStart c = false)
    (hnumber : Lexer.startsNumber (c :: rest) = false) :
    ∃ t, token = some t ∧ symbolWord? word = some t := by
  cases h with
  | symbol hsymbol => exact ⟨_, rfl, hsymbol⟩
  | @identifier d others hd _ =>
      obtain ⟨rfl, -⟩ := List.cons_prefix_cons.mp hstarts
      rw [hd] at hstart
      cases hstart
  | number hword =>
      obtain ⟨after, hafter⟩ := hstarts
      rw [← hafter, hword.shape.1.starts after] at hnumber
      cases hnumber

theorem Word.token_eq {word : List Char} {token token' : Option Token} (h : Word word token)
    (h' : Word word token') : token = token' := by
  cases h with
  | number hword =>
      have hnumber := hword.shape.1.starts []
      rw [List.append_nil] at hnumber
      exact hword.shape.2.trans (h'.number_of_startsNumber List.prefix_rfl hnumber).1.symm
  | identifier hstart hrest => exact (h'.identifier_of_start List.prefix_rfl hstart).1.symm
  | symbol hsymbol =>
      obtain ⟨c, rest, rfl, hstart, hdigit, -⟩ := symbolWord?_start hsymbol
      have hnumber : Lexer.startsNumber (c :: rest) = false := by
        rw [Bool.eq_false_iff]
        intro hnumber
        rw [isDigitOrPoint_of_startsNumber hnumber] at hdigit
        cases hdigit
      obtain ⟨t', rfl, hsymbol'⟩ := h'.symbol_of_start List.prefix_rfl hstart hnumber
      rw [← hsymbol, ← hsymbol']

theorem LongestWord.unique {text word word' : List Char} {token token' : Option Token}
    (h : LongestWord text word token) (h' : LongestWord text word' token') :
    word = word' ∧ token = token' := by
  have hword : word = word' := by
    refine (List.prefix_of_prefix_length_le h.starts h'.starts ?_).eq_of_length_le ?_
    · exact h'.longest word token h.spells h.starts
    · exact h.longest word' token' h'.spells h'.starts
  subst hword
  exact ⟨rfl, h.spells.token_eq h'.spells⟩

end SelectionPlan
