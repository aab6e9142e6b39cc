import SelectionPlan.Proofs.Expression.Bytes
import SelectionPlan.Proofs.Expression.Respelling

/-!
# Lexing bytes

A lexer that goes through the bytes of a text has to cut the text at boundaries of its characters.
It does so for every text, because it steps over ASCII characters only, which are one byte each: up
to where it stops the positions of bytes and of characters are the same.
-/

namespace SelectionPlan

variable {α β γ δ : Type}

/-! ### Runs that may panic -/

/-- Why a run ends without a result: a fault of the text, an access out of bounds, or a loop that
takes more turns than it has. -/
inductive Halt
  | fault (f : SyntaxFault)
  | panic
  | unfinished

/-- The run ends as another one that can only find faults, with what `f` makes of the result. -/
def safely (f : α → β) : Except SyntaxFault α → Except Halt β
  | .ok a => .ok (f a)
  | .error e => .error (.fault e)

theorem safely_bind {f : α → β} {g : γ → δ} {r : Except SyntaxFault α} {k : β → Except Halt δ}
    {k' : α → Except SyntaxFault γ} (h : ∀ a, r = .ok a → k (f a) = safely g (k' a)) :
    (safely f r >>= k) = safely g (r >>= k') := by
  cases r with
  | ok a => exact h a rfl
  | error e => rfl

def orPanic : Option α → Except Halt α
  | some a => .ok a
  | none => .error .panic

/-! ### The classes of characters -/

theorem OfAscii.or {p q : Char → Bool} (hp : OfAscii p) (hq : OfAscii q) :
    OfAscii fun c => p c || q c := by
  intro c hc
  rcases Bool.or_eq_true_iff.mp hc with hc | hc
  · exact hp c hc
  · exact hq c hc

theorem ofAscii_beq {d : Char} (hd : d.val ≤ 127) : OfAscii (· == d) := by
  intro c hc
  rw [beq_iff_eq.mp hc]
  exact hd

theorem ofAscii_isDigit : OfAscii Char.isDigit := by
  intro c hc
  have hle : c.val ≤ '9'.val := of_decide_eq_true (Bool.and_eq_true_iff.mp hc).2
  exact UInt32.le_trans hle (by decide)

theorem ofAscii_isAlpha : OfAscii Char.isAlpha := by
  refine OfAscii.or (fun c hc => ?_) fun c hc => ?_
  · have hle : c.val ≤ 'Z'.val := (of_decide_eq_true hc).2
    exact UInt32.le_trans hle (by decide)
  · have hle : c.val ≤ 'z'.val := of_decide_eq_true (Bool.and_eq_true_iff.mp hc).2
    exact UInt32.le_trans hle (by decide)

theorem ofAscii_isDigitOrPoint : OfAscii isDigitOrPoint :=
  ofAscii_isDigit.or (ofAscii_beq (by decide))

theorem ofAscii_isIdentifierStart : OfAscii isIdentifierStart :=
  ofAscii_isAlpha.or (ofAscii_beq (by decide))

theorem ofAscii_isIdentifierRest : OfAscii isIdentifierRest :=
  (ofAscii_isAlpha.or ofAscii_isDigit).or (ofAscii_beq (by decide))

theorem ofAscii_isBlank : OfAscii isBlank :=
  ((((ofAscii_beq (by decide)).or (ofAscii_beq (by decide))).or (ofAscii_beq (by decide))).or
    (ofAscii_beq (by decide))).or (ofAscii_beq (by decide))

theorem NumberShape.ascii {word : List Char} (h : NumberShape word) : Ascii word := by
  obtain ⟨run, exponent, e, -, hrun, hexponent, rfl⟩ := h
  refine Ascii.append (fun c hc => ofAscii_isDigitOrPoint c (hrun c hc)) ?_
  cases hexponent with
  | empty => exact nofun
  | @marked mark sign digits hmark hsign _ hdigits =>
      have hmark : Ascii [mark] := by rcases hmark with rfl | rfl <;> simp [Ascii]
      have hsign : Ascii sign := by rcases hsign with rfl | rfl | rfl <;> simp [Ascii]
      exact hmark.append (hsign.append fun c hc => ofAscii_isDigit c (hdigits c hc))

theorem Word.ascii {word : List Char} {token : Option Token} (h : Word word token) :
    Ascii word := by
  cases h with
  | number hword => exact hword.shape.1.ascii
  | @identifier c rest hstart hrest =>
      intro d hd
      rcases List.mem_cons.mp hd with rfl | hd
      · exact ofAscii_isIdentifierStart d hstart
      · exact ofAscii_isIdentifierRest d (hrest d hd)
  | symbol hsymbol =>
      unfold symbolWord? at hsymbol
      split at hsymbol <;> cases hsymbol <;> simp [Ascii]

/-! ### The lexer over bytes -/

namespace ByteLexer

def isExponentMark (c : Char) : Bool := c == 'e' || c == 'E'

def isSign (c : Char) : Bool := c == '+' || c == '-'

theorem ofAscii_isExponentMark : OfAscii isExponentMark :=
  (ofAscii_beq (by decide)).or (ofAscii_beq (by decide))

theorem ofAscii_isSign : OfAscii isSign :=
  (ofAscii_beq (by decide)).or (ofAscii_beq (by decide))

/-- Where a sign at byte `i` ends, which is `i` if there is none. -/
def signEnd (bytes : List UInt8) (i : Nat) : Nat := if holds isSign bytes i then i + 1 else i

/-- Where an exponent at byte `i` ends, which is `i` unless digits follow its mark and sign. -/
def exponentEnd (bytes : List UInt8) (i : Nat) : Nat :=
  if holds isExponentMark bytes i then
    let j := signEnd bytes (i + 1)
    if holds Char.isDigit bytes j then past Char.isDigit bytes j else i
  else i

def numberEnd (bytes : List UInt8) (start : Nat) : Nat :=
  exponentEnd bytes (past isDigitOrPoint bytes start)

/-- The operators in the order in which they are tried.  A lone equals sign is none. -/
def operators : List (List Char × Option Token) :=
  [(['<', '='], some (.binary .le)), (['>', '='], some (.binary .ge)),
    (['=', '='], some (.binary .eq)), (['!', '='], some (.binary .ne)),
    (['&', '&'], some (.binary .and)), (['|', '|'], some (.binary .or)),
    (['<'], some (.binary .lt)), (['>'], some (.binary .gt)), (['+'], some (.binary .add)),
    (['-'], some (.binary .sub)), (['*'], some (.binary .mul)), (['/'], some (.binary .div)),
    (['!'], some .bang), (['='], none)]

def operator (text : List Char) : Except SyntaxFault (Token × Nat) :=
  match operators.find? fun entry => entry.1.isPrefixOf text with
  | none => .error (.unexpectedCharacter (text.headD '?'))
  | some (_, none) => .error .assignment
  | some (word, some t) => .ok (t, word.length)

def tokenAt (text : List Char) (i : Nat) : Except Halt (Token × Nat) :=
  let bytes := utf8 text
  if holds Char.isDigit bytes i ||
      (holds (· == '.') bytes i && holds Char.isDigit bytes (i + 1)) then do
    let stop := numberEnd bytes i
    let literal ← orPanic (slice? text i stop)
    match Decimal.readUnsigned? literal with
    | some d => return (.number (d.toFloat false), stop)
    | none => throw (.fault (.badNumber (String.ofList literal)))
  else if holds isIdentifierStart bytes i then do
    let stop := past isIdentifierRest bytes i
    let name ← orPanic (slice? text i stop)
    return (.identifier (String.ofList name), stop)
  else if holds (· == '(') bytes i then return (.openParen, i + 1)
  else if holds (· == ')') bytes i then return (.closeParen, i + 1)
  else if holds (· == ',') bytes i then return (.comma, i + 1)
  else do
    let after ← orPanic (dropBytes? i text)
    safely (fun found => (found.1, i + found.2)) (operator after)

def lexFrom (text : List Char) : (turns i : Nat) → Except Halt (List Lexeme)
  | 0, _ => .error .unfinished
  | turns + 1, i =>
    if i < (utf8 text).length then
      if holds isBlank (utf8 text) i then lexFrom text turns (i + 1)
      else do
        let (t, stop) ← tokenAt text i
        let following ← lexFrom text turns stop
        return ⟨t, i, stop⟩ :: following
    else .ok []

/-- The tokens of a text, in as many turns as it has bytes and one to see its end. -/
def lex (text : List Char) : Except Halt (List Lexeme) :=
  lexFrom text ((utf8 text).length + 1) 0

/-! ### Positions of characters -/

section positions

variable {before : List Char}

theorem signEnd_eq (hbefore : Ascii before) (rest : List Char) :
    signEnd (utf8 (before ++ rest)) before.length =
      before.length + ((rest.takeWhile isSign).take 1).length := by
  rw [signEnd, holds_eq hbefore ofAscii_isSign]
  cases rest with
  | nil => rfl
  | cons d ds => by_cases hd : isSign d = true <;> simp [hd]

theorem digitsEnd_eq (hbefore : Ascii before) (rest : List Char) (i : Nat) :
    (if holds Char.isDigit (utf8 (before ++ rest)) before.length then
      past Char.isDigit (utf8 (before ++ rest)) before.length else i) =
      if (rest.takeWhile Char.isDigit).isEmpty then i
      else before.length + (rest.takeWhile Char.isDigit).length := by
  rw [holds_eq hbefore ofAscii_isDigit, past_eq hbefore ofAscii_isDigit]
  cases rest with
  | nil => rfl
  | cons d ds => by_cases hd : d.isDigit = true <;> simp [hd]

theorem exponentEnd_eq (hbefore : Ascii before) (rest : List Char) :
    exponentEnd (utf8 (before ++ rest)) before.length =
      before.length + (Lexer.exponentText rest).length := by
  rw [exponentEnd, holds_eq hbefore ofAscii_isExponentMark]
  cases rest with
  | nil => rfl
  | cons c rest =>
      rw [List.head?_cons, Option.any_some, Lexer.exponentText]
      by_cases hmark : c = 'e' ∨ c = 'E'
      · have hc : isExponentMark c = true := by simpa [isExponentMark] using hmark
        have hone : Ascii [c] := by simpa [Ascii] using ofAscii_isExponentMark c hc
        let sign := (rest.takeWhile isSign).take 1
        let after := rest.drop sign.length
        have hsign : Ascii sign := fun d hd =>
          ofAscii_isSign d (List.mem_takeWhile_imp (List.mem_of_mem_take hd))
        have hsplit : sign ++ after = rest :=
          List.prefix_iff_eq_append.mp ((List.take_prefix 1 _).trans (List.takeWhile_prefix _))
        have hsigned := signEnd_eq (hbefore.append hone) rest
        have hdigits := digitsEnd_eq ((hbefore.append hone).append hsign) after before.length
        rw [List.append_assoc _ sign, hsplit] at hdigits
        rw [← List.singleton_append, ← List.append_assoc]
        simp only [hc, hmark, if_true, List.length_append, List.length_singleton]
          at hsigned hdigits ⊢
        rw [hsigned, hdigits]
        change _ = before.length + (if (after.takeWhile Char.isDigit).isEmpty = true then []
          else c :: (sign ++ after.takeWhile Char.isDigit)).length
        split
        · rfl
        · rw [List.length_cons, List.length_append]
          omega
      · have hc : isExponentMark c = false := by simpa [isExponentMark] using hmark
        simp [hc, hmark]

theorem numberEnd_eq (hbefore : Ascii before) (cs : List Char) :
    numberEnd (utf8 (before ++ cs)) before.length =
      before.length + (Lexer.numberText cs).length := by
  let run := cs.takeWhile isDigitOrPoint
  have hrun : Ascii run := fun c hc => ofAscii_isDigitOrPoint c (List.mem_takeWhile_imp hc)
  have hsplit : run ++ cs.drop run.length = cs :=
    List.prefix_iff_eq_append.mp (List.takeWhile_prefix _)
  have hend := exponentEnd_eq (hbefore.append hrun) (cs.drop run.length)
  rw [List.append_assoc, hsplit, List.length_append] at hend
  rw [numberEnd, past_eq hbefore ofAscii_isDigitOrPoint, hend, Nat.add_assoc]
  exact congrArg _ List.length_append.symm

theorem startsNumber_eq (hbefore : Ascii before) (c : Char) (rest : List Char) :
    (holds Char.isDigit (utf8 (before ++ c :: rest)) before.length ||
      (holds (· == '.') (utf8 (before ++ c :: rest)) before.length &&
        holds Char.isDigit (utf8 (before ++ c :: rest)) (before.length + 1))) =
      Lexer.startsNumber (c :: rest) := by
  rw [holds_eq hbefore ofAscii_isDigit, holds_eq hbefore (ofAscii_beq (by decide)),
    List.head?_cons, Option.any_some, Option.any_some, Lexer.startsNumber]
  by_cases hpoint : c = '.'
  · have hone : Ascii ['.'] := by simp [Ascii]
    have hnext := holds_eq (hbefore.append hone) ofAscii_isDigit rest
    rw [List.append_assoc, List.length_append, List.singleton_append, List.length_singleton]
      at hnext
    rw [hpoint, hnext]
    cases rest <;> rfl
  · rw [beq_eq_false_iff_ne.mpr hpoint, Bool.false_and, Bool.false_and]

end positions

theorem operator_eq {c : Char} (rest : List Char) (hopen : c ≠ '(') (hclose : c ≠ ')')
    (hcomma : c ≠ ',') : operator (c :: rest) = Lexer.symbol c rest.head? := by
  have hbeq (a b : Char) : (a == b) = decide (b = a) := by
    rw [Bool.eq_iff_iff, beq_iff_eq, decide_eq_true_eq, eq_comm]
  cases rest with
  | nil =>
      unfold Lexer.symbol
      split <;> simp_all [operator, operators, List.isPrefixOf]
  | cons d rest =>
      unfold Lexer.symbol
      split <;> simp_all [operator, operators, List.isPrefixOf]

section tokens

variable {before : List Char}

theorem tokenAt_eq (hbefore : Ascii before) (c : Char) (rest : List Char) :
    tokenAt (before ++ c :: rest) before.length =
      safely (fun found => (found.1, before.length + found.2)) (Lexer.scan c rest) := by
  have hcut {word : List Char} {token : Option Token} (h : LongestWord (c :: rest) word token) :
      slice? (before ++ c :: rest) before.length (before.length + word.length) = some word := by
    obtain ⟨after, hafter⟩ := h.starts
    rw [← hafter, ← List.append_assoc]
    exact slice?_ascii hbefore h.spells.ascii
  have hmark (mark : Char) (hmark : mark.val ≤ 127) :
      holds (· == mark) (utf8 (before ++ c :: rest)) before.length = (c == mark) :=
    holds_eq hbefore (ofAscii_beq hmark) _
  rw [tokenAt]
  simp only
  rw [startsNumber_eq hbefore, Lexer.scan]
  split
  · rename_i hnumber
    rw [numberEnd_eq hbefore, hcut (longest_number hnumber)]
    simp only [orPanic, ok_bind]
    cases Decimal.readUnsigned? (Lexer.numberText (c :: rest)) <;> rfl
  · rw [holds_eq hbefore ofAscii_isIdentifierStart, List.head?_cons, Option.any_some]
    split
    · rename_i hstart
      have hrest : isIdentifierRest c = true := isIdentifierRest_of_start hstart
      rw [past_eq hbefore ofAscii_isIdentifierRest, List.takeWhile_cons_of_pos hrest,
        hcut (longest_identifier hstart rest)]
      rfl
    · have hdrop : dropBytes? before.length (before ++ c :: rest) = some (c :: rest) :=
        dropBytes?_eq_some.mpr ⟨before, rfl, hbefore.length_utf8⟩
      rw [hmark '(' (by decide), hmark ')' (by decide), hmark ',' (by decide), hdrop]
      by_cases hopen : c = '('
      · rw [hopen]
        rfl
      · by_cases hclose : c = ')'
        · rw [hclose]
          rfl
        · by_cases hcomma : c = ','
          · rw [hcomma]
            rfl
          · rw [beq_eq_false_iff_ne.mpr hopen, beq_eq_false_iff_ne.mpr hclose,
              beq_eq_false_iff_ne.mpr hcomma, ← operator_eq rest hopen hclose hcomma]
            rfl

/-- From a boundary on that ASCII characters lead to, the lexer over bytes goes as the lexer over
characters does. -/
theorem lexFrom_eq (turns : Nat) (hbefore : Ascii before) {rest : List Char}
    (hturns : rest.length < turns) :
    lexFrom (before ++ rest) turns before.length =
      safely id (Lexer.lexFrom 0 before.length rest) := by
  induction turns generalizing before rest with
  | zero => omega
  | succ turns ih =>
      cases rest with
      | nil =>
          have hend : ¬ before.length < (utf8 (before ++ [])).length := by
            rw [List.append_nil, hbefore.length_utf8]
            exact Nat.lt_irrefl _
          rw [lexFrom, if_neg hend]
          rfl
      | cons c rest =>
          have hmore : before.length < (utf8 (before ++ c :: rest)).length := by
            have hpos := c.utf8Size_pos
            rw [utf8_append, List.length_append, hbefore.length_utf8, utf8_cons,
              List.length_append, String.length_utf8EncodeChar]
            omega
          rw [List.length_cons] at hturns
          rw [lexFrom, if_pos hmore, holds_eq hbefore ofAscii_isBlank, List.head?_cons,
            Option.any_some]
          split
          · rename_i hblank
            have hone : Ascii [c] := by simpa [Ascii] using ofAscii_isBlank c hblank
            have hshorter : rest.length < turns := by omega
            have hrest := ih (hbefore.append hone) hshorter
            rw [List.append_assoc, List.length_append] at hrest
            rw [Lexer.lexFrom, if_pos hblank]
            exact hrest
          · rename_i hblank
            rw [tokenAt_eq hbefore]
            -- A token is a word, so the text is cut after it and it leads to another boundary.
            cases hscan : Lexer.scan c rest with
            | error e =>
                rw [Lexer.lexFrom, if_neg hblank, hscan]
                rfl
            | ok found =>
                obtain ⟨t, n⟩ := found
                obtain ⟨word, rfl, hlongest⟩ := scan_eq_ok hscan
                obtain ⟨after, hafter⟩ := hlongest.starts
                have hshorter : after.length < turns := by
                  obtain ⟨d, others, rfl, -⟩ := hlongest.exists_cons
                  have hlength := congrArg List.length hafter
                  simp only [List.length_append, List.length_cons] at hlength
                  omega
                have hrest := ih (hbefore.append hlongest.spells.ascii) hshorter
                rw [List.append_assoc, hafter, List.length_append] at hrest
                rw [← hafter] at hlongest ⊢
                rw [lexFrom_word hlongest, hafter]
                simp only [safely, ok_bind, hrest]
                exact safely_bind fun _ _ => rfl

/-- The lexer over bytes finds the tokens of every text, or the same fault, and the ranges of bytes
are the ranges of characters. -/
theorem lex_eq (text : List Char) : lex text = safely id (SelectionPlan.lex text) := by
  have hbefore : Ascii [] := nofun
  exact lexFrom_eq _ hbefore (Nat.lt_succ_of_le (length_le_utf8 text))

end tokens

end ByteLexer

end SelectionPlan
