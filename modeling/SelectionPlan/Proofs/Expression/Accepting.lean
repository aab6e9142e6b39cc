import SelectionPlan.Proofs.Expression.Parsing

/-!
# What the parser accepts

The parser reads the tokens of every derivation.  The depth of its rules is at most eight for each
token and one for each level from the phrase down, so the fuel it starts with is enough.
-/

namespace SelectionPlan

variable {level : Level} {tokens rest : List Lexeme}

/-! ### Derivations -/

/-- With enough fuel the tokens of a derivation are read, where no phrase of its level goes on. -/
def Derivation.Accepted (d : Derivation level) : Prop :=
  ∀ (fuel : Nat) (tokens rest : List Lexeme), tokens.map Lexeme.token = d.tokens →
    Stops level (rest.map Lexeme.token) → 8 * d.tokens.length + 7 ≤ fuel + level.rank →
    ∃ t, Parser.phrase fuel level (tokens ++ rest) = .ok (t, rest)

def Continuation.Accepted (c : Continuation level) : Prop :=
  ∀ (fuel : Nat) (left : Term Occurrence) (tokens rest : List Lexeme),
    tokens.map Lexeme.token = c.tokens → Stops level (rest.map Lexeme.token) →
    8 * c.tokens.length + 1 ≤ fuel →
    ∃ t, Parser.joined fuel level left (tokens ++ rest) = .ok (t, rest)

theorem exists_lexeme {token : Token} {others : List Token}
    (h : tokens.map Lexeme.token = token :: others) :
    ∃ start stop after, tokens = ⟨token, start, stop⟩ :: after ∧
      after.map Lexeme.token = others := by
  obtain ⟨⟨_, start, stop⟩, after, rfl, rfl, hafter⟩ := List.map_eq_cons_iff.mp h
  exact ⟨start, stop, after, rfl, hafter⟩

theorem exists_closed {inner : List Token}
    (h : tokens.map Lexeme.token = inner ++ [.closeParen]) :
    ∃ start stop before, tokens = before ++ [⟨.closeParen, start, stop⟩] ∧
      before.map Lexeme.token = inner := by
  obtain ⟨before, close, rfl, hbefore, hclose⟩ := List.map_eq_append_iff.mp h
  obtain ⟨start, stop, after, rfl, hafter⟩ := exists_lexeme hclose
  cases List.map_eq_nil_iff.mp hafter
  exact ⟨start, stop, before, rfl, hbefore⟩

namespace Derivation.Accepted

theorem joined (hlevel : level.isBinary = true) {first : Derivation level.operand}
    {c : Continuation level} (hfirst : first.Accepted) (hc : c.Accepted) :
    (Derivation.joined hlevel first c).Accepted := by
  intro fuel tokens rest htokens hrest hfuel
  have hrank := Level.rank_lt_of_isBinary hlevel
  obtain ⟨firsts, others, rfl, hfirsts, hothers⟩ := List.map_eq_append_iff.mp htokens
  rw [Derivation.tokens, List.length_append] at hfuel
  cases fuel with
  | zero => omega
  | succ fuel =>
      have hstops : Stops level.operand ((others ++ rest).map Lexeme.token) := by
        rw [List.map_append, hothers]
        exact c.stops hlevel hrest
      obtain ⟨left, hleft⟩ := hfirst fuel firsts (others ++ rest) hfirsts hstops
        (by rw [Level.rank_operand hlevel]; omega)
      obtain ⟨t, ht⟩ := hc fuel left others rest hothers hrest (by omega)
      refine ⟨t, ?_⟩
      rw [phrase_binary hlevel, List.append_assoc, hleft]
      exact ht

theorem sign (s : Sign) {operand : Derivation .signed} (hoperand : operand.Accepted) :
    (Derivation.sign s operand).Accepted := by
  intro fuel tokens rest htokens hrest hfuel
  obtain ⟨start, stop, after, rfl, hafter⟩ := exists_lexeme htokens
  simp only [Derivation.tokens, List.length_cons, Level.rank] at hfuel
  cases fuel with
  | zero => omega
  | succ fuel =>
      obtain ⟨t, ht⟩ := hoperand fuel after rest hafter hrest (by simp only [Level.rank]; omega)
      refine ⟨s.term t, ?_⟩
      rw [List.cons_append, phrase_sign, ht]
      rfl

theorem atom {phrase : Derivation .atom} (hphrase : phrase.Accepted) :
    (Derivation.atom phrase).Accepted := by
  intro fuel tokens rest htokens hrest hfuel
  simp only [Derivation.tokens, Level.rank] at hfuel
  cases fuel with
  | zero => omega
  | succ fuel =>
      obtain ⟨t, ht⟩ := hphrase fuel tokens rest htokens (hrest.mono (Nat.le_succ _))
        (by simp only [Level.rank]; omega)
      refine ⟨t, ?_⟩
      rcases phrase_signed (tokens ++ rest) with ⟨s, start, stop, after, hsign⟩ | hatom
      · have hmap := congrArg (List.map Lexeme.token) hsign
        rw [List.map_append, htokens, List.map_cons] at hmap
        exact (phrase.atom_ne_sign s _ _ hmap).elim
      · rw [hatom, ht]

theorem number (value : Float) : (Derivation.number value).Accepted := by
  intro fuel tokens rest htokens _ hfuel
  obtain ⟨start, stop, after, rfl, hafter⟩ := exists_lexeme htokens
  cases List.map_eq_nil_iff.mp hafter
  simp only [Derivation.tokens, List.length_cons, Level.rank] at hfuel
  cases fuel with
  | zero => omega
  | succ fuel => exact ⟨_, rfl⟩

theorem identifier (name : String) : (Derivation.identifier name).Accepted := by
  intro fuel tokens rest htokens hrest hfuel
  obtain ⟨start, stop, after, rfl, hafter⟩ := exists_lexeme htokens
  cases List.map_eq_nil_iff.mp hafter
  simp only [Derivation.tokens, List.length_cons, Level.rank] at hfuel
  cases fuel with
  | zero => omega
  | succ fuel => exact ⟨_, phrase_identifier fuel name start stop hrest.not_opens⟩

theorem group {inner : Derivation .disjunction} (hinner : inner.Accepted) :
    (Derivation.group inner).Accepted := by
  intro fuel tokens rest htokens _ hfuel
  obtain ⟨start, stop, after, rfl, hafter⟩ := exists_lexeme htokens
  obtain ⟨start', stop', before, rfl, hbefore⟩ := exists_closed hafter
  simp only [Derivation.tokens, List.length_cons, List.length_append, Level.rank] at hfuel
  cases fuel with
  | zero => omega
  | succ fuel =>
      obtain ⟨t, ht⟩ := hinner fuel before (⟨.closeParen, start', stop'⟩ :: rest) hbefore trivial
        (by simp only [Level.rank]; omega)
      refine ⟨t, ?_⟩
      rw [List.cons_append, List.append_assoc, phrase_group, List.singleton_append, ht]
      rfl

theorem call {name : String} {f : UnaryPrimitive}
    (named : Primitive.ofName? name = some (.unary f)) {argument : Derivation .disjunction}
    (hargument : argument.Accepted) : (Derivation.call name f named argument).Accepted := by
  intro fuel tokens rest htokens _ hfuel
  obtain ⟨start, stop, after, rfl, hafter⟩ := exists_lexeme htokens
  obtain ⟨start', stop', after', rfl, hafter'⟩ := exists_lexeme hafter
  obtain ⟨start'', stop'', before, rfl, hbefore⟩ := exists_closed hafter'
  simp only [Derivation.tokens, List.length_cons, List.length_append, Level.rank] at hfuel
  cases fuel with
  | zero => omega
  | succ fuel =>
      obtain ⟨t, ht⟩ := hargument fuel before (⟨.closeParen, start'', stop''⟩ :: rest) hbefore
        trivial (by simp only [Level.rank]; omega)
      cases fuel with
      | zero => omega
      | succ fuel =>
          refine ⟨.call f t, ?_⟩
          rw [List.cons_append, List.cons_append, List.append_assoc, phrase_call named,
            List.singleton_append, ht]
          rfl

theorem call₂ {name : String} {f : BinaryPrimitive}
    (named : Primitive.ofName? name = some (.binary f)) {first second : Derivation .disjunction}
    (hfirst : first.Accepted) (hsecond : second.Accepted) :
    (Derivation.call₂ name f named first second).Accepted := by
  intro fuel tokens rest htokens _ hfuel
  obtain ⟨start, stop, after, rfl, hafter⟩ := exists_lexeme htokens
  obtain ⟨start', stop', after', rfl, hafter'⟩ := exists_lexeme hafter
  obtain ⟨firsts, others, rfl, hfirsts, hothers⟩ := List.map_eq_append_iff.mp hafter'
  obtain ⟨start₁, stop₁, seconds, rfl, hseconds⟩ := exists_lexeme hothers
  obtain ⟨start₂, stop₂, before, rfl, hbefore⟩ := exists_closed hseconds
  simp only [Derivation.tokens, List.length_cons, List.length_append, Level.rank] at hfuel
  match fuel with
  | 0 | 1 | 2 => omega
  | fuel + 3 =>
      obtain ⟨x, hx⟩ := hfirst (fuel + 2) firsts
        (⟨.comma, start₁, stop₁⟩ :: (before ++ ⟨.closeParen, start₂, stop₂⟩ :: rest)) hfirsts
        trivial (by simp only [Level.rank]; omega)
      obtain ⟨y, hy⟩ := hsecond (fuel + 1) before (⟨.closeParen, start₂, stop₂⟩ :: rest) hbefore
        trivial (by simp only [Level.rank]; omega)
      refine ⟨.call₂ f x y, ?_⟩
      simp only [List.cons_append, List.append_assoc, List.nil_append, phrase_call named, hx,
        ok_bind, moreArguments_comma, hy]
      rfl

end Derivation.Accepted

namespace Continuation.Accepted

theorem stop (level : Level) : (@Continuation.stop level).Accepted := by
  intro fuel left tokens rest htokens hrest hfuel
  cases List.map_eq_nil_iff.mp htokens
  cases fuel with
  | zero => omega
  | succ fuel =>
      refine ⟨left, ?_⟩
      rw [List.nil_append, Parser.joined, operator?_eq_none hrest]

theorem once {op : BinaryOperator} (joins : level.joins op = true)
    (single : level.chains = false) {operand : Derivation level.operand}
    (hoperand : operand.Accepted) : (Continuation.once op joins single operand).Accepted := by
  intro fuel left tokens rest htokens hrest hfuel
  have hlevel := Level.isBinary_of_joins joins
  obtain ⟨start, stop, after, rfl, hafter⟩ := exists_lexeme htokens
  simp only [Continuation.tokens, List.length_cons] at hfuel
  cases fuel with
  | zero => omega
  | succ fuel =>
      obtain ⟨t, ht⟩ := hoperand fuel after rest hafter (hrest.operand hlevel) (by omega)
      refine ⟨.binary op left t, ?_⟩
      have hop : level.operator? (⟨.binary op, start, stop⟩ :: (after ++ rest)) =
          some (op, after ++ rest) := operator?_eq_some.mpr ⟨joins, start, stop, rfl⟩
      rw [List.cons_append, Parser.joined, hop]
      simp only [ht, ok_bind, single]
      rfl

theorem more {op : BinaryOperator} (joins : level.joins op = true)
    (chains : level.chains = true) {operand : Derivation level.operand} {c : Continuation level}
    (hoperand : operand.Accepted) (hc : c.Accepted) :
    (Continuation.more op joins chains operand c).Accepted := by
  intro fuel left tokens rest htokens hrest hfuel
  have hlevel := Level.isBinary_of_joins joins
  obtain ⟨start, stop, after, rfl, hafter⟩ := exists_lexeme htokens
  obtain ⟨operands, others, rfl, hoperands, hothers⟩ := List.map_eq_append_iff.mp hafter
  simp only [Continuation.tokens, List.length_cons, List.length_append] at hfuel
  cases fuel with
  | zero => omega
  | succ fuel =>
      have hstops : Stops level.operand ((others ++ rest).map Lexeme.token) := by
        rw [List.map_append, hothers]
        exact c.stops hlevel hrest
      obtain ⟨right, hright⟩ := hoperand fuel operands (others ++ rest) hoperands hstops
        (by omega)
      obtain ⟨t, ht⟩ := hc fuel (.binary op left right) others rest hothers hrest (by omega)
      refine ⟨t, ?_⟩
      have hop : level.operator? (⟨.binary op, start, stop⟩ :: (operands ++ (others ++ rest))) =
          some (op, operands ++ (others ++ rest)) :=
        operator?_eq_some.mpr ⟨joins, start, stop, rfl⟩
      rw [List.cons_append, List.append_assoc, Parser.joined, hop]
      simp only [hright, ok_bind, chains, if_true]
      exact ht

end Continuation.Accepted

mutual

theorem Derivation.accepted : {level : Level} → (d : Derivation level) → d.Accepted
  | _, .joined hlevel first c => .joined hlevel first.accepted c.accepted
  | _, .sign s operand => .sign s operand.accepted
  | _, .atom phrase => .atom phrase.accepted
  | _, .number value => .number value
  | _, .identifier name => .identifier name
  | _, .group inner => .group inner.accepted
  | _, .call _ _ named argument => .call named argument.accepted
  | _, .call₂ _ _ named first second => .call₂ named first.accepted second.accepted

theorem Continuation.accepted : {level : Level} → (c : Continuation level) → c.Accepted
  | _, .stop => .stop _
  | _, .once _ joins single operand => .once joins single operand.accepted
  | _, .more _ joins chains operand c => .more joins chains operand.accepted c.accepted

end

/-! ### Whole expressions -/

theorem Derivation.tokens_ne_nil (d : Derivation level) : d.tokens ≠ [] := by
  intro h
  have hnone : Parser.phrase 8 level [] = .error .unexpectedEnd := by cases level <;> rfl
  obtain ⟨t, ht⟩ := d.accepted 8 [] [] h.symm trivial (by rw [h, List.length_nil]; omega)
  rw [List.nil_append, hnone] at ht
  cases ht

/-- The parser reads the tokens of every derivation as its term. -/
theorem parse_complete (d : Derivation .disjunction)
    (h : tokens.map Lexeme.token = d.tokens) :
    ∃ t, Parser.parse tokens = .ok t ∧ t.map Occurrence.name = d.term := by
  have hne : tokens.isEmpty = false := by
    cases tokens with
    | nil => exact (d.tokens_ne_nil h.symm).elim
    | cons => rfl
  have hlength : d.tokens.length = tokens.length := by rw [← h, List.length_map]
  obtain ⟨t, ht⟩ := d.accepted (8 * tokens.length + 8) tokens [] h trivial
    (by rw [hlength]; omega)
  rw [List.append_nil] at ht
  have hparse : Parser.parse tokens = .ok t := by
    rw [Parser.parse, hne, if_neg Bool.false_ne_true, ht]
    rfl
  obtain ⟨d', htokens, hterm⟩ := parse_sound hparse
  rw [Derivation.eq_of_tokens (h.symm.trans htokens)]
  exact ⟨t, hparse, hterm⟩

end SelectionPlan
