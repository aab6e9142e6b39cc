import SelectionPlan.Proofs.Expression.Unambiguous
import SelectionPlan.Proofs.Triple

/-!
# What the parser reads

What the parser reads has a derivation, whose term it returns.
-/

namespace SelectionPlan

variable {level : Level} {fuel : Nat} {tokens rest : List Lexeme} {t left : Term Occurrence}

/-! ### The rules of the parser -/

theorem closing_eq_ok :
    Parser.closing tokens = .ok rest ↔
      ∃ start stop, tokens = ⟨.closeParen, start, stop⟩ :: rest := by
  constructor
  · intro h
    unfold Parser.closing at h
    split at h <;> cases h
    exact ⟨_, _, rfl⟩
  · rintro ⟨start, stop, rfl⟩
    rfl

theorem operator?_eq_some {op : BinaryOperator} :
    level.operator? tokens = some (op, rest) ↔
      level.joins op = true ∧ ∃ start stop, tokens = ⟨.binary op, start, stop⟩ :: rest := by
  constructor
  · intro h
    unfold Level.operator? at h
    split at h
    · split at h <;> cases h
      exact ⟨‹_›, _, _, rfl⟩
    · cases h
  · rintro ⟨hjoins, start, stop, rfl⟩
    simp only [Level.operator?, hjoins, if_true]

theorem operator?_eq_none (h : Stops level (rest.map Lexeme.token)) :
    level.operator? rest = none := by
  cases hop : level.operator? rest with
  | none => rfl
  | some found =>
      obtain ⟨op, after⟩ := found
      obtain ⟨joins, start, stop, rfl⟩ := operator?_eq_some.mp hop
      rw [List.map_cons] at h
      rw [h.not_joins] at joins
      cases joins

theorem Opens.exists_cons (h : Opens (tokens.map Lexeme.token)) :
    ∃ start stop rest, tokens = ⟨.openParen, start, stop⟩ :: rest := by
  cases tokens with
  | nil => exact h.elim
  | cons lexeme rest =>
      obtain ⟨token, start, stop⟩ := lexeme
      cases token with
      | openParen => exact ⟨start, stop, rest, rfl⟩
      | _ => exact h.elim

theorem phrase_binary (hlevel : level.isBinary = true) (fuel : Nat) (tokens : List Lexeme) :
    Parser.phrase (fuel + 1) level tokens = (do
      let (left, rest) ← Parser.phrase fuel level.operand tokens
      Parser.joined fuel level left rest) := by
  cases level with
  | signed | atom => cases hlevel
  | _ => rfl

theorem phrase_sign (s : Sign) (fuel start stop : Nat) (tokens : List Lexeme) :
    Parser.phrase (fuel + 1) .signed (⟨s.token, start, stop⟩ :: tokens) = (do
      let (operand, rest) ← Parser.phrase fuel .signed tokens
      return (s.term operand, rest)) := by
  cases s with
  | minus => rfl
  | bang => rfl
  | plus =>
      change Parser.phrase fuel .signed tokens = _
      cases Parser.phrase fuel .signed tokens <;> rfl

theorem phrase_signed (tokens : List Lexeme) :
    (∃ (s : Sign) (start stop : Nat) (rest : List Lexeme),
        tokens = ⟨s.token, start, stop⟩ :: rest) ∨
      ∀ fuel, Parser.phrase (fuel + 1) .signed tokens = Parser.phrase fuel .atom tokens := by
  cases tokens with
  | nil => exact .inr fun _ => rfl
  | cons lexeme rest =>
      obtain ⟨token, start, stop⟩ := lexeme
      cases token with
      | bang => exact .inl ⟨.bang, start, stop, rest, rfl⟩
      | binary op =>
          cases op with
          | sub => exact .inl ⟨.minus, start, stop, rest, rfl⟩
          | add => exact .inl ⟨.plus, start, stop, rest, rfl⟩
          | _ => exact .inr fun _ => rfl
      | _ => exact .inr fun _ => rfl

theorem phrase_group (fuel start stop : Nat) (tokens : List Lexeme) :
    Parser.phrase (fuel + 1) .atom (⟨.openParen, start, stop⟩ :: tokens) = (do
      let (inner, rest) ← Parser.phrase fuel .disjunction tokens
      let rest ← Parser.closing rest
      return (inner, rest)) := rfl

theorem phrase_identifier (fuel : Nat) (name : String) (start stop : Nat)
    (h : ¬ Opens (tokens.map Lexeme.token)) :
    Parser.phrase (fuel + 1) .atom (⟨.identifier name, start, stop⟩ :: tokens) =
      .ok (Parser.named name start stop, tokens) := by
  cases tokens with
  | nil => rfl
  | cons lexeme rest =>
      obtain ⟨token, start, stop⟩ := lexeme
      cases token with
      | openParen => exact (h trivial).elim
      | _ => rfl

theorem phrase_call {name : String} {f : Primitive} (hname : Primitive.ofName? name = some f)
    (fuel start stop start' stop' : Nat) (tokens : List Lexeme) :
    Parser.phrase (fuel + 1) .atom
        (⟨.identifier name, start, stop⟩ :: ⟨.openParen, start', stop'⟩ :: tokens) = (do
      let (first, rest) ← Parser.phrase fuel .disjunction tokens
      let (others, rest) ← Parser.moreArguments fuel rest
      let rest ← Parser.closing rest
      let call ← Parser.applied name f (first :: others)
      return (call, rest)) := by
  simp only [Parser.phrase, hname]

theorem moreArguments_comma (fuel start stop : Nat) (tokens : List Lexeme) :
    Parser.moreArguments (fuel + 1) (⟨.comma, start, stop⟩ :: tokens) = (do
      let (next, rest) ← Parser.phrase fuel .disjunction tokens
      let (others, rest) ← Parser.moreArguments fuel rest
      return (next :: others, rest)) := rfl

theorem moreArguments_cases (tokens : List Lexeme) :
    (∃ start stop rest, tokens = ⟨.comma, start, stop⟩ :: rest) ∨
      ∀ fuel, Parser.moreArguments (fuel + 1) tokens = .ok ([], tokens) := by
  cases tokens with
  | nil => exact .inr fun _ => rfl
  | cons lexeme rest =>
      obtain ⟨token, start, stop⟩ := lexeme
      cases token with
      | comma => exact .inl ⟨start, stop, rest, rfl⟩
      | _ => exact .inr fun _ => rfl

theorem applied_eq_ok {name : String} {f : Primitive} {arguments : List (Term Occurrence)} :
    Parser.applied name f arguments = .ok t ↔
      (∃ g x, f = .unary g ∧ arguments = [x] ∧ t = .call g x) ∨
        ∃ g x y, f = .binary g ∧ arguments = [x, y] ∧ t = .call₂ g x y := by
  constructor
  · intro h
    unfold Parser.applied at h
    split at h <;> cases h
    · exact .inl ⟨_, _, rfl, rfl, rfl⟩
    · exact .inr ⟨_, _, _, rfl, rfl, rfl⟩
  · rintro (⟨g, x, rfl, rfl, rfl⟩ | ⟨g, x, y, rfl, rfl, rfl⟩) <;> rfl

theorem map_named (name : String) (start stop : Nat) :
    (Parser.named name start stop).map Occurrence.name = identifierTerm name := by
  rw [Parser.named, identifierTerm]
  split
  · rfl
  · split <;> rfl

theorem Sign.map_term {α β : Type} (s : Sign) (f : α → β) (t : Term α) :
    (s.term t).map f = s.term (t.map f) := by
  cases s <;> rfl

/-! ### What is read is derived -/

def Read (level : Level) (tokens : List Lexeme) (t : Term Occurrence) (rest : List Lexeme) :
    Prop :=
  ∃ d : Derivation level, tokens.map Lexeme.token = d.tokens ++ rest.map Lexeme.token ∧
    t.map Occurrence.name = d.term

def ReadOn (level : Level) (left : Term Occurrence) (tokens : List Lexeme) (t : Term Occurrence)
    (rest : List Lexeme) : Prop :=
  ∃ c : Continuation level, tokens.map Lexeme.token = c.tokens ++ rest.map Lexeme.token ∧
    t.map Occurrence.name = c.term (left.map Occurrence.name)

def ReadArguments (tokens : List Lexeme) (ts : List (Term Occurrence)) (rest : List Lexeme) :
    Prop :=
  ∃ ds : List (Derivation .disjunction),
    tokens.map Lexeme.token =
        ds.flatMap (fun d => .comma :: d.tokens) ++ rest.map Lexeme.token ∧
      ts.map (Term.map Occurrence.name) = ds.map Derivation.term

structure Reads (fuel : Nat) : Prop where
  phrase {level : Level} {tokens rest : List Lexeme} {t : Term Occurrence} :
    Parser.phrase fuel level tokens = .ok (t, rest) → Read level tokens t rest
  joined {level : Level} {left t : Term Occurrence} {tokens rest : List Lexeme} :
    Parser.joined fuel level left tokens = .ok (t, rest) → ReadOn level left tokens t rest
  moreArguments {tokens rest : List Lexeme} {ts : List (Term Occurrence)} :
    Parser.moreArguments fuel tokens = .ok (ts, rest) → ReadArguments tokens ts rest

namespace Reads

theorem joined_succ (ih : Reads fuel)
    (h : Parser.joined (fuel + 1) level left tokens = .ok (t, rest)) :
    ReadOn level left tokens t rest := by
  rw [Parser.joined] at h
  split at h
  · cases h
    exact ⟨.stop, rfl, rfl⟩
  · rename_i op after hop
    obtain ⟨joins, start, stop, rfl⟩ := operator?_eq_some.mp hop
    obtain ⟨⟨right, after'⟩, hright, h⟩ := bind_eq_ok.mp h
    obtain ⟨operand, htokens, hterm⟩ := ih.phrase hright
    simp only at h
    split at h
    · rename_i chains
      obtain ⟨c, htokens', hterm'⟩ := ih.joined h
      refine ⟨.more op joins chains operand c, ?_, ?_⟩
      · simp only [List.map_cons, htokens, htokens', Continuation.tokens, List.cons_append,
          List.append_assoc]
      · rw [hterm', Continuation.term, Term.map, hterm]
    · rename_i single
      cases h
      refine ⟨.once op joins (by simpa using single) operand, ?_, ?_⟩
      · simp only [List.map_cons, htokens, Continuation.tokens, List.cons_append]
      · rw [Continuation.term, Term.map, hterm]

theorem binary (ih : Reads fuel) (hlevel : level.isBinary = true)
    (h : Parser.phrase (fuel + 1) level tokens = .ok (t, rest)) : Read level tokens t rest := by
  rw [phrase_binary hlevel] at h
  obtain ⟨⟨left, after⟩, hleft, h⟩ := bind_eq_ok.mp h
  obtain ⟨first, htokens, hterm⟩ := ih.phrase hleft
  obtain ⟨c, htokens', hterm'⟩ := ih.joined h
  refine ⟨.joined hlevel first c, ?_, ?_⟩
  · rw [htokens, htokens', Derivation.tokens, List.append_assoc]
  · rw [hterm', hterm, Derivation.term]

theorem signed (ih : Reads fuel)
    (h : Parser.phrase (fuel + 1) .signed tokens = .ok (t, rest)) : Read .signed tokens t rest := by
  rcases phrase_signed tokens with ⟨s, start, stop, after, rfl⟩ | hatom
  · rw [phrase_sign] at h
    obtain ⟨⟨u, after'⟩, hoperand, h⟩ := bind_eq_ok.mp h
    cases h
    obtain ⟨operand, htokens, hterm⟩ := ih.phrase hoperand
    refine ⟨.sign s operand, ?_, ?_⟩
    · rw [List.map_cons, htokens, Derivation.tokens, List.cons_append]
    · rw [s.map_term, hterm, Derivation.term]
  · rw [hatom] at h
    obtain ⟨phrase, htokens, hterm⟩ := ih.phrase h
    exact ⟨.atom phrase, htokens, hterm⟩

theorem call (ih : Reads fuel) {name : String} {start stop start' stop' : Nat}
    (h : Parser.phrase (fuel + 1) .atom
      (⟨.identifier name, start, stop⟩ :: ⟨.openParen, start', stop'⟩ :: tokens) = .ok (t, rest)) :
    Read .atom (⟨.identifier name, start, stop⟩ :: ⟨.openParen, start', stop'⟩ :: tokens) t
      rest := by
  cases hname : Primitive.ofName? name with
  | none => simp [Parser.phrase, hname] at h
  | some f =>
      rw [phrase_call hname] at h
      obtain ⟨⟨x, after⟩, hfirst, h⟩ := bind_eq_ok.mp h
      obtain ⟨⟨others, after'⟩, hothers, h⟩ := bind_eq_ok.mp h
      obtain ⟨after'', hclose, h⟩ := bind_eq_ok.mp h
      obtain ⟨u, happlied, h⟩ := bind_eq_ok.mp h
      cases h
      obtain ⟨start'', stop'', rfl⟩ := closing_eq_ok.mp hclose
      obtain ⟨first, htokens, hterm⟩ := ih.phrase hfirst
      obtain ⟨ds, htokens', hterms⟩ := ih.moreArguments hothers
      rcases applied_eq_ok.mp happlied with ⟨g, x', rfl, hall, rfl⟩ | ⟨g, x', y, rfl, hall, rfl⟩
      · cases hall
        obtain rfl : ds = [] := List.map_eq_nil_iff.mp hterms.symm
        refine ⟨.call name g hname first, ?_, ?_⟩
        · simp [htokens, htokens', Derivation.tokens]
        · rw [Term.map, hterm, Derivation.term]
      · cases hall
        obtain ⟨second, rfl, hterm'⟩ := List.map_eq_singleton_iff.mp hterms.symm
        refine ⟨.call₂ name g hname first second, ?_, ?_⟩
        · simp [htokens, htokens', Derivation.tokens]
        · rw [Term.map, hterm, ← hterm', Derivation.term]

theorem atom (ih : Reads fuel) (h : Parser.phrase (fuel + 1) .atom tokens = .ok (t, rest)) :
    Read .atom tokens t rest := by
  cases tokens with
  | nil => cases h
  | cons lexeme after =>
      obtain ⟨token, start, stop⟩ := lexeme
      cases token with
      | number value =>
          cases h
          exact ⟨.number value, rfl, rfl⟩
      | openParen =>
          rw [phrase_group] at h
          obtain ⟨⟨u, after'⟩, hinner, h⟩ := bind_eq_ok.mp h
          obtain ⟨after'', hclose, h⟩ := bind_eq_ok.mp h
          cases h
          obtain ⟨start', stop', rfl⟩ := closing_eq_ok.mp hclose
          obtain ⟨inner, htokens, hterm⟩ := ih.phrase hinner
          refine ⟨.group inner, ?_, hterm⟩
          simp [htokens, Derivation.tokens]
      | identifier name =>
          by_cases hopens : Opens (after.map Lexeme.token)
          · obtain ⟨start', stop', after', rfl⟩ := hopens.exists_cons
            exact ih.call h
          · rw [phrase_identifier fuel name start stop hopens] at h
            cases h
            exact ⟨.identifier name, rfl, map_named name start stop⟩
      | _ => cases h

theorem moreArguments_succ (ih : Reads fuel) {ts : List (Term Occurrence)}
    (h : Parser.moreArguments (fuel + 1) tokens = .ok (ts, rest)) :
    ReadArguments tokens ts rest := by
  rcases moreArguments_cases tokens with ⟨start, stop, after, rfl⟩ | hstop
  · rw [moreArguments_comma] at h
    obtain ⟨⟨x, after⟩, hnext, h⟩ := bind_eq_ok.mp h
    obtain ⟨⟨others, after'⟩, hothers, h⟩ := bind_eq_ok.mp h
    cases h
    obtain ⟨d, htokens, hterm⟩ := ih.phrase hnext
    obtain ⟨ds, htokens', hterms⟩ := ih.moreArguments hothers
    refine ⟨d :: ds, ?_, ?_⟩
    · simp [htokens, htokens']
    · simp [hterm, hterms]
  · rw [hstop] at h
    cases h
    exact ⟨[], rfl, rfl⟩

end Reads

theorem reads (fuel : Nat) : Reads fuel := by
  induction fuel with
  | zero => exact ⟨nofun, nofun, nofun⟩
  | succ fuel ih =>
      refine ⟨fun {level _ _ _} h => ?_, ih.joined_succ, ih.moreArguments_succ⟩
      cases hlevel : level.isBinary with
      | true => exact ih.binary hlevel h
      | false =>
          cases level with
          | signed => exact ih.signed h
          | atom => exact ih.atom h
          | _ => cases hlevel

/-- What the parser returns is the term of a derivation. -/
theorem parse_sound (h : Parser.parse tokens = .ok t) :
    ∃ d : Derivation .disjunction, tokens.map Lexeme.token = d.tokens ∧
      t.map Occurrence.name = d.term := by
  rw [Parser.parse] at h
  split at h
  · cases h
  · obtain ⟨⟨u, after⟩, hphrase, h⟩ := bind_eq_ok.mp h
    cases after with
    | nil =>
        cases h
        obtain ⟨d, htokens, hterm⟩ := (reads _).phrase hphrase
        exact ⟨d, by rw [htokens, List.map_nil, List.append_nil], hterm⟩
    | cons lexeme after => cases h

end SelectionPlan
