import SelectionPlan.Proofs.Expression.Parsing

/-!
# Where the columns stand

The term of an expression keeps every place where the text names a column.  These are the places of
the identifiers that are neither called nor truth values, in the order of the text.
-/

namespace SelectionPlan

/-- The column that a token names in front of another one: an identifier that is neither called nor
a truth value. -/
def Token.column? (t : Token) (next : Option Token) : Option String :=
  match t, next with
  | .identifier _, some .openParen => none
  | .identifier name, _ => if name = "true" ∨ name = "false" then none else some name
  | _, _ => none

def occurrences : List Lexeme → List Occurrence
  | [] => []
  | l :: rest =>
    ((l.token.column? (rest.head?.map Lexeme.token)).map fun name =>
      ⟨name, l.start, l.stop⟩).toList ++ occurrences rest

variable {level : Level} {fuel : Nat} {tokens rest : List Lexeme} {t left : Term Occurrence}

theorem Token.column?_eq_none {t : Token} (h : ∀ name, t ≠ .identifier name)
    (next : Option Token) : t.column? next = none := by
  cases t with
  | identifier name => exact absurd rfl (h name)
  | _ => rfl

theorem Token.column?_identifier (name : String) {next : Option Token}
    (h : next ≠ some .openParen) : (Token.identifier name).column? next =
      if name = "true" ∨ name = "false" then none else some name := by
  cases next with
  | none => rfl
  | some t =>
      cases t with
      | openParen => exact absurd rfl h
      | _ => rfl

theorem Token.column?_eq_some {t : Token} {next : Option Token} {name : String}
    (h : t.column? next = some name) : t = .identifier name := by
  cases t with
  | identifier word =>
      by_cases hnext : next = some .openParen
      · simp [hnext, Token.column?] at h
      · rw [Token.column?_identifier word hnext] at h
        split at h <;> simp_all
  | _ => cases h

theorem occurrences_cons {token : Token} (h : ∀ name, token ≠ .identifier name) (start stop : Nat)
    (rest : List Lexeme) : occurrences (⟨token, start, stop⟩ :: rest) = occurrences rest := by
  simp [occurrences, Token.column?_eq_none h]

theorem opens_of_head {tokens : List Token} (h : tokens.head? = some .openParen) :
    Opens tokens := by
  obtain ⟨rest, rfl⟩ := List.head?_eq_some_iff.mp h
  trivial

theorem occurrences_identifier {name : String} (start stop : Nat)
    (h : ¬ Opens (rest.map Lexeme.token)) :
    occurrences (⟨.identifier name, start, stop⟩ :: rest) =
      (Parser.named name start stop).leaves ++ occurrences rest := by
  have hnext : rest.head?.map Lexeme.token ≠ some .openParen := by
    rw [← List.head?_map]
    exact fun hopen => h (opens_of_head hopen)
  rw [occurrences, Token.column?_identifier name hnext, Parser.named]
  by_cases htrue : name = "true"
  · simp [htrue, Term.leaves]
  · by_cases hfalse : name = "false" <;> simp [htrue, hfalse, Term.leaves]

theorem Sign.token_ne_identifier (s : Sign) (name : String) : s.token ≠ .identifier name := by
  cases s <;> simp [Sign.token]

structure KeepsPlaces (fuel : Nat) : Prop where
  phrase {level : Level} {tokens rest : List Lexeme} {t : Term Occurrence} :
    Parser.phrase fuel level tokens = .ok (t, rest) →
      t.leaves ++ occurrences rest = occurrences tokens
  joined {level : Level} {left t : Term Occurrence} {tokens rest : List Lexeme} :
    Parser.joined fuel level left tokens = .ok (t, rest) →
      t.leaves ++ occurrences rest = left.leaves ++ occurrences tokens
  moreArguments {tokens rest : List Lexeme} {ts : List (Term Occurrence)} :
    Parser.moreArguments fuel tokens = .ok (ts, rest) →
      ts.flatMap Term.leaves ++ occurrences rest = occurrences tokens

namespace KeepsPlaces

theorem joined_succ (ih : KeepsPlaces fuel)
    (h : Parser.joined (fuel + 1) level left tokens = .ok (t, rest)) :
    t.leaves ++ occurrences rest = left.leaves ++ occurrences tokens := by
  rw [Parser.joined] at h
  split at h
  · cases h
    rfl
  · rename_i op after hop
    obtain ⟨_, start, stop, rfl⟩ := operator?_eq_some.mp hop
    obtain ⟨⟨right, after'⟩, hright, h⟩ := bind_eq_ok.mp h
    have hplaces : (Term.binary op left right).leaves ++ occurrences after' =
        left.leaves ++ occurrences after := by
      rw [Term.leaves, List.append_assoc, ih.phrase hright]
    simp only at h
    split at h
    · exact (ih.joined h).trans hplaces
    · cases h
      exact hplaces

theorem call (ih : KeepsPlaces fuel) {name : String} {start stop start' stop' : Nat}
    (h : Parser.phrase (fuel + 1) .atom
      (⟨.identifier name, start, stop⟩ :: ⟨.openParen, start', stop'⟩ :: tokens) = .ok (t, rest)) :
    t.leaves ++ occurrences rest =
      occurrences (⟨.identifier name, start, stop⟩ :: ⟨.openParen, start', stop'⟩ :: tokens) := by
  change _ = occurrences tokens
  cases hname : Primitive.ofName? name with
  | none => simp [Parser.phrase, hname] at h
  | some f =>
      rw [phrase_call hname] at h
      obtain ⟨⟨x, after⟩, hfirst, h⟩ := bind_eq_ok.mp h
      obtain ⟨⟨others, after'⟩, hothers, h⟩ := bind_eq_ok.mp h
      obtain ⟨after'', hclose, h⟩ := bind_eq_ok.mp h
      obtain ⟨u, happlied, h⟩ := bind_eq_ok.mp h
      cases h
      obtain ⟨start'', stop'', rfl⟩ := closing_eq_ok.mp hclose
      have hfirst := ih.phrase hfirst
      have hothers := ih.moreArguments hothers
      rw [occurrences_cons (by simp)] at hothers
      have harguments : t.leaves = (x :: others).flatMap Term.leaves := by
        rcases applied_eq_ok.mp happlied with ⟨g, y, _, hall, rfl⟩ | ⟨g, y, z, _, hall, rfl⟩ <;>
          simp [hall, Term.leaves]
      rw [harguments, List.flatMap_cons, List.append_assoc, hothers, hfirst]

theorem atom (ih : KeepsPlaces fuel) (h : Parser.phrase (fuel + 1) .atom tokens = .ok (t, rest)) :
    t.leaves ++ occurrences rest = occurrences tokens := by
  cases tokens with
  | nil => cases h
  | cons lexeme after =>
      obtain ⟨token, start, stop⟩ := lexeme
      cases token with
      | number value =>
          cases h
          rfl
      | openParen =>
          rw [phrase_group] at h
          obtain ⟨⟨u, after'⟩, hinner, h⟩ := bind_eq_ok.mp h
          obtain ⟨after'', hclose, h⟩ := bind_eq_ok.mp h
          cases h
          obtain ⟨start', stop', rfl⟩ := closing_eq_ok.mp hclose
          have hinner := ih.phrase hinner
          rw [occurrences_cons (by simp)] at hinner
          rw [hinner, occurrences_cons (by simp)]
      | identifier name =>
          by_cases hopens : Opens (after.map Lexeme.token)
          · obtain ⟨start', stop', after', rfl⟩ := hopens.exists_cons
            exact ih.call h
          · rw [phrase_identifier fuel name start stop hopens] at h
            cases h
            rw [occurrences_identifier start stop hopens]
      | _ => cases h

theorem signed (ih : KeepsPlaces fuel)
    (h : Parser.phrase (fuel + 1) .signed tokens = .ok (t, rest)) :
    t.leaves ++ occurrences rest = occurrences tokens := by
  rcases phrase_signed tokens with ⟨s, start, stop, after, rfl⟩ | hatom
  · rw [phrase_sign] at h
    obtain ⟨⟨u, after'⟩, hoperand, h⟩ := bind_eq_ok.mp h
    cases h
    rw [s.leaves_term, ih.phrase hoperand, occurrences_cons s.token_ne_identifier]
  · rw [hatom] at h
    exact ih.phrase h

theorem binary (ih : KeepsPlaces fuel) (hlevel : level.isBinary = true)
    (h : Parser.phrase (fuel + 1) level tokens = .ok (t, rest)) :
    t.leaves ++ occurrences rest = occurrences tokens := by
  rw [phrase_binary hlevel] at h
  obtain ⟨⟨first, after⟩, hfirst, h⟩ := bind_eq_ok.mp h
  exact (ih.joined h).trans (ih.phrase hfirst)

theorem moreArguments_succ (ih : KeepsPlaces fuel) {ts : List (Term Occurrence)}
    (h : Parser.moreArguments (fuel + 1) tokens = .ok (ts, rest)) :
    ts.flatMap Term.leaves ++ occurrences rest = occurrences tokens := by
  rcases moreArguments_cases tokens with ⟨start, stop, after, rfl⟩ | hstop
  · rw [moreArguments_comma] at h
    obtain ⟨⟨x, after⟩, hnext, h⟩ := bind_eq_ok.mp h
    obtain ⟨⟨others, after'⟩, hothers, h⟩ := bind_eq_ok.mp h
    cases h
    rw [List.flatMap_cons, List.append_assoc, ih.moreArguments hothers, ih.phrase hnext,
      occurrences_cons (by simp)]
  · rw [hstop] at h
    cases h
    rfl

end KeepsPlaces

theorem keepsPlaces (fuel : Nat) : KeepsPlaces fuel := by
  induction fuel with
  | zero => exact ⟨nofun, nofun, nofun⟩
  | succ fuel ih =>
      refine ⟨fun {level _ _ _} h => ?_, ih.joined_succ, ih.moreArguments_succ⟩
      cases hlevel : level.isBinary with
      | true => exact ih.binary hlevel h
      | false =>
          cases level with
          | signed => exact ih.signed h
          | atom => exact ih.atom h
          | _ => cases hlevel

/-- The leaves of a parsed term are the places where the text names a column. -/
theorem leaves_of_parse (h : Parser.parse tokens = .ok t) : t.leaves = occurrences tokens := by
  rw [Parser.parse] at h
  split at h
  · cases h
  · obtain ⟨⟨u, after⟩, hphrase, h⟩ := bind_eq_ok.mp h
    have hplaces := (keepsPlaces _).phrase hphrase
    cases after with
    | nil =>
        cases h
        rw [← hplaces, occurrences, List.append_nil]
    | cons lexeme after => cases h

end SelectionPlan
