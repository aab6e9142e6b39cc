import SelectionPlan.Expression.Parser

/-!
# Derivations of expressions

    disjunction = conjunction {'||' conjunction}
    conjunction = comparison {'&&' comparison}
    comparison  = sum [('<' | '<=' | '>' | '>=' | '==' | '!=') sum]
    sum         = product {('+' | '-') product}
    product     = signed {('*' | '/') signed}
    signed      = ('-' | '!' | '+') signed | atom
    atom        = number | identifier | '(' disjunction ')'
                | function '(' disjunction {',' disjunction} ')'

A function gets as many arguments as it takes.  No rule puts a parenthesis after an identifier, so
an identifier is a function exactly if one follows.  A derivation denotes the value of a term, and
names the columns of it.
-/

namespace SelectionPlan

/-! ### Rules -/

def Level.isBinary : Level → Bool
  | .signed | .atom => false
  | _ => true

inductive Sign
  | minus | bang | plus

namespace Sign

def token : Sign → Token
  | minus => .binary .sub
  | bang => .bang
  | plus => .binary .add

def apply : Sign → Float → Float
  | minus, x => -x
  | bang, x => truthValue (!truthy x)
  | plus, x => x

def term {α : Type} : Sign → Term α → Term α
  | minus, t => .negate t
  | bang, t => .not t
  | plus, t => t

end Sign

mutual

/-- The derivations of the phrases of a level. -/
inductive Derivation : Level → Type
  | joined {level : Level} (binary : level.isBinary = true) (first : Derivation level.operand)
      (rest : Continuation level) : Derivation level
  | sign (s : Sign) (operand : Derivation .signed) : Derivation .signed
  | atom (phrase : Derivation .atom) : Derivation .signed
  | number (value : Float) : Derivation .atom
  | identifier (name : String) : Derivation .atom
  | group (inner : Derivation .disjunction) : Derivation .atom
  | call (name : String) (f : UnaryPrimitive) (named : Primitive.ofName? name = some (.unary f))
      (argument : Derivation .disjunction) : Derivation .atom
  | call₂ (name : String) (f : BinaryPrimitive) (named : Primitive.ofName? name = some (.binary f))
      (first second : Derivation .disjunction) : Derivation .atom

/-- What follows the first operand of a level: operators, each with one more operand, at most one
where they do not chain. -/
inductive Continuation : Level → Type
  | stop {level : Level} : Continuation level
  | once {level : Level} (op : BinaryOperator) (joins : level.joins op = true)
      (single : level.chains = false) (operand : Derivation level.operand) : Continuation level
  | more {level : Level} (op : BinaryOperator) (joins : level.joins op = true)
      (chains : level.chains = true) (operand : Derivation level.operand)
      (rest : Continuation level) : Continuation level

end

mutual

def Derivation.tokens {level : Level} : Derivation level → List Token
  | .joined _ first rest => first.tokens ++ rest.tokens
  | .sign s operand => s.token :: operand.tokens
  | .atom phrase => phrase.tokens
  | .number value => [.number value]
  | .identifier name => [.identifier name]
  | .group inner => .openParen :: (inner.tokens ++ [.closeParen])
  | .call name _ _ argument =>
    .identifier name :: .openParen :: (argument.tokens ++ [.closeParen])
  | .call₂ name _ _ first second =>
    .identifier name :: .openParen :: (first.tokens ++ .comma :: (second.tokens ++ [.closeParen]))

def Continuation.tokens {level : Level} : Continuation level → List Token
  | .stop => []
  | .once op _ _ operand => .binary op :: operand.tokens
  | .more op _ _ operand rest => .binary op :: (operand.tokens ++ rest.tokens)

end

def identifierValue (env : String → Float) (name : String) : Float :=
  if name = "true" then 1 else if name = "false" then 0 else env name

mutual

/-- The value of a phrase.  The operands of a level are joined from the left. -/
def Derivation.denote (env : String → Float) {level : Level} : Derivation level → Float
  | .joined _ first rest => rest.denote env (first.denote env)
  | .sign s operand => s.apply (operand.denote env)
  | .atom phrase => phrase.denote env
  | .number value => value
  | .identifier name => identifierValue env name
  | .group inner => inner.denote env
  | .call _ f _ argument => f.apply (argument.denote env)
  | .call₂ _ f _ first second => f.apply (first.denote env) (second.denote env)

def Continuation.denote (env : String → Float) {level : Level} :
    Continuation level → Float → Float
  | .stop, left => left
  | .once op _ _ operand, left => op.apply left (operand.denote env)
  | .more op _ _ operand rest, left => rest.denote env (op.apply left (operand.denote env))

end

/-! ### Terms -/

def identifierTerm (name : String) : Term String :=
  if name = "true" then .constant 1 else if name = "false" then .constant 0 else .column name

mutual

def Derivation.term {level : Level} : Derivation level → Term String
  | .joined _ first rest => rest.term first.term
  | .sign s operand => s.term operand.term
  | .atom phrase => phrase.term
  | .number value => .constant value
  | .identifier name => identifierTerm name
  | .group inner => inner.term
  | .call _ f _ argument => .call f argument.term
  | .call₂ _ f _ first second => .call₂ f first.term second.term

def Continuation.term {level : Level} : Continuation level → Term String → Term String
  | .stop, left => left
  | .once op _ _ operand, left => .binary op left operand.term
  | .more op _ _ operand rest, left => rest.term (.binary op left operand.term)

end

theorem Sign.eval_term {α : Type} (s : Sign) (t : Term α) (env : α → Float) :
    (s.term t).eval env = s.apply (t.eval env) := by
  cases s <;> rfl

theorem eval_identifierTerm (env : String → Float) (name : String) :
    (identifierTerm name).eval env = identifierValue env name := by
  rw [identifierTerm, identifierValue]
  split
  · rfl
  · split <;> rfl

mutual

theorem Derivation.eval_term (env : String → Float) {level : Level} :
    (d : Derivation level) → d.term.eval env = d.denote env
  | .joined _ first rest => by
      rw [Derivation.term, Derivation.denote, rest.eval_term env, first.eval_term env]
  | .sign s operand => by
      rw [Derivation.term, Derivation.denote, Sign.eval_term, operand.eval_term env]
  | .atom phrase => phrase.eval_term env
  | .number _ => rfl
  | .identifier name => eval_identifierTerm env name
  | .group inner => inner.eval_term env
  | .call _ f _ argument => by
      rw [Derivation.term, Derivation.denote, Term.eval, argument.eval_term env]
  | .call₂ _ f _ first second => by
      rw [Derivation.term, Derivation.denote, Term.eval, first.eval_term env,
        second.eval_term env]

theorem Continuation.eval_term (env : String → Float) {level : Level} :
    (c : Continuation level) → (left : Term String) →
      (c.term left).eval env = c.denote env (left.eval env)
  | .stop, _ => rfl
  | .once op _ _ operand, _ => by
      rw [Continuation.term, Continuation.denote, Term.eval, operand.eval_term env]
  | .more op _ _ operand rest, _ => by
      rw [Continuation.term, Continuation.denote, rest.eval_term env, Term.eval,
        operand.eval_term env]

end

/-! ### Columns -/

/-- The columns that some tokens name, in order: the identifiers that are neither called nor truth
values. -/
def columnNames : List Token → List String
  | [] => []
  | .identifier _ :: .openParen :: rest => columnNames rest
  | .identifier name :: rest =>
    if name = "true" ∨ name = "false" then columnNames rest else name :: columnNames rest
  | _ :: rest => columnNames rest

/-- Whether some tokens start with a parenthesis, which makes a call of an identifier before it. -/
def Opens : List Token → Prop
  | .openParen :: _ => True
  | _ => False

theorem not_opens_closeParen (rest : List Token) : ¬ Opens (.closeParen :: rest) := id

theorem columnNames_identifier {name : String} {rest : List Token} (h : ¬ Opens rest) :
    columnNames (.identifier name :: rest) = (identifierTerm name).leaves ++ columnNames rest := by
  have hnames : columnNames (.identifier name :: rest) =
      if name = "true" ∨ name = "false" then columnNames rest else name :: columnNames rest := by
    cases rest with
    | nil => rfl
    | cons t rest =>
        cases t with
        | openParen => exact (h trivial).elim
        | _ => rfl
  rw [hnames, identifierTerm]
  by_cases htrue : name = "true"
  · simp [htrue, Term.leaves]
  · by_cases hfalse : name = "false" <;> simp [htrue, hfalse, Term.leaves]

theorem Sign.leaves_term {α : Type} (s : Sign) (t : Term α) : (s.term t).leaves = t.leaves := by
  cases s <;> rfl

theorem Sign.columnNames_token (s : Sign) (rest : List Token) :
    columnNames (s.token :: rest) = columnNames rest := by
  cases s <;> rfl

theorem Continuation.not_opens {level : Level} (c : Continuation level) {rest : List Token}
    (h : ¬ Opens rest) : ¬ Opens (c.tokens ++ rest) := by
  cases c with
  | stop => exact h
  | once | more => exact id

mutual

theorem Derivation.columnNames_tokens {level : Level} : (d : Derivation level) →
    {rest : List Token} → ¬ Opens rest →
      columnNames (d.tokens ++ rest) = d.term.leaves ++ columnNames rest
  | .joined _ first c, rest, h => by
      rw [Derivation.tokens, List.append_assoc, first.columnNames_tokens (c.not_opens h)]
      exact (c.columnNames_tokens h first.term).symm
  | .sign s operand, rest, h => by
      rw [Derivation.tokens, List.cons_append, s.columnNames_token, operand.columnNames_tokens h,
        Derivation.term, s.leaves_term]
  | .atom phrase, _, h => phrase.columnNames_tokens h
  | .number _, _, _ => rfl
  | .identifier _, _, h => columnNames_identifier h
  | .group inner, rest, _ => by
      rw [Derivation.tokens, List.cons_append, List.append_assoc]
      exact inner.columnNames_tokens (not_opens_closeParen rest)
  | .call _ _ _ argument, rest, _ => by
      rw [Derivation.tokens, List.cons_append, List.cons_append, List.append_assoc]
      exact argument.columnNames_tokens (not_opens_closeParen rest)
  | .call₂ _ _ _ first second, rest, _ => by
      have hsecond : columnNames (second.tokens ++ .closeParen :: rest) =
          second.term.leaves ++ columnNames rest :=
        second.columnNames_tokens (not_opens_closeParen rest)
      simp only [Derivation.tokens, List.cons_append, List.append_assoc, List.nil_append]
      refine (first.columnNames_tokens id).trans ?_
      rw [Derivation.term, Term.leaves, List.append_assoc, ← hsecond]
      rfl

theorem Continuation.columnNames_tokens {level : Level} : (c : Continuation level) →
    {rest : List Token} → ¬ Opens rest → (left : Term String) →
      (c.term left).leaves ++ columnNames rest = left.leaves ++ columnNames (c.tokens ++ rest)
  | .stop, _, _, _ => rfl
  | .once op _ _ operand, rest, h, left => by
      rw [Continuation.term, Term.leaves, List.append_assoc, ← operand.columnNames_tokens h]
      rfl
  | .more op _ _ operand c, rest, h, left => by
      rw [Continuation.term, c.columnNames_tokens h, Term.leaves, List.append_assoc,
        ← operand.columnNames_tokens (c.not_opens h), Continuation.tokens, List.cons_append,
        List.append_assoc]
      rfl

end

end SelectionPlan
