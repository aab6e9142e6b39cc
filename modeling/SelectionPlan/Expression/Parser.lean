import SelectionPlan.Expression.Lexer
import SelectionPlan.Expression.Term
/-!
# The grammar of expressions

Binary operators have five levels of precedence.  Operators of one level associate to the left,
but a comparison takes two operands only.  Below them stand the signs and the negation, and below
those the atoms: numbers, columns, calls and parenthesised expressions.
-/

namespace SelectionPlan

structure Occurrence where
  name : String
  start : Nat
  stop : Nat
  deriving DecidableEq, Repr

/-- The phrases of the grammar, the loosest first. -/
inductive Level
  | disjunction | conjunction | comparison | sum | product | signed | atom
  deriving DecidableEq, Repr

namespace Level

def operand : Level → Level
  | disjunction => conjunction
  | conjunction => comparison
  | comparison => sum
  | sum => product
  | product => signed
  | signed | atom => atom

def joins : Level → BinaryOperator → Bool
  | disjunction, .or => true
  | conjunction, .and => true
  | comparison, .lt | comparison, .le | comparison, .gt | comparison, .ge
  | comparison, .eq | comparison, .ne => true
  | sum, .add | sum, .sub => true
  | product, .mul | product, .div => true
  | _, _ => false

/-- Whether a level joins more than two operands. -/
def chains : Level → Bool
  | comparison => false
  | _ => true

def operator? (level : Level) : List Lexeme → Option (BinaryOperator × List Lexeme)
  | ⟨.binary op, _, _⟩ :: rest => if level.joins op then some (op, rest) else none
  | _ => none

end Level

namespace Parser

def closing : List Lexeme → Except SyntaxFault (List Lexeme)
  | ⟨.closeParen, _, _⟩ :: rest => .ok rest
  | lexeme :: _ => .error (.expected .closeParen (some lexeme.token))
  | [] => .error (.expected .closeParen none)

def applied (name : String) (f : Primitive) (arguments : List (Term Occurrence)) :
    Except SyntaxFault (Term Occurrence) :=
  match f, arguments with
  | .unary f, [x] => .ok (.call f x)
  | .binary f, [x, y] => .ok (.call₂ f x y)
  | f, arguments => .error (.wrongArity name f.arity arguments.length)

def named (name : String) (start stop : Nat) : Term Occurrence :=
  if name = "true" then .constant 1
  else if name = "false" then .constant 0
  else .column ⟨name, start, stop⟩

mutual

/-- A phrase of the given level at the head of some tokens.  `fuel` bounds the depth of the
grammar's rules; eight for each token and eight more are enough. -/
def phrase (fuel : Nat) (level : Level) (tokens : List Lexeme) :
    Except SyntaxFault (Term Occurrence × List Lexeme) :=
  match fuel with
  | 0 => .error .unexpectedEnd
  | fuel + 1 =>
    match level with
    | .atom =>
      match tokens with
      | [] => .error .unexpectedEnd
      | ⟨.number value, _, _⟩ :: rest => .ok (.constant value, rest)
      | ⟨.openParen, _, _⟩ :: rest => do
        let (inner, rest) ← phrase fuel .disjunction rest
        let rest ← closing rest
        return (inner, rest)
      | ⟨.identifier name, start, stop⟩ :: rest =>
        match rest with
        | ⟨.openParen, _, _⟩ :: rest =>
          match Primitive.ofName? name with
          | none => .error (.unknownFunction name)
          | some f => do
            let (first, rest) ← phrase fuel .disjunction rest
            let (others, rest) ← moreArguments fuel rest
            let rest ← closing rest
            let call ← applied name f (first :: others)
            return (call, rest)
        | rest => .ok (named name start stop, rest)
      | lexeme :: _ => .error (.unexpected lexeme.token)
    | .signed =>
      match tokens with
      | ⟨.binary .sub, _, _⟩ :: rest => do
        let (operand, rest) ← phrase fuel .signed rest
        return (.negate operand, rest)
      | ⟨.bang, _, _⟩ :: rest => do
        let (operand, rest) ← phrase fuel .signed rest
        return (.not operand, rest)
      | ⟨.binary .add, _, _⟩ :: rest => phrase fuel .signed rest
      | tokens => phrase fuel .atom tokens
    | level => do
      let (left, rest) ← phrase fuel level.operand tokens
      joined fuel level left rest

def joined (fuel : Nat) (level : Level) (left : Term Occurrence) (tokens : List Lexeme) :
    Except SyntaxFault (Term Occurrence × List Lexeme) :=
  match fuel with
  | 0 => .error .unexpectedEnd
  | fuel + 1 =>
    match level.operator? tokens with
    | none => .ok (left, tokens)
    | some (op, rest) => do
      let (right, rest) ← phrase fuel level.operand rest
      if level.chains then joined fuel level (.binary op left right) rest
      else return (.binary op left right, rest)

def moreArguments (fuel : Nat) (tokens : List Lexeme) :
    Except SyntaxFault (List (Term Occurrence) × List Lexeme) :=
  match fuel with
  | 0 => .error .unexpectedEnd
  | fuel + 1 =>
    match tokens with
    | ⟨.comma, _, _⟩ :: rest => do
      let (next, rest) ← phrase fuel .disjunction rest
      let (others, rest) ← moreArguments fuel rest
      return (next :: others, rest)
    | tokens => .ok ([], tokens)

end

def parse (tokens : List Lexeme) : Except SyntaxFault (Term Occurrence) :=
  if tokens.isEmpty then .error .empty
  else do
    let (term, rest) ← phrase (8 * tokens.length + 8) .disjunction tokens
    match rest with
    | [] => return term
    | lexeme :: _ => throw (.trailing lexeme.token)

end Parser
end SelectionPlan
