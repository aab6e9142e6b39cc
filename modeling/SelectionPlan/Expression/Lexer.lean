import SelectionPlan.Expression.Token
/-!
# Splitting an expression into tokens

Blanks separate tokens and are dropped.  Every other character starts the longest token that
begins there; each token is kept with the range of characters it occupies.
-/

namespace SelectionPlan

def isBlank (c : Char) : Bool :=
  c == ' ' || c == '\t' || c == '\n' || c == '\x0c' || c == '\r'

def isIdentifierStart (c : Char) : Bool := c.isAlpha || c == '_'

def isIdentifierRest (c : Char) : Bool := c.isAlphanum || c == '_'

structure Lexeme where
  token : Token
  start : Nat
  stop : Nat
  deriving Repr

namespace Lexer

/-- The exponent at the head of a text: empty unless a digit follows the mark and its sign. -/
def exponentText : List Char → List Char
  | [] => []
  | c :: rest =>
    if c = 'e' ∨ c = 'E' then
      let sign := rest.takeWhile (fun d => d == '+' || d == '-') |>.take 1
      let digits := (rest.drop sign.length).takeWhile Char.isDigit
      if digits.isEmpty then [] else c :: (sign ++ digits)
    else []

/-- The longest run at the head of a text that may be a number: digits and points, and an
exponent. -/
def numberText (cs : List Char) : List Char :=
  let run := cs.takeWhile fun c => c.isDigit || c == '.'
  run ++ exponentText (cs.drop run.length)

/-- Whether a number starts here: a digit, or a point before a digit. -/
def startsNumber : List Char → Bool
  | [] => false
  | c :: rest => c.isDigit || (c == '.' && (rest.head?.map Char.isDigit).getD false)

def symbol (c : Char) (following : Option Char) : Except SyntaxFault (Token × Nat) :=
  match c, following with
  | '(', _ => .ok (.openParen, 1)
  | ')', _ => .ok (.closeParen, 1)
  | ',', _ => .ok (.comma, 1)
  | '<', some '=' => .ok (.binary .le, 2)
  | '>', some '=' => .ok (.binary .ge, 2)
  | '=', some '=' => .ok (.binary .eq, 2)
  | '!', some '=' => .ok (.binary .ne, 2)
  | '&', some '&' => .ok (.binary .and, 2)
  | '|', some '|' => .ok (.binary .or, 2)
  | '<', _ => .ok (.binary .lt, 1)
  | '>', _ => .ok (.binary .gt, 1)
  | '+', _ => .ok (.binary .add, 1)
  | '-', _ => .ok (.binary .sub, 1)
  | '*', _ => .ok (.binary .mul, 1)
  | '/', _ => .ok (.binary .div, 1)
  | '!', _ => .ok (.bang, 1)
  | '=', _ => .error .assignment
  | c, _ => .error (.unexpectedCharacter c)

def scan (c : Char) (rest : List Char) : Except SyntaxFault (Token × Nat) :=
  if startsNumber (c :: rest) then
    let literal := numberText (c :: rest)
    match Decimal.readUnsigned? literal with
    | some d => .ok (.number (d.toFloat false), literal.length)
    | none => .error (.badNumber (String.ofList literal))
  else if isIdentifierStart c then
    let name := c :: rest.takeWhile isIdentifierRest
    .ok (.identifier (String.ofList name), name.length)
  else symbol c rest.head?

/-- The tokens of a text that starts at `offset`, after `skip` characters that belong to the
previous token. -/
def lexFrom : (skip offset : Nat) → List Char → Except SyntaxFault (List Lexeme)
  | _, _, [] => .ok []
  | skip + 1, offset, _ :: rest => lexFrom skip (offset + 1) rest
  | 0, offset, c :: rest =>
    if isBlank c then lexFrom 0 (offset + 1) rest
    else do
      let (token, length) ← scan c rest
      let following ← lexFrom (length - 1) (offset + 1) rest
      return ⟨token, offset, offset + length⟩ :: following

end Lexer

def lex (text : List Char) : Except SyntaxFault (List Lexeme) := Lexer.lexFrom 0 0 text

end SelectionPlan
