import SelectionPlan.Decimal.Text
/-!
# Tokens of the expression language
-/

namespace SelectionPlan

inductive BinaryOperator
  | add | sub | mul | div
  | lt | le | gt | ge | eq | ne
  | and | or
  deriving DecidableEq, Repr

def BinaryOperator.symbol : BinaryOperator → String
  | .add => "+" | .sub => "-" | .mul => "*" | .div => "/"
  | .lt => "<" | .le => "<=" | .gt => ">" | .ge => ">=" | .eq => "==" | .ne => "!="
  | .and => "&&" | .or => "||"

inductive Token
  | number (value : Float)
  | identifier (name : String)
  | binary (op : BinaryOperator)
  | bang
  | openParen
  | closeParen
  | comma
  deriving Repr

def Token.describe : Token → String
  | .number value => "number " ++ numberText value
  | .identifier name => "identifier '" ++ name ++ "'"
  | .binary op => "operator '" ++ op.symbol ++ "'"
  | .bang => "operator '!'"
  | .openParen => "'('"
  | .closeParen => "')'"
  | .comma => "','"

inductive SyntaxFault
  | badNumber (literal : String)
  | assignment
  | unexpectedCharacter (c : Char)
  | empty
  | unexpectedEnd
  | unexpected (found : Token)
  | trailing (found : Token)
  | expected (wanted : Token) (found : Option Token)
  | unknownFunction (name : String)
  | wrongArity (name : String) (takes got : Nat)
  deriving Repr

def SyntaxFault.message : SyntaxFault → String
  | .badNumber literal => "bad number literal '" ++ literal ++ "'"
  | .assignment => "use '==' for comparison"
  | .unexpectedCharacter c => "unexpected character '" ++ c.toString ++ "'"
  | .empty => "empty expression"
  | .unexpectedEnd => "unexpected end of input"
  | .unexpected found => "unexpected " ++ found.describe
  | .trailing found => "unexpected trailing " ++ found.describe
  | .expected wanted found =>
    "expected " ++ wanted.describe ++ ", found " ++
      (found.map Token.describe).getD "end of input"
  | .unknownFunction name => "unknown function '" ++ name ++ "'"
  | .wrongArity name takes got =>
    name ++ "() takes " ++ toString takes ++ " argument(s), got " ++ toString got

end SelectionPlan
