import SelectionPlan.Expression.Parser
/-!
# Expressions over columns

An expression is read from text once and then evaluated row by row, or written out again with
other names for its columns.
-/

namespace SelectionPlan

def firstOccurrences {α : Type} [DecidableEq α] : List α → List α
  | [] => []
  | x :: xs => x :: (firstOccurrences xs).filter (· ≠ x)

/-- The range of characters of a column in the text, and the column's position among the
expression's columns. -/
structure ColumnReference where
  start : Nat
  stop : Nat
  slot : Nat
  deriving DecidableEq, Repr

/-- An expression: its text, the columns it reads in order of first occurrence, its term over
their positions, and every place where the text names one. -/
structure Expression where
  source : String
  columns : List String
  body : Term Nat
  references : List ColumnReference
  deriving Repr

structure ExpressionError where
  text : String
  fault : SyntaxFault
  deriving Repr

def ExpressionError.message (e : ExpressionError) : String :=
  "invalid expression '" ++ e.text ++ "': " ++ e.fault.message

namespace Expression

def ofTerm (source : String) (term : Term Occurrence) : Expression :=
  let columns := firstOccurrences (term.leaves.map Occurrence.name)
  { source
    columns
    body := term.map fun o => columns.idxOf o.name
    references := term.leaves.map fun o => ⟨o.start, o.stop, columns.idxOf o.name⟩ }

def parse (text : String) : Except ExpressionError Expression :=
  match lex text.toList >>= Parser.parse with
  | .ok term => .ok (ofTerm text term)
  | .error fault => .error ⟨text, fault⟩

/-- The value when the columns have the given values in order; a column beyond them is
undefined. -/
def eval (e : Expression) (values : List Float) : Float :=
  e.body.eval fun slot => values.getD slot Binary64.notANumber

def renameFrom (name : Nat → String) : (cursor : Nat) → List ColumnReference → List Char →
    List Char
  | _, [], text => text
  | cursor, r :: references, text =>
    text.take (r.start - cursor) ++ (name r.slot).toList ++
      renameFrom name r.stop references (text.drop (r.stop - cursor))

def rename (e : Expression) (f : String → String) : String :=
  String.ofList <|
    renameFrom (fun slot => f (e.columns.getD slot "")) 0 e.references e.source.toList

end Expression
end SelectionPlan
