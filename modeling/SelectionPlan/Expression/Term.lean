import SelectionPlan.Expression.Token
/-!
# Terms and their values

A term is the tree of an expression.  Its leaves refer to columns by whatever identifies a column
at hand: an occurrence in a text, a position in a list, or the column's value.
-/

namespace SelectionPlan

inductive UnaryPrimitive
  | abs | sqrt | log | exp
  deriving DecidableEq, Repr

inductive BinaryPrimitive
  | pow | min | max
  deriving DecidableEq, Repr

inductive Primitive
  | unary (f : UnaryPrimitive)
  | binary (f : BinaryPrimitive)
  deriving DecidableEq, Repr

namespace Primitive

def ofName? : String → Option Primitive
  | "abs" => some (.unary .abs)
  | "sqrt" => some (.unary .sqrt)
  | "log" => some (.unary .log)
  | "exp" => some (.unary .exp)
  | "pow" => some (.binary .pow)
  | "min" => some (.binary .min)
  | "max" => some (.binary .max)
  | _ => none

def arity : Primitive → Nat
  | .unary _ => 1
  | .binary _ => 2

end Primitive

inductive Term (α : Type)
  | constant (value : Float)
  | column (leaf : α)
  | negate (operand : Term α)
  | not (operand : Term α)
  | binary (op : BinaryOperator) (left right : Term α)
  | call (f : UnaryPrimitive) (argument : Term α)
  | call₂ (f : BinaryPrimitive) (first second : Term α)
  deriving Repr

/-- A number counts as true when it is positive; an undefined number does not. -/
def truthy (x : Float) : Bool := x > 0

def truthValue (b : Bool) : Float := if b then 1 else 0

def BinaryOperator.apply (op : BinaryOperator) (x y : Float) : Float :=
  match op with
  | .add => x + y
  | .sub => x - y
  | .mul => x * y
  | .div => x / y
  | .lt => truthValue (x < y)
  | .le => truthValue (x ≤ y)
  | .gt => truthValue (x > y)
  | .ge => truthValue (x ≥ y)
  | .eq => truthValue (x == y)
  | .ne => truthValue (x != y)
  | .and => truthValue (truthy x && truthy y)
  | .or => truthValue (truthy x || truthy y)

def UnaryPrimitive.apply (f : UnaryPrimitive) (x : Float) : Float :=
  match f with
  | .abs => x.abs
  | .sqrt => x.sqrt
  | .log => x.log
  | .exp => x.exp

/-- The least and the greatest of two numbers ignore an undefined one. -/
def BinaryPrimitive.apply (f : BinaryPrimitive) (x y : Float) : Float :=
  match f with
  | .pow => x.pow y
  | .min => if x.isNaN || y < x then y else x
  | .max => if x.isNaN || x < y then y else x

namespace Term

variable {α β : Type}

def leaves : Term α → List α
  | constant _ => []
  | column a => [a]
  | negate t | not t | call _ t => t.leaves
  | binary _ l r | call₂ _ l r => l.leaves ++ r.leaves

def map (f : α → β) : Term α → Term β
  | constant v => constant v
  | column a => column (f a)
  | negate t => negate (t.map f)
  | not t => not (t.map f)
  | binary op l r => binary op (l.map f) (r.map f)
  | call p t => call p (t.map f)
  | call₂ p x y => call₂ p (x.map f) (y.map f)

def eval (env : α → Float) : Term α → Float
  | constant v => v
  | column a => env a
  | negate t => -(t.eval env)
  | not t => truthValue (!truthy (t.eval env))
  | binary op l r => op.apply (l.eval env) (r.eval env)
  | call p t => p.apply (t.eval env)
  | call₂ p x y => p.apply (x.eval env) (y.eval env)

end Term
end SelectionPlan
