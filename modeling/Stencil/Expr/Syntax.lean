import Stencil.Expr.Token

/-!
# Expression trees

The tree of an expression, and the levels of precedence that decide how it is read. A level names
what may stand at it without parentheses; `Level.operand` is the level of the operands of the left
associative operators of a level.
-/

namespace Stencil

inductive Literal where
  | none
  | bool (b : Bool)
  | int (n : Int64)
  | float (x : Float)
  | text (t : Text)
deriving DecidableEq

/-- The operators that stand between two operands. -/
inductive Operator where
  | or | and
  | equal | notEqual | less | lessEqual | greater | greaterEqual | in | notIn | is | isNot
  | add | subtract | multiply | divide | modulo
deriving DecidableEq, Repr

/-- The operators that stand before their operand. -/
inductive UnaryOperator where
  | not | negate | identity
deriving DecidableEq, Repr

inductive Expr where
  | literal (l : Literal)
  | name (n : Text)
  | member (object : Expr) (name : Text)
  | item (object key : Expr)
  | call (function : Expr) (arguments : List Expr) (keywords : List (Text × Expr))
  | list (elements : List Expr)
  | dict (entries : List (Expr × Expr))
  | unary (op : UnaryOperator) (operand : Expr)
  | binary (op : Operator) (left right : Expr)
  /-- `value if test else other` -/
  | conditional (test value other : Expr)

/-- The levels of precedence, the loosest first. -/
inductive Level where
  | conditional | disjunction | conjunction | negation | comparison | sum | product | sign | access | atom
deriving DecidableEq, Repr

namespace Operator

/-- The level at which an operator is read. -/
def level : Operator → Level
  | or => .disjunction
  | and => .conjunction
  | equal | notEqual | less | lessEqual | greater | greaterEqual | «in» | notIn | is | isNot => .comparison
  | add | subtract => .sum
  | multiply | divide | modulo => .product

/-- The tokens an operator is written with. -/
def tokens : Operator → List TokenKind
  | or => [.keyword .or]
  | and => [.keyword .and]
  | equal => [.symbol .equal]
  | notEqual => [.symbol .notEqual]
  | less => [.symbol .less]
  | lessEqual => [.symbol .lessEqual]
  | greater => [.symbol .greater]
  | greaterEqual => [.symbol .greaterEqual]
  | «in» => [.keyword .in]
  | notIn => [.keyword .not, .keyword .in]
  | is => [.keyword .is]
  | isNot => [.keyword .is, .keyword .not]
  | add => [.symbol .plus]
  | subtract => [.symbol .minus]
  | multiply => [.symbol .star]
  | divide => [.symbol .slash]
  | modulo => [.symbol .percent]

/-- Every operator, those written with more tokens before those they start with. -/
def all : List Operator :=
  [or, and, equal, notEqual, less, lessEqual, greater, greaterEqual, «in», notIn, isNot, is, add, subtract,
    multiply, divide, modulo]

end Operator

/-- The level of the operands of a level's operators. -/
def Level.operand : Level → Level
  | conditional => .disjunction
  | disjunction => .conjunction
  | conjunction => .negation
  | negation => .comparison
  | comparison => .sum
  | sum => .product
  | product => .sign
  | sign => .access
  | access => .atom
  | atom => .atom

end Stencil
