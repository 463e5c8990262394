import Lox.Token

/-!
# Operators

The operators of expressions and the symbols and words that write them. Binary operators fall
into four levels, from the one that binds least to the one that binds most; all associate to
the left.

## Main definitions

* `UnaryOp`, `BinaryOp`, `LogicalOp`
* `Level`: the levels of the binary operators
* `TokenKind.unaryOp?`, `TokenKind.binaryOp?`, `TokenKind.logicalOp?`: the operator of a token
-/

namespace Lox

/-- Operators of one operand. -/
inductive UnaryOp where
  | negate | not
  deriving DecidableEq, Repr

/-- Operators that evaluate both operands. -/
inductive BinaryOp where
  | notEqual | equal | greater | greaterEqual | less | lessEqual | subtract | add | divide
  | multiply
  deriving DecidableEq, Repr

/-- Operators that may leave the right operand unevaluated. -/
inductive LogicalOp where
  | and | or
  deriving DecidableEq, Repr

/-- How tightly a binary operator binds. -/
inductive Level where
  | equality | comparison | term | factor
  deriving DecidableEq, Repr

namespace BinaryOp

/-- The level of an operator. -/
def level : BinaryOp → Level
  | notEqual | equal => .equality
  | greater | greaterEqual | less | lessEqual => .comparison
  | subtract | add => .term
  | divide | multiply => .factor

/-- Whether an operator compares its operands. -/
def isComparison (op : BinaryOp) : Bool := op.level = .equality || op.level = .comparison

end BinaryOp

namespace TokenKind

/-- The unary operator that a token writes. -/
def unaryOp? : TokenKind → Option UnaryOp
  | symbol .minus => some .negate
  | symbol .bang => some .not
  | _ => none

/-- The binary operator that a token writes. -/
def binaryOp? : TokenKind → Option BinaryOp
  | symbol .bangEqual => some .notEqual
  | symbol .equalEqual => some .equal
  | symbol .greater => some .greater
  | symbol .greaterEqual => some .greaterEqual
  | symbol .less => some .less
  | symbol .lessEqual => some .lessEqual
  | symbol .minus => some .subtract
  | symbol .plus => some .add
  | symbol .slash => some .divide
  | symbol .star => some .multiply
  | _ => none

/-- The logical operator that a token writes. -/
def logicalOp? : TokenKind → Option LogicalOp
  | keyword .andWord => some .and
  | keyword .orWord => some .or
  | _ => none

end TokenKind

end Lox
