import Lox.Syntax.Sexp
import Lox.Syntax.Tree

/-!
# Printing syntax trees

A tree is shown as a symbolic expression: an operator or a word stands before its parts, and
absent parts leave no trace. Positions and marks are not shown.

## Main definitions

* `Expr.sexp`, `Stmt.sexp`: the symbolic expression of a tree
* `Expr.text`, `Stmt.text`: its text
-/

namespace Lox

/-- The text of a constant: a string stands for itself. -/
def Literal.text : Literal → String
  | .nil => "nil"
  | .bool true => "true"
  | .bool false => "false"
  | .number v => Decimal.Layout.shown.write v
  | .string s => s

/-- The atom of a token. -/
def Token.sexp (t : Token) : Sexp := .ofString t.lexeme

namespace Expr

variable {μ : Type}

mutual

/-- The symbolic expression of an expression. -/
def sexp : Expr μ → Sexp
  | .literal value => .ofString value.text
  | .variable name => name.token.sexp
  | .assign name value => .tagged "=" [name.token.sexp, value.sexp]
  | .binary left _ token right => .tagged token.lexeme [left.sexp, right.sexp]
  | .logical left _ token right => .tagged token.lexeme [left.sexp, right.sexp]
  | .unary _ token operand => .tagged token.lexeme [operand.sexp]
  | .ternary _ condition whenTrue whenFalse =>
    .tagged "?:" [condition.sexp, whenTrue.sexp, whenFalse.sexp]
  | .group inner => .tagged "group" [inner.sexp]
  | .call callee _ arguments => .tagged "call" (callee.sexp :: sexps arguments)
  | .field object name => .tagged "." [object.sexp, name.sexp]
  | .setField object name value =>
    .tagged "=" [.tagged "." [object.sexp, name.sexp], value.sexp]
  | .this _ => .ofString "this"
  | .super _ method => .tagged "super" [method.sexp]

/-- The symbolic expressions of expressions. -/
def sexps : List (Expr μ) → List Sexp
  | [] => []
  | e :: rest => e.sexp :: sexps rest

end

/-- How an expression is shown. -/
def text (e : Expr μ) : String := e.sexp.text

end Expr

namespace Stmt

variable {μ : Type}

/-- The name of a class with that of its superclass. -/
def classHead (name : Token) : Option (Ref μ) → List Sexp
  | none => [name.sexp]
  | some superclass => [name.sexp, .ofString "<", superclass.token.sexp]

mutual

/-- The symbolic expression of a statement. -/
def sexp : Stmt μ → Sexp
  | .expression value => .tagged ";" [value.sexp]
  | .print value => .tagged "print" [value.sexp]
  | .var name initializer => .tagged "var" (name.sexp :: (initializer.map Expr.sexp).toList)
  | .block body => .tagged "block" (sexps body)
  | .ifThen condition thenBranch => .tagged "if" [condition.sexp, thenBranch.sexp]
  | .ifElse condition thenBranch elseBranch =>
    .tagged "if-else" [condition.sexp, thenBranch.sexp, elseBranch.sexp]
  | .while condition body => .tagged "while" [condition.sexp, body.sexp]
  | .function decl => functionSexp "fun" decl
  | .return _ value => .tagged "return" (value.map Expr.sexp).toList
  | .class name superclass statics methods =>
    .tagged "class" (classHead name superclass ++ functionSexps "class" statics ++
      functionSexps "fun" methods)

/-- The symbolic expression of a function after a word. -/
def functionSexp (head : String) : FunDecl μ → Sexp
  | .mk name params body =>
    .tagged head (name.sexp :: .list (params.map Token.sexp) :: sexps body)

/-- The symbolic expressions of statements. -/
def sexps : List (Stmt μ) → List Sexp
  | [] => []
  | s :: rest => s.sexp :: sexps rest

/-- The symbolic expressions of functions, each after a word. -/
def functionSexps (head : String) : List (FunDecl μ) → List Sexp
  | [] => []
  | f :: rest => functionSexp head f :: functionSexps head rest

end

/-- How a statement is shown. -/
def text (s : Stmt μ) : String := s.sexp.text

end Stmt

end Lox
