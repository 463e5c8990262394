import Lox.Syntax.Operator

/-!
# Syntax trees

Expressions and statements as the parser builds them. Every use of a variable, of `this` and of
`super` is a reference, which carries a mark: nothing in a tree fresh from the parser, and the
number of the occurrence once it has been numbered. A `for` loop has no form of its own: it
stands for the block and the `while` that it abbreviates.

## Main definitions

* `Literal`, `Ref`, `Expr`, `Stmt`, `FunDecl`
* `Expr.isComparison`: what may stand before the question mark of a conditional
* `Stmt.forLoop`: the meaning of a `for` loop
-/

namespace Lox

/-- Constants. -/
inductive Literal where
  | nil
  | bool (value : Bool)
  | number (value : Float)
  | string (value : String)
  deriving DecidableEq, Repr

/-- A reference: the token that writes it, and a mark. -/
structure Ref (μ : Type) where
  /-- The token: a name, `this` or `super`. -/
  token : Token
  /-- The mark. -/
  mark : μ
  deriving DecidableEq, Repr

/-- Expressions. -/
inductive Expr (μ : Type) where
  /-- A constant. -/
  | literal (value : Literal)
  /-- The value of a variable. -/
  | variable (name : Ref μ)
  /-- An assignment to a variable. -/
  | assign (name : Ref μ) (value : Expr μ)
  /-- A binary operator between operands. -/
  | binary (left : Expr μ) (op : BinaryOp) (token : Token) (right : Expr μ)
  /-- A logical operator between operands. -/
  | logical (left : Expr μ) (op : LogicalOp) (token : Token) (right : Expr μ)
  /-- A unary operator before its operand. -/
  | unary (op : UnaryOp) (token : Token) (operand : Expr μ)
  /-- A choice between two expressions. -/
  | ternary (question : Token) (condition whenTrue whenFalse : Expr μ)
  /-- An expression in parentheses. -/
  | group (inner : Expr μ)
  /-- A call, with the closing parenthesis. -/
  | call (callee : Expr μ) (paren : Token) (arguments : List (Expr μ))
  /-- A property of an object. -/
  | field (object : Expr μ) (name : Token)
  /-- An assignment to a field of an object. -/
  | setField (object : Expr μ) (name : Token) (value : Expr μ)
  /-- The receiver of the enclosing method. -/
  | this (keyword : Ref μ)
  /-- A method of the superclass of the enclosing class. -/
  | super (keyword : Ref μ) (method : Token)
  deriving Repr

namespace Expr

/-- Whether an expression may be the condition of a conditional: a truth value, or a comparison
that no parentheses enclose. -/
def isComparison {μ : Type} : Expr μ → Bool
  | literal (.bool _) => true
  | binary _ op _ _ => op.isComparison
  | _ => false

end Expr

mutual

/-- Statements. -/
inductive Stmt (μ : Type) where
  /-- An expression evaluated for its effect. -/
  | expression (value : Expr μ)
  /-- Printing a value. -/
  | print (value : Expr μ)
  /-- The declaration of a variable, which is nil without an initializer. -/
  | var (name : Token) (initializer : Option (Expr μ))
  /-- Statements in a scope of their own. -/
  | block (body : List (Stmt μ))
  /-- A branch taken on a condition. -/
  | ifThen (condition : Expr μ) (thenBranch : Stmt μ)
  /-- A choice between two branches. -/
  | ifElse (condition : Expr μ) (thenBranch elseBranch : Stmt μ)
  /-- A loop on a condition. -/
  | while (condition : Expr μ) (body : Stmt μ)
  /-- The declaration of a function. -/
  | function (decl : FunDecl μ)
  /-- The end of the enclosing call. -/
  | return (keyword : Token) (value : Option (Expr μ))
  /-- The declaration of a class. -/
  | class (name : Token) (superclass : Option (Ref μ)) (statics methods : List (FunDecl μ))

/-- A function with its parameters and its body. -/
inductive FunDecl (μ : Type) where
  | mk (name : Token) (params : List Token) (body : List (Stmt μ))

end

namespace FunDecl

variable {μ : Type}

/-- The name of a function. -/
def name : FunDecl μ → Token
  | mk name _ _ => name

/-- The parameters of a function. -/
def params : FunDecl μ → List Token
  | mk _ params _ => params

/-- The body of a function. -/
def body : FunDecl μ → List (Stmt μ)
  | mk _ _ body => body

/-- The number of parameters of a function. -/
def arity (f : FunDecl μ) : Nat := f.params.length

/-- Whether a function is an initializer when it is an instance method of a class. -/
def isInitName (f : FunDecl μ) : Bool := f.name.lexeme = "init"

end FunDecl

namespace Stmt

variable {μ : Type}

/-- What a loop does in each round: its body, then its increment. -/
def round (body : Stmt μ) : Option (Expr μ) → Stmt μ
  | none => body
  | some increment => block [body, expression increment]

/-- A `for` loop: its initializer in a scope of its own, then a `while` whose rounds end with
the increment; without a condition the loop has no end of its own. -/
def forLoop (initializer : Option (Stmt μ)) (condition increment : Option (Expr μ))
    (body : Stmt μ) : Stmt μ :=
  let loop := Stmt.while (condition.getD (.literal (.bool true))) (round body increment)
  match initializer with
  | none => loop
  | some first => block [first, loop]

end Stmt

end Lox
