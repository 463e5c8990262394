import Lox.Fault
import Lox.Token

/-!
# Runtime errors

An error at run time has a cause and the token that triggered it, and ends the run. Beside
errors, a run can be cut off by an internal fault or by calls nested too deeply.

## Main definitions

* `ErrorKind`, `ErrorCause`, with `ErrorCause.message`
* `RuntimeError`, with `RuntimeError.text` and `RuntimeError.notice`
* `Abort`: what cuts a run off
-/

namespace Lox

/-- The kinds of runtime errors. -/
inductive ErrorKind where
  | type | zeroDivision | name | property | arity
  deriving DecidableEq, Repr

/-- The causes of runtime errors. -/
inductive ErrorCause where
  /-- The operand of a unary operator is no number. -/
  | operandNotNumber
  /-- An operand of a binary operator is no number. -/
  | operandsNotNumbers
  /-- Operands are neither two numbers nor two strings. -/
  | operandsNotAddable
  /-- A class inherits from what is no class. -/
  | superclassNotClass
  /-- What is called is neither a function nor a class. -/
  | notCallable
  /-- A division by zero. -/
  | divisionByZero
  /-- No variable has the name. -/
  | undefinedVariable (name : String)
  /-- No property has the name. -/
  | undefinedProperty (name : String)
  /-- A property of what has none. -/
  | noProperties
  /-- A field of what is no instance. -/
  | noFields
  /-- The number of arguments is not the number of parameters. -/
  | wrongArity (expected got : Nat)
  deriving DecidableEq, Repr

namespace ErrorCause

/-- The kind of a cause. -/
def kind : ErrorCause → ErrorKind
  | operandNotNumber | operandsNotNumbers | operandsNotAddable | superclassNotClass
  | notCallable => .type
  | divisionByZero => .zeroDivision
  | undefinedVariable _ => .name
  | undefinedProperty _ | noProperties | noFields => .property
  | wrongArity .. => .arity

/-- The message of a cause. -/
def message : ErrorCause → String
  | operandNotNumber => "Operand must be a number."
  | operandsNotNumbers => "Operands must be numbers."
  | operandsNotAddable => "Operands must be two numbers or two strings."
  | superclassNotClass => "Superclass must be a class."
  | notCallable => "Can only call functions and classes."
  | divisionByZero => "Division by zero."
  | undefinedVariable name => "Undefined variable '" ++ name ++ "'."
  | undefinedProperty name => "Undefined property '" ++ name ++ "'."
  | noProperties => "Only instances have properties."
  | noFields => "Only instances have fields."
  | wrongArity expected got =>
    "Expected " ++ Decimal.Layout.digits expected ++ " arguments but got " ++
      Decimal.Layout.digits got ++ "."

end ErrorCause

/-- A cause and the token that triggered it. -/
structure RuntimeError where
  /-- The cause. -/
  cause : ErrorCause
  /-- The token. -/
  token : Token
  deriving DecidableEq, Repr

namespace RuntimeError

/-- The message of an error. -/
def message (e : RuntimeError) : String := e.cause.message

/-- An error on one line. -/
def text (e : RuntimeError) : String :=
  e.message ++ " (line " ++ Decimal.Layout.digits e.token.line ++ ")"

/-- The lines that tell an error. -/
def notice (e : RuntimeError) : String :=
  e.message ++ "\n[line " ++ Decimal.Layout.digits e.token.line ++ "]"

end RuntimeError

/-- What cuts a run off. -/
inductive Abort where
  /-- A runtime error. -/
  | error (e : RuntimeError)
  /-- An internal fault. -/
  | fault (f : Fault)
  /-- Calls nested too deeply. -/
  | stackOverflow
  deriving DecidableEq, Repr

namespace Abort

/-- A runtime error at a token. -/
def atToken (token : Token) (cause : ErrorCause) : Abort := .error ⟨cause, token⟩

end Abort

end Lox
