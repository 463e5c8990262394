import Lox.Token

/-!
# Reports

What is wrong with a source text is reported and never raised, so that one run can surface
several mistakes. A report names the line, the place on it, and the problem, which is one of
the scanner, of the grammar, or of the scopes.

## Main definitions

* `ScanError`, `SyntaxError`, `ScopeError`: the problems of the three passes
* `Report`: a problem with its place
* `Report.ofToken`: a problem at a token
* `Report.text`: the line that tells it
-/

namespace Lox

/-- Problems with the characters of a source. -/
inductive ScanError where
  /-- A character that starts no token. -/
  | unexpectedCharacter
  /-- A string that is not closed. -/
  | unterminatedString
  /-- A block comment that is not closed. -/
  | unterminatedComment
  deriving DecidableEq, Repr

namespace ScanError

/-- The message of a problem. -/
def message : ScanError → String
  | unexpectedCharacter => "Unexpected character."
  | unterminatedString => "Unterminated string."
  | unterminatedComment => "Unterminated block comment."

end ScanError

/-- The most parameters of a function, and the most arguments of a call. -/
def argumentLimit : Nat := 255

/-- Problems with the order of tokens. The role of a function is how messages call it. -/
inductive SyntaxError where
  | expectClassName
  | expectSuperclassName
  | expectClassOpen
  | expectClassClose
  | expectFunctionName (role : String)
  | expectParametersOpen (role : String)
  | tooManyParameters
  | expectParameterName
  | expectParametersClose
  | expectBodyOpen (role : String)
  | expectVariableName
  | expectVariableEnd
  | expectForOpen
  | expectForConditionEnd
  | expectForClose
  | expectIfOpen
  | expectIfClose
  | expectPrintEnd
  | expectReturnEnd
  | expectWhileOpen
  | expectWhileClose
  | expectBlockClose
  | expectExpressionEnd
  | invalidAssignmentTarget
  | ternaryCondition
  | expectTernaryColon
  | expectPropertyName
  | tooManyArguments
  | expectArgumentsClose
  | expectSuperDot
  | expectSuperMethod
  | expectGroupClose
  | expectExpression
  | expectEndOfExpression
  deriving DecidableEq, Repr

namespace SyntaxError

/-- The message of a problem. -/
def message : SyntaxError → String
  | expectClassName => "Expect class name."
  | expectSuperclassName => "Expect superclass name."
  | expectClassOpen => "Expect '\x7b' before class body."
  | expectClassClose => "Expect '\x7d' after class body."
  | expectFunctionName role => "Expect " ++ role ++ " name."
  | expectParametersOpen role => "Expect '(' after " ++ role ++ " name."
  | tooManyParameters =>
    "Can't have more than " ++ Decimal.Layout.digits argumentLimit ++ " parameters."
  | expectParameterName => "Expect parameter name."
  | expectParametersClose => "Expect ')' after parameters."
  | expectBodyOpen role => "Expect '\x7b' before " ++ role ++ " body."
  | expectVariableName => "Expect variable name."
  | expectVariableEnd => "Expect ';' after variable declaration."
  | expectForOpen => "Expect '(' after 'for'."
  | expectForConditionEnd => "Expect ';' after loop condition."
  | expectForClose => "Expect ')' after for clauses."
  | expectIfOpen => "Expect '(' after 'if'."
  | expectIfClose => "Expect ')' after if condition."
  | expectPrintEnd => "Expect ';' after value."
  | expectReturnEnd => "Expect ';' after return value."
  | expectWhileOpen => "Expect '(' after 'while'."
  | expectWhileClose => "Expect ')' after condition."
  | expectBlockClose => "Expect '\x7d' after block."
  | expectExpressionEnd => "Expect ';' after expression."
  | invalidAssignmentTarget => "Invalid assignment target."
  | ternaryCondition => "Ternary condition must be a comparison."
  | expectTernaryColon => "Expect ':' after then branch of ternary expression."
  | expectPropertyName => "Expect property name after '.'."
  | tooManyArguments =>
    "Can't have more than " ++ Decimal.Layout.digits argumentLimit ++ " arguments."
  | expectArgumentsClose => "Expect ')' after arguments."
  | expectSuperDot => "Expect '.' after 'super'."
  | expectSuperMethod => "Expect superclass method name."
  | expectGroupClose => "Expect ')' after expression."
  | expectExpression => "Expect expression."
  | expectEndOfExpression => "Expect end of expression."

end SyntaxError

/-- Problems with the scopes of names. -/
inductive ScopeError where
  /-- A local scope declares a name twice. -/
  | redeclared
  /-- A local variable is read in its own initializer. -/
  | ownInitializer
  /-- A `return` stands outside every function. -/
  | returnOutsideFunction
  /-- An initializer returns a value. -/
  | returnFromInitializer
  /-- A class names itself as its superclass. -/
  | selfInheritance
  /-- A `this` stands outside every class. -/
  | thisOutsideClass
  /-- A `super` stands outside every class. -/
  | superOutsideClass
  /-- A `super` stands in a class without a superclass. -/
  | superWithoutSuperclass
  deriving DecidableEq, Repr

namespace ScopeError

/-- The message of a problem. -/
def message : ScopeError → String
  | redeclared => "Already a variable with this name in this scope."
  | ownInitializer => "Can't read local variable in its own initializer."
  | returnOutsideFunction => "Can't return from top-level code."
  | returnFromInitializer => "Can't return a value from an initializer."
  | selfInheritance => "A class can't inherit from itself."
  | thisOutsideClass => "Can't use 'this' outside of a class."
  | superOutsideClass => "Can't use 'super' outside of a class."
  | superWithoutSuperclass => "Can't use 'super' in a class with no superclass."

end ScopeError

/-- A problem of one of the three passes. -/
inductive Problem where
  | scan (e : ScanError)
  | grammar (e : SyntaxError)
  | scope (e : ScopeError)
  deriving DecidableEq, Repr

namespace Problem

/-- The message of a problem. -/
def message : Problem → String
  | scan e => e.message
  | grammar e => e.message
  | scope e => e.message

end Problem

/-- Where on its line a problem lies. -/
inductive Place where
  /-- No token is to blame. -/
  | unplaced
  /-- At the end of the input. -/
  | atEnd
  /-- At a token with the given text. -/
  | atLexeme (lexeme : String)
  deriving DecidableEq, Repr

namespace Place

/-- The place of a token. -/
def ofToken (t : Token) : Place := if t.isEnd then atEnd else atLexeme t.lexeme

/-- A place as it stands in a report. -/
def text : Place → String
  | unplaced => ""
  | atEnd => " at end"
  | atLexeme lexeme => " at '" ++ lexeme ++ "'"

end Place

/-- A problem with its place in the source. -/
structure Report where
  /-- The line. -/
  line : Nat
  /-- The place on the line. -/
  place : Place
  /-- What is wrong. -/
  problem : Problem
  deriving DecidableEq, Repr

namespace Report

/-- A problem at a token. -/
def ofToken (t : Token) (problem : Problem) : Report := ⟨t.line, Place.ofToken t, problem⟩

/-- The message of a report. -/
def message (r : Report) : String := r.problem.message

/-- The line that tells a report. -/
def text (r : Report) : String :=
  "[line " ++ Decimal.Layout.digits r.line ++ "] Error" ++ r.place.text ++ ": " ++ r.message

end Report

end Lox
