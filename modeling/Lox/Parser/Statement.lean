import Lox.Parser.Expression
import Lox.Scan.Tokens

/-!
# Parsing statements

Declarations and statements, each defined for given parsers of the statements and declarations
nested in it, which always start later in the stream. A declaration that cannot be read is lost
and reading resumes at the next boundary, so a text yields the statements that could be read
and every problem that was found.

## Main definitions

* `Parser.forStatement`, `Parser.ifStatement`, …: the statements after their first word
* `Parser.function`, `Parser.classDeclaration`, `Parser.varDeclaration`: the declarations
* `Parser.statement`, `Parser.declaration`: the two nonterminals
* `Parser.program`: declarations up to the end
* `parse`: the statements of a scanned text with all reports
-/

namespace Lox

namespace Parser

/-- Statements as they are parsed. -/
abbrev ParsedStmt := Stmt Unit

/-- An expression up to a semicolon. -/
def expressionStatement : Parser ParsedStmt := do
  let e ← expression
  let _ ← symbol .semicolon .expectExpressionEnd
  return .expression e

/-- A variable declaration after its first word. -/
def varDeclaration : Parser ParsedStmt := do
  let name ← identifier .expectVariableName
  let initializer ←
    if ← accept (·.isSymbol .equal) then some <$> expression else pure none
  let _ ← symbol .semicolon .expectVariableEnd
  return .var name initializer

/-- A `print` statement after its first word. -/
def printStatement : Parser ParsedStmt := do
  let value ← expression
  let _ ← symbol .semicolon .expectPrintEnd
  return .print value

/-- A `return` statement after its first word. -/
def returnStatement (keyword : Token) : Parser ParsedStmt := do
  let value ← if ← nextIs .semicolon then pure none else some <$> expression
  let _ ← symbol .semicolon .expectReturnEnd
  return .return keyword value

section Nested

variable (stmt : Parser ParsedStmt) (decl : Parser (Option ParsedStmt))

/-- Declarations up to a closing brace, whose opening brace has been read. -/
def block : Parser (List ParsedStmt) := do
  let body ← itemsUntil (·.isSymbol .rightBrace) decl
  let _ ← symbol .rightBrace .expectBlockClose
  return body

/-- A function from its name on; messages call it by its role. -/
def function (role : String) : Parser (FunDecl Unit) := do
  let name ← identifier (.expectFunctionName role)
  let _ ← symbol .leftParen (.expectParametersOpen role)
  let params ← separated .tooManyParameters (identifier .expectParameterName)
  let _ ← symbol .rightParen .expectParametersClose
  let _ ← symbol .leftBrace (.expectBodyOpen role)
  return .mk name params (← block decl)

/-- A member of a class: a static one follows the word `class`. -/
def member : Parser (Option (Bool × FunDecl Unit)) := do
  if ← accept (·.isKeyword .classWord) then return some (true, ← function decl "static method")
  else return some (false, ← function decl "method")

/-- A class after its first word. -/
def classDeclaration : Parser ParsedStmt := do
  let name ← identifier .expectClassName
  let superclass ←
    if ← accept (·.isSymbol .less) then (some ·.ref) <$> identifier .expectSuperclassName
    else pure none
  let _ ← symbol .leftBrace .expectClassOpen
  let members ← itemsUntil (·.isSymbol .rightBrace) (member decl)
  let _ ← symbol .rightBrace .expectClassClose
  return .class name superclass ((members.filter (·.1)).map (·.2))
    ((members.filter (!·.1)).map (·.2))

/-- The first clause of a `for`, with its semicolon. -/
def forInitializer : Parser (Option ParsedStmt) := do
  if ← accept (·.isSymbol .semicolon) then return none
  else if ← accept (·.isKeyword .varWord) then return some (← varDeclaration)
  else return some (← expressionStatement)

/-- A `for` statement after its first word. -/
def forStatement : Parser ParsedStmt := do
  let _ ← symbol .leftParen .expectForOpen
  let initializer ← forInitializer
  let condition ← if ← nextIs .semicolon then pure none else some <$> expression
  let _ ← symbol .semicolon .expectForConditionEnd
  let increment ← if ← nextIs .rightParen then pure none else some <$> expression
  let _ ← symbol .rightParen .expectForClose
  return .forLoop initializer condition increment (← stmt)

/-- An `if` statement after its first word; an `else` belongs to the nearest `if`. -/
def ifStatement : Parser ParsedStmt := do
  let _ ← symbol .leftParen .expectIfOpen
  let condition ← expression
  let _ ← symbol .rightParen .expectIfClose
  let thenBranch ← stmt
  if ← accept (·.isKeyword .elseWord) then return .ifElse condition thenBranch (← stmt)
  else return .ifThen condition thenBranch

/-- A `while` statement after its first word. -/
def whileStatement : Parser ParsedStmt := do
  let _ ← symbol .leftParen .expectWhileOpen
  let condition ← expression
  let _ ← symbol .rightParen .expectWhileClose
  return .while condition (← stmt)

/-- A statement. -/
def statementWith : Parser ParsedStmt := do
  if ← accept (·.isKeyword .forWord) then forStatement stmt
  else if ← accept (·.isKeyword .ifWord) then ifStatement stmt
  else if ← accept (·.isKeyword .printWord) then printStatement
  else
  match ← accept? (·.isKeyword .returnWord) with
  | some keyword => returnStatement keyword
  | none =>
  if ← accept (·.isKeyword .whileWord) then whileStatement stmt
  else if ← accept (·.isSymbol .leftBrace) then return .block (← block decl)
  else expressionStatement

/-- A declaration or a statement, lost if it cannot be read. -/
def declarationWith : Parser (Option ParsedStmt) := recover do
  if ← accept (·.isKeyword .classWord) then classDeclaration decl
  else if ← accept (·.isKeyword .funWord) then return .function (← function decl "function")
  else if ← accept (·.isKeyword .varWord) then varDeclaration
  else statementWith stmt decl

end Nested

mutual

/-- Statements nested at most as deeply as the budget allows. -/
def statementWithin : Budget → Parser ParsedStmt
  | [] => exhausted
  | _ :: budget => statementWith (statementWithin budget) (declarationWithin budget)

/-- Declarations nested at most as deeply as the budget allows. -/
def declarationWithin : Budget → Parser (Option ParsedStmt)
  | [] => exhausted
  | _ :: budget => declarationWith (statementWithin budget) (declarationWithin budget)

end

/-- A statement: a nested one starts later, so the tokens left bound the depth. -/
def statement : Parser ParsedStmt := budgeted statementWithin

/-- A declaration or a statement, lost if it cannot be read. -/
def declaration : Parser (Option ParsedStmt) := budgeted declarationWithin

/-- Declarations up to the end of the input. -/
def program : Parser (List ParsedStmt) := itemsUntil (fun _ => false) declaration

end Parser

namespace Reply

/-- The statements of a reply: none if it has no result. -/
def statements (r : Reply (List (Stmt Unit))) : List (Stmt Unit) :=
  match r.outcome with
  | .ok body _ => body
  | .unwound .. | .exhausted => []

end Reply

/-- A scanned text as a stream of tokens. -/
def Scan.stream (s : Scan) : Stream := ⟨s.tokens, s.finish⟩

/-- A source text as it was scanned and parsed. -/
structure Source where
  /-- The tokens. -/
  scan : Scan
  /-- The statements that could be read. -/
  statements : List (Stmt Unit)
  /-- What was reported, by the scanner first. -/
  reports : List Report

/-- Scanning and parsing a source text. -/
def parse (source : String) : Source :=
  let s := scan source
  let reply := Parser.program s.stream
  ⟨s, reply.statements, s.reports ++ reply.reports⟩

end Lox
