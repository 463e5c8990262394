import Lox.Parser.Basic
import Lox.Syntax.Tree

/-!
# Parsing expressions

Expressions bind from the loosest to the tightest: assignment, conditional, `or`, `and`, the
four levels of binary operators, unary operators, calls and properties, and primary
expressions. Each parser is defined for a given parser of the expressions nested in it, which
always start later in the stream; `expression` ties the knot.

## Main definitions

* `Parser.primary`, `Parser.call`, `Parser.unary`, `Parser.binary`, `Parser.conjunction`,
  `Parser.disjunction`, `Parser.ternary`, `Parser.assignment`: the levels
* `Parser.expression`: expressions
* `Parser.wholeExpression`: an expression and nothing after it
-/

namespace Lox

/-- The constant that a token writes on its own. -/
def TokenKind.literal? : TokenKind → Option Literal
  | keyword .falseWord => some (.bool false)
  | keyword .trueWord => some (.bool true)
  | keyword .nilWord => some .nil
  | number v => some (.number v)
  | string s => some (.string s)
  | _ => none

/-- A reference without a mark. -/
def Token.ref (t : Token) : Ref Unit := ⟨t, ()⟩

namespace Parser

/-- Expressions as they are parsed. -/
abbrev Parsed := Expr Unit

variable (nested : Parser Parsed)

/-- What follows the word `super`. -/
def superMethod (keyword : Token) : Parser Parsed := do
  let _ ← symbol .dot .expectSuperDot
  let method ← identifier .expectSuperMethod
  return .super keyword.ref method

/-- What follows an opening parenthesis. -/
def grouped : Parser Parsed := do
  let inner ← nested
  let _ ← symbol .rightParen .expectGroupClose
  return .group inner

/-- An expression that no operator is part of. -/
def primary : Parser Parsed := do
  match ← acceptMap? (·.kind.literal?) with
  | some value => return .literal value
  | none =>
  match ← accept? (·.isKeyword .thisWord) with
  | some keyword => return .this keyword.ref
  | none =>
  match ← accept? (·.isKeyword .superWord) with
  | some keyword => superMethod keyword
  | none =>
  match ← accept? (·.kind = .identifier) with
  | some name => return .variable name.ref
  | none =>
  if ← accept (·.isSymbol .leftParen) then grouped nested
  else fail (← current) .expectExpression

/-- The arguments of a call, whose opening parenthesis has been read. -/
def finishCall (callee : Parsed) : Parser Parsed := do
  let arguments ← separated .tooManyArguments nested
  let paren ← symbol .rightParen .expectArgumentsClose
  return .call callee paren arguments

/-- One call or property after an expression. -/
def callStep (e : Parsed) : Parser (Option Parsed) := do
  if ← accept (·.isSymbol .leftParen) then return some (← finishCall nested e)
  else if ← accept (·.isSymbol .dot) then
    return some (.field e (← identifier .expectPropertyName))
  else return none

/-- A primary expression with calls and properties after it. -/
def call : Parser Parsed := do iterate (callStep nested) (← primary nested)

/-- One more unary operator after those read, the latest first. -/
def unaryStep (ops : List (UnaryOp × Token)) : Parser (Option (List (UnaryOp × Token))) := do
  let op ← acceptMap? fun t => t.kind.unaryOp?.map (·, t)
  return op.map (· :: ops)

/-- Unary operators before a call. -/
def unary : Parser Parsed := do
  let ops ← iterate unaryStep []
  return ops.foldl (fun e op => .unary op.1 op.2 e) (← call nested)

/-- One more operator of a level and its right operand. -/
def binaryStep (level : Level) (operand : Parser Parsed) (left : Parsed) :
    Parser (Option Parsed) := do
  match ← acceptMap? fun t => (t.kind.binaryOp?.filter (·.level = level)).map (·, t) with
  | some (op, token) => return some (.binary left op token (← operand))
  | none => return none

/-- Operands with operators of a level between them. -/
def chain (level : Level) (operand : Parser Parsed) : Parser Parsed := do
  iterate (binaryStep level operand) (← operand)

/-- Expressions from a level of binary operators on. -/
def binary : Level → Parser Parsed
  | .factor => chain .factor (unary nested)
  | .term => chain .term (chain .factor (unary nested))
  | .comparison => chain .comparison (chain .term (chain .factor (unary nested)))
  | .equality =>
    chain .equality (chain .comparison (chain .term (chain .factor (unary nested))))

/-- One more use of a logical operator and its right operand. -/
def logicalStep (op : LogicalOp) (operand : Parser Parsed) (left : Parsed) :
    Parser (Option Parsed) := do
  match ← accept? (·.kind.logicalOp? = some op) with
  | some token => return some (.logical left op token (← operand))
  | none => return none

/-- Comparisons joined by `and`. -/
def conjunction : Parser Parsed := do
  iterate (logicalStep .and (binary nested .equality)) (← binary nested .equality)

/-- Conjunctions joined by `or`. -/
def disjunction : Parser Parsed := do
  iterate (logicalStep .or (conjunction nested)) (← conjunction nested)

/-- A disjunction, or a choice on a comparison. -/
def ternary : Parser Parsed := do
  let condition ← disjunction nested
  match ← accept? (·.isSymbol .question) with
  | none => return condition
  | some question =>
    if condition.isComparison then
      let whenTrue ← nested
      let _ ← symbol .colon .expectTernaryColon
      return .ternary question condition whenTrue (← nested)
    else fail question .ternaryCondition

/-- An assignment to what stands before the sign: to a variable or to a property of an object.
Any other target is reported, and stands for the whole. -/
def assignTo (equals : Token) (target value : Parsed) : Parser Parsed :=
  match target with
  | .variable name => return .assign name value
  | .field object name => return .setField object name value
  | _ => do
    report equals .invalidAssignmentTarget
    return target

/-- A conditional, or an assignment. -/
def assignment : Parser Parsed := do
  let target ← ternary nested
  match ← accept? (·.isSymbol .equal) with
  | none => return target
  | some equals => assignTo equals target (← nested)

/-- Expressions nested at most as deeply as the budget allows. -/
def expressionWithin : Budget → Parser Parsed
  | [] => exhausted
  | _ :: budget => assignment (expressionWithin budget)

/-- An expression: a nested one starts later, so the tokens left bound the depth. -/
def expression : Parser Parsed := budgeted expressionWithin

/-- An expression, and nothing after it. -/
def wholeExpression : Parser Parsed := do
  let e ← expression
  if ← atEnd then return e else fail (← current) .expectEndOfExpression

end Parser

end Lox
