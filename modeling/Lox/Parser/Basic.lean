import Lox.Report

/-!
# Parsers over tokens

A parser reads tokens from the front of a stream, whose end is marked by a token of its own,
and may report problems. It ends with a result, or unwinds to the enclosing declaration after a
problem that leaves it without one. Loops and nested constructs run on a budget of one step for
each token left and one for the end; a parser that overran it would say so, and not answer.

## Main definitions

* `Stream`, with `Stream.current` and `Stream.synchronize`
* `Outcome`, `Reply`, `Parser`: parsers that report
* `Parser.accept?`, `Parser.expect`: reading one token
* `Budget`, `Parser.budgeted`: the steps that a loop or a nested construct may take
* `Parser.iterate`, `Parser.separated`, `Parser.itemsUntil`: the three kinds of loops
* `Parser.recover`: turning an unwinding into the loss of one declaration
-/

namespace Lox

/-- The tokens that are left, and the token that marks the end of the input. -/
structure Stream where
  /-- The tokens before the end. -/
  ahead : List Token
  /-- The end of the input. -/
  finish : Token
  deriving DecidableEq, Repr

namespace Stream

/-- The token at the front. -/
def current (s : Stream) : Token := s.ahead.headD s.finish

/-- Whether a token starts a declaration or a statement. -/
def startsStatement (t : Token) : Bool :=
  match t.kind with
  | .keyword .classWord | .keyword .funWord | .keyword .varWord | .keyword .forWord
  | .keyword .ifWord | .keyword .whileWord | .keyword .printWord | .keyword .returnWord => true
  | _ => false

/-- The tokens from the next boundary of statements on, after the token `last`: a boundary
follows a semicolon and precedes a token that starts a statement. -/
def fromBoundary (last : Token) : List Token → List Token
  | [] => []
  | t :: rest =>
    if last.isSymbol .semicolon || startsStatement t then t :: rest else fromBoundary t rest

/-- The stream from the next boundary of statements on; the token at the front is skipped. -/
def synchronize (s : Stream) : Stream :=
  match s.ahead with
  | [] => s
  | t :: rest => { s with ahead := fromBoundary t rest }

end Stream

/-- A problem that leaves a parser without a result, and the token it was found at. -/
structure Unwinding where
  /-- The problem. -/
  problem : SyntaxError
  /-- The token. -/
  token : Token
  deriving DecidableEq, Repr

namespace Unwinding

/-- The text that tells an unwinding. -/
def text (u : Unwinding) : String :=
  u.problem.message ++ " at line " ++ Decimal.Layout.digits u.token.line ++ ", col " ++
    Decimal.Layout.digits u.token.column

end Unwinding

/-- How a parser ends. -/
inductive Outcome (α : Type) where
  /-- With a result. -/
  | ok (a : α) (rest : Stream)
  /-- Unwinding to the enclosing declaration. -/
  | unwound (u : Unwinding) (rest : Stream)
  /-- Out of its budget. -/
  | exhausted

/-- What a parser reported, in order, and how it ended. -/
structure Reply (α : Type) where
  /-- The reports. -/
  reports : List Report
  /-- The end. -/
  outcome : Outcome α

/-- The tokens that stand for the steps a parser may still take. -/
abbrev Budget : Type := List Token

/-- A parser of tokens. -/
def Parser (α : Type) : Type := Stream → Reply α

namespace Parser

variable {α β : Type}

/-- The parser that reads nothing. -/
protected def pure (a : α) : Parser α := fun s => ⟨[], .ok a s⟩

/-- One parser after another. -/
protected def bind (p : Parser α) (f : α → Parser β) : Parser β := fun s =>
  match p s with
  | ⟨reports, .ok a rest⟩ => ⟨reports ++ (f a rest).reports, (f a rest).outcome⟩
  | ⟨reports, .unwound u rest⟩ => ⟨reports, .unwound u rest⟩
  | ⟨reports, .exhausted⟩ => ⟨reports, .exhausted⟩

instance : Monad Parser where
  pure := Parser.pure
  bind := Parser.bind

/-- The parser whose budget is spent. -/
def exhausted : Parser α := fun _ => ⟨[], .exhausted⟩

/-- The token at the front, which stays there. -/
def current : Parser Token := fun s => ⟨[], .ok s.current s⟩

/-- Whether no token is left. -/
def atEnd : Parser Bool := fun s => ⟨[], .ok s.ahead.isEmpty s⟩

/-- A problem reported at a token, without unwinding. -/
def report (t : Token) (e : SyntaxError) : Parser Unit := fun s =>
  ⟨[.ofToken t (.grammar e)], .ok () s⟩

/-- A problem reported at a token, unwinding. -/
def fail (t : Token) (e : SyntaxError) : Parser α := fun s =>
  ⟨[.ofToken t (.grammar e)], .unwound ⟨e, t⟩ s⟩

/-- Reads the token at the front if `f` takes it. -/
def acceptMap? (f : Token → Option α) : Parser (Option α) := fun s =>
  match s.ahead with
  | [] => ⟨[], .ok none s⟩
  | t :: rest =>
    match f t with
    | some a => ⟨[], .ok (some a) { s with ahead := rest }⟩
    | none => ⟨[], .ok none s⟩

/-- Reads the token at the front if it satisfies `p`. -/
def accept? (p : Token → Bool) : Parser (Option Token) :=
  acceptMap? fun t => if p t then some t else none

/-- Reads the token at the front if it satisfies `p`, and says whether it did. -/
def accept (p : Token → Bool) : Parser Bool := do return (← accept? p).isSome

/-- Reads the token at the front, which has to satisfy `p`. -/
def expect (p : Token → Bool) (e : SyntaxError) : Parser Token := do
  match ← accept? p with
  | some t => return t
  | none => fail (← current) e

/-- Reads a symbol. -/
def symbol (s : Symbol) (e : SyntaxError) : Parser Token := expect (·.isSymbol s) e

/-- Reads a name. -/
def identifier (e : SyntaxError) : Parser Token := expect (·.kind = .identifier) e

/-- Whether the token at the front is a symbol. -/
def nextIs (s : Symbol) : Parser Bool := do return (← current).isSymbol s

/-- Runs a parser on a budget of a step for each token left and one for the end. -/
def budgeted (p : Budget → Parser α) : Parser α := fun s => p (s.finish :: s.ahead) s

/-- Steps from `a` on while `step` yields something to go on from. -/
def iterateWithin (step : α → Parser (Option α)) : Budget → α → Parser α
  | [], _ => exhausted
  | _ :: budget, a => do
    match ← step a with
    | some b => iterateWithin step budget b
    | none => return a

/-- Steps from `a` on while `step` yields something to go on from. -/
def iterate (step : α → Parser (Option α)) (a : α) : Parser α :=
  budgeted fun budget => iterateWithin step budget a

/-- Items separated by commas, at least one, of which `count` have been read: each item past
the limit is reported, and read all the same. -/
def separatedWithin (tooMany : SyntaxError) (item : Parser α) :
    Budget → Nat → Parser (List α)
  | [], _ => exhausted
  | _ :: budget, count => do
    if argumentLimit ≤ count then report (← current) tooMany
    let a ← item
    if ← accept (·.isSymbol .comma) then
      return a :: (← separatedWithin tooMany item budget (count + 1))
    else
      return [a]

/-- Items separated by commas up to a closing parenthesis, which stays: possibly none. -/
def separated (tooMany : SyntaxError) (item : Parser α) : Parser (List α) := do
  if ← nextIs .rightParen then return []
  else budgeted fun budget => separatedWithin tooMany item budget 0

/-- Items up to a token that satisfies `stop`, or to the end; an item may be lost. -/
def itemsWithin (stop : Token → Bool) (item : Parser (Option α)) : Budget → Parser (List α)
  | [] => exhausted
  | _ :: budget => do
    if stop (← current) || (← atEnd) then return []
    else
      let a ← item
      return a.toList ++ (← itemsWithin stop item budget)

/-- Items up to a token that satisfies `stop`, or to the end; an item may be lost. -/
def itemsUntil (stop : Token → Bool) (item : Parser (Option α)) : Parser (List α) :=
  budgeted (itemsWithin stop item)

/-- Runs a parser; where it unwinds, its result is lost and reading resumes at the next
boundary of statements. -/
def recover (p : Parser α) : Parser (Option α) := fun s =>
  match p s with
  | ⟨reports, .ok a rest⟩ => ⟨reports, .ok (some a) rest⟩
  | ⟨reports, .unwound _ rest⟩ => ⟨reports, .ok none rest.synchronize⟩
  | ⟨reports, .exhausted⟩ => ⟨reports, .exhausted⟩

@[simp] theorem pure_apply (a : α) (s : Stream) : (pure a : Parser α) s = ⟨[], .ok a s⟩ := rfl

theorem bind_apply (p : Parser α) (f : α → Parser β) (s : Stream) :
    (p >>= f) s = match p s with
      | ⟨reports, .ok a rest⟩ => ⟨reports ++ (f a rest).reports, (f a rest).outcome⟩
      | ⟨reports, .unwound u rest⟩ => ⟨reports, .unwound u rest⟩
      | ⟨reports, .exhausted⟩ => ⟨reports, .exhausted⟩ := rfl

end Parser

end Lox
