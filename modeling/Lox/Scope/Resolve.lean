import Lox.Scope.Context
import Lox.Syntax.Outline

/-!
# Resolving references

Resolving a program finds for every reference the number of scopes between it and its
declaration, and every misuse of names, `this`, `super` and `return`. A reference that no scope
declares has no distance: it is looked up among the globals when the program runs. Findings
come in the order in which the program is walked, and a misuse ends nothing.

## Main definitions

* `Finding`: a distance or a report
* `Expr.resolve`, `Stmt.resolve`, `Stmt.resolveAll`: the findings of a tree
* `resolve`: the findings of a program
-/

namespace Lox

/-- What resolving a program finds. -/
inductive Finding (μ : Type) where
  /-- The distance of a reference, whose node has a label. -/
  | resolved (label : Label) (ref : Ref μ) (distance : Nat)
  /-- A misuse. -/
  | misuse (report : Report)
  deriving DecidableEq, Repr

namespace Finding

variable {μ : Type}

/-- The report of a finding. -/
def report? : Finding μ → Option Report
  | .resolved .. => none
  | .misuse r => some r

/-- The mark and the distance of a finding. -/
def entry? : Finding μ → Option (μ × Nat)
  | .resolved _ ref distance => some (ref.mark, distance)
  | .misuse _ => none

/-- A misuse at a token. -/
def ofToken (t : Token) (e : ScopeError) : Finding μ := .misuse (.ofToken t (.scope e))

end Finding

namespace Context

variable {μ : Type}

/-- The misuse of declaring a name that the innermost scope declares. -/
def redeclaration (c : Context) (name : Token) : List (Finding μ) :=
  if c.declares name.lexeme then [.ofToken name .redeclared] else []

/-- The distance of a reference, if a scope declares its name. -/
def locate (c : Context) (label : Label) (ref : Ref μ) : List (Finding μ) :=
  match c.distance? ref.token.lexeme with
  | some d => [.resolved label ref d]
  | none => []

/-- The context of a function's body: the parameters are in a scope of their own. -/
def enterFunction (c : Context) (kind : FunctionKind) (params : List Token) : Context :=
  params.foldl (fun c p => (c.declare p).define p) { c.enter .empty with function := kind }

/-- The misuses among a function's parameters, in the context before each. -/
def parameterFindings (c : Context) : List Token → List (Finding μ)
  | [] => []
  | p :: rest => c.redeclaration p ++ ((c.declare p).define p).parameterFindings rest

/-- The context of a class's members: a superclass opens a scope with `super`, and every class
one with `this`. -/
def enterClass (c : Context) (superclass : Option (Ref μ)) : Context :=
  match superclass with
  | none => { c.enter (Table.empty.set "this" true) with enclosingClass := .base }
  | some _ =>
    { (c.enter (Table.empty.set "super" true)).enter (Table.empty.set "this" true) with
      enclosingClass := .derived }

end Context

namespace Expr

variable {μ : Type}

mutual

/-- The findings of an expression. -/
def resolve (c : Context) : Expr μ → List (Finding μ)
  | .literal _ => []
  | .variable name =>
    (if c.inInitializer name.token.lexeme then [.ofToken name.token .ownInitializer] else []) ++
      c.locate .variable name
  | .assign name value => value.resolve c ++ c.locate .assign name
  | .binary left _ _ right => left.resolve c ++ right.resolve c
  | .logical left _ _ right => left.resolve c ++ right.resolve c
  | .unary _ _ operand => operand.resolve c
  | .ternary _ condition whenTrue whenFalse =>
    condition.resolve c ++ whenTrue.resolve c ++ whenFalse.resolve c
  | .group inner => inner.resolve c
  | .call callee _ arguments => callee.resolve c ++ resolveAll c arguments
  | .field object _ => object.resolve c
  | .setField object _ value => value.resolve c ++ object.resolve c
  | .this keyword =>
    match c.enclosingClass with
    | .none => [.ofToken keyword.token .thisOutsideClass]
    | .base | .derived => c.locate .thisRef keyword
  | .super keyword _ =>
    match c.enclosingClass with
    | .none => [.ofToken keyword.token .superOutsideClass]
    | .base => [.ofToken keyword.token .superWithoutSuperclass]
    | .derived => c.locate .superRef keyword

/-- The findings of expressions. -/
def resolveAll (c : Context) : List (Expr μ) → List (Finding μ)
  | [] => []
  | e :: rest => e.resolve c ++ resolveAll c rest

end

/-- The findings of an expression that may be absent. -/
def resolve? (c : Context) : Option (Expr μ) → List (Finding μ)
  | none => []
  | some e => e.resolve c

end Expr

/-- The kind of a member of a class: an initializer if it is an instance method of that name. -/
def FunDecl.methodKind {μ : Type} (f : FunDecl μ) : FunctionKind :=
  if f.isInitName then .initializer else .method

/-- The findings of a class's name and superclass. -/
def Context.classFindings {μ : Type} (c : Context) (name : Token) :
    Option (Ref μ) → List (Finding μ)
  | none => []
  | some superclass =>
    (if superclass.token.lexeme = name.lexeme
      then [.ofToken superclass.token .selfInheritance] else []) ++
      (Expr.variable superclass).resolve c

/-- The findings of a `return`. -/
def Context.returnFindings {μ : Type} (c : Context) (keyword : Token) (value : Option (Expr μ)) :
    List (Finding μ) :=
  (if c.function = .none then [.ofToken keyword .returnOutsideFunction] else []) ++
    (if value.isSome && c.function = .initializer
      then [.ofToken keyword .returnFromInitializer] else []) ++
    Expr.resolve? c value

namespace Stmt

variable {μ : Type}

mutual

/-- The context after a statement, and the findings of the statement. -/
def resolve (c : Context) : Stmt μ → Context × List (Finding μ)
  | .expression value => (c, value.resolve c)
  | .print value => (c, value.resolve c)
  | .var name initializer =>
    ((c.declare name).define name,
      c.redeclaration name ++ Expr.resolve? (c.declare name) initializer)
  | .block body => (c, (resolveAll (c.enter .empty) body).2)
  | .ifThen condition thenBranch =>
    let t := thenBranch.resolve c
    (t.1, condition.resolve c ++ t.2)
  | .ifElse condition thenBranch elseBranch =>
    let t := thenBranch.resolve c
    let e := elseBranch.resolve t.1
    (e.1, condition.resolve c ++ t.2 ++ e.2)
  | .while condition body =>
    let b := body.resolve c
    (b.1, condition.resolve c ++ b.2)
  | .function decl =>
    let c' := (c.declare decl.name).define decl.name
    (c', c.redeclaration decl.name ++ resolveFunction c' .function decl)
  | .return keyword value => (c, c.returnFindings keyword value)
  | .class name superclass statics methods =>
    let c' := (c.declare name).define name
    let inside := c'.enterClass superclass
    (c', c.redeclaration name ++ c'.classFindings name superclass ++
      resolveMethods inside methods ++ resolveStatics inside statics)

/-- The findings of a function. -/
def resolveFunction (c : Context) (kind : FunctionKind) : FunDecl μ → List (Finding μ)
  | .mk _ params body =>
    { c.enter .empty with function := kind }.parameterFindings params ++
      (resolveAll (c.enterFunction kind params) body).2

/-- The context after statements, and their findings. -/
def resolveAll (c : Context) : List (Stmt μ) → Context × List (Finding μ)
  | [] => (c, [])
  | s :: rest =>
    let s' := s.resolve c
    let rest' := resolveAll s'.1 rest
    (rest'.1, s'.2 ++ rest'.2)

/-- The findings of instance methods. -/
def resolveMethods (c : Context) : List (FunDecl μ) → List (Finding μ)
  | [] => []
  | f :: rest => resolveFunction c f.methodKind f ++ resolveMethods c rest

/-- The findings of static methods, of which none is an initializer. -/
def resolveStatics (c : Context) : List (FunDecl μ) → List (Finding μ)
  | [] => []
  | f :: rest => resolveFunction c .method f ++ resolveStatics c rest

end

end Stmt

/-- The findings of a program. -/
def resolve {μ : Type} (body : List (Stmt μ)) : List (Finding μ) := (Stmt.resolveAll {} body).2

end Lox
