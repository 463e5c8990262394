import Lox.Fault
import Lox.Syntax.Tree

/-!
# Outlines of syntax trees

An outline shows every part of a tree under the label of its node: tokens, constants, absent
parts, and the nodes that group parameters, bodies and members.

## Main definitions

* `Label`: the labels of nodes, with `Label.sort`
* `Outline`
* `Expr.outline`, `Stmt.outline`: the outline of a tree
* `Pass.check`: the labels that a pass over trees meets
-/

namespace Lox

/-- The labels of nodes. -/
inductive Label where
  | literal | variable | assign | binary | logical | unary | ternary | group | call | field
  | setField | thisRef | superRef
  | exprStmt | printStmt | varDecl | block | ifStmt | whileStmt | function | returnStmt | classDef
  | params | body | statics | methods
  deriving DecidableEq, Repr

/-- What a node stands for. -/
inductive NodeSort where
  /-- An expression. -/
  | expression
  /-- A statement. -/
  | statement
  /-- A part of a declaration. -/
  | part
  deriving DecidableEq, Repr

namespace NodeSort

/-- The name of a sort. -/
def text : NodeSort → String
  | .expression => "expr"
  | .statement => "stmt"
  | .part => "part"

end NodeSort

namespace Label

/-- Every label. -/
def all : List Label :=
  [.literal, .variable, .assign, .binary, .logical, .unary, .ternary, .group, .call, .field,
   .setField, .thisRef, .superRef, .exprStmt, .printStmt, .varDecl, .block, .ifStmt, .whileStmt,
   .function, .returnStmt, .classDef, .params, .body, .statics, .methods]

/-- How a label is written. -/
def text : Label → String
  | .literal => "literal"
  | .variable => "variable"
  | .assign => "assign"
  | .binary => "binary"
  | .logical => "logical"
  | .unary => "unary"
  | .ternary => "ternary"
  | .group => "group"
  | .call => "call"
  | .field => "field"
  | .setField => "setfield"
  | .thisRef => "thisref"
  | .superRef => "superref"
  | .exprStmt => "exprstmt"
  | .printStmt => "printstmt"
  | .varDecl => "vardecl"
  | .block => "block"
  | .ifStmt => "ifstmt"
  | .whileStmt => "whilestmt"
  | .function => "fndef"
  | .returnStmt => "returnstmt"
  | .classDef => "classdef"
  | .params => "params"
  | .body => "body"
  | .statics => "statics"
  | .methods => "methods"

/-- What a node with a label stands for. -/
def sort : Label → NodeSort
  | .literal | .variable | .assign | .binary | .logical | .unary | .ternary | .group | .call
  | .field | .setField | .thisRef | .superRef => .expression
  | .exprStmt | .printStmt | .varDecl | .block | .ifStmt | .whileStmt | .function | .returnStmt
  | .classDef => .statement
  | .params | .body | .statics | .methods => .part

/-- The label that a text writes. -/
def ofText? (s : String) : Option Label := all.find? (·.text == s)

end Label

/-- A tree with labels. -/
inductive Outline where
  /-- A part that is not there. -/
  | absent
  /-- A token. -/
  | token (t : Token)
  /-- A constant. -/
  | value (v : Literal)
  /-- A node with its parts. -/
  | node (label : Label) (parts : List Outline)

/-- The node of a superclass. -/
def Ref.outline {μ : Type} (label : Label) (r : Ref μ) : Outline := .node label [.token r.token]

/-- A part that may not be there. -/
def Outline.ofOption (o : Option Outline) : Outline := o.getD .absent

namespace Expr

variable {μ : Type}

mutual

/-- The outline of an expression. -/
def outline : Expr μ → Outline
  | .literal value => .node .literal [.value value]
  | .variable name => name.outline .variable
  | .assign name value => .node .assign [.token name.token, value.outline]
  | .binary left _ token right => .node .binary [left.outline, .token token, right.outline]
  | .logical left _ token right => .node .logical [left.outline, .token token, right.outline]
  | .unary _ token operand => .node .unary [.token token, operand.outline]
  | .ternary question condition whenTrue whenFalse =>
    .node .ternary [.token question, condition.outline, whenTrue.outline, whenFalse.outline]
  | .group inner => .node .group [inner.outline]
  | .call callee paren arguments =>
    .node .call (callee.outline :: .token paren :: outlines arguments)
  | .field object name => .node .field [object.outline, .token name]
  | .setField object name value => .node .setField [object.outline, .token name, value.outline]
  | .this keyword => keyword.outline .thisRef
  | .super keyword method => .node .superRef [.token keyword.token, .token method]

/-- The outlines of expressions. -/
def outlines : List (Expr μ) → List Outline
  | [] => []
  | e :: rest => e.outline :: outlines rest

end

end Expr

namespace Stmt

variable {μ : Type}

mutual

/-- The outline of a statement. -/
def outline : Stmt μ → Outline
  | .expression value => .node .exprStmt [value.outline]
  | .print value => .node .printStmt [value.outline]
  | .var name initializer =>
    .node .varDecl [.token name, .ofOption (initializer.map Expr.outline)]
  | .block body => .node .block (outlines body)
  | .ifThen condition thenBranch =>
    .node .ifStmt [condition.outline, thenBranch.outline, .absent]
  | .ifElse condition thenBranch elseBranch =>
    .node .ifStmt [condition.outline, thenBranch.outline, elseBranch.outline]
  | .while condition body => .node .whileStmt [condition.outline, body.outline]
  | .function decl => functionOutline decl
  | .return keyword value =>
    .node .returnStmt [.token keyword, .ofOption (value.map Expr.outline)]
  | .class name superclass statics methods =>
    .node .classDef [.token name, .ofOption (superclass.map (Ref.outline .variable)),
      .node .statics (functionOutlines statics), .node .methods (functionOutlines methods)]

/-- The outline of a function. -/
def functionOutline : FunDecl μ → Outline
  | .mk name params body =>
    .node .function [.token name, .node .params (params.map .token), .node .body (outlines body)]

/-- The outlines of statements. -/
def outlines : List (Stmt μ) → List Outline
  | [] => []
  | s :: rest => s.outline :: outlines rest

/-- The outlines of functions. -/
def functionOutlines : List (FunDecl μ) → List Outline
  | [] => []
  | f :: rest => functionOutline f :: functionOutlines rest

end

end Stmt

/-- The label of a node as a pass over trees meets it: passes know the expressions and the
statements, and reach parts of declarations through these alone. -/
def Pass.check (pass : Pass) (label : String) : Except Fault Label :=
  match (Label.ofText? label).filter (·.sort ≠ .part) with
  | some l => .ok l
  | none => .error (.unknownNode pass label)

end Lox
