import Lox.Proofs.Decimal.Numerals
import Lox.Proofs.Syntax.Sexp
import Lox.Scan.Piece
import Lox.Syntax.Outline
import Lox.Syntax.Printer

/-!
# Shapes of syntax trees

The shape of a tree is its outline without the places of tokens, in which a number stands by its
text. The symbolic expression of a tree can be read back to its shape: the word at the front of a
list and the number of its items tell which node they are, and the first character of an atom tells
a name from a number. A string would stand there as it is, and infinity as a name would, so neither
may occur.

## Main definitions

* `Shape`, with `Outline.shape`
* `Outline.Plain`: outlines without strings and with finite numbers only
* `Sexp.readExpr`, `Sexp.readStmt`: reading symbolic expressions back

## Main results

* `Sexp.readExpr_tagged`: a list is read by the word at its front and what its items show
-/

namespace Lox

/-! ## Shapes -/

/-- What is left of an outline when tokens are known by their texts alone, and numbers too. -/
inductive Shape where
  /-- A part that is not there. -/
  | absent
  /-- A token. -/
  | word (lexeme : String)
  /-- The constant nil. -/
  | nil
  /-- A truth value. -/
  | bool (value : Bool)
  /-- A number. -/
  | number (text : String)
  /-- A string. -/
  | string (value : String)
  /-- A node with its parts. -/
  | node (label : Label) (parts : List Shape)

namespace Literal

/-- The shape of a constant. -/
def shape : Literal → Shape
  | .nil => .nil
  | .bool value => .bool value
  | .number v => .number (Literal.number v).text
  | .string s => .string s

/-- Constants that are no strings and, if numbers, finite. -/
def Plain : Literal → Prop
  | .nil | .bool _ => True
  | .number v => v.isFinite
  | .string _ => False

end Literal

namespace Outline

mutual

/-- The shape of an outline. -/
def shape : Outline → Shape
  | .absent => .absent
  | .token t => .word t.lexeme
  | .value v => v.shape
  | .node label parts => .node label (shapes parts)

/-- The shapes of outlines. -/
def shapes : List Outline → List Shape
  | [] => []
  | o :: rest => o.shape :: shapes rest

end

mutual

/-- Every constant is plain. -/
def Plain : Outline → Prop
  | .absent | .token _ => True
  | .value v => v.Plain
  | .node _ parts => PlainAll parts

/-- Every constant of every outline is plain. -/
def PlainAll : List Outline → Prop
  | [] => True
  | o :: rest => o.Plain ∧ PlainAll rest

end

instance (v : Literal) : Decidable v.Plain := by
  unfold Literal.Plain
  split <;> infer_instance

mutual

/-- Whether every constant is plain. -/
def decidablePlain : (o : Outline) → Decidable o.Plain
  | .absent | .token _ => .isTrue trivial
  | .value v => inferInstanceAs (Decidable v.Plain)
  | .node _ parts => decidablePlainAll parts

/-- Whether every constant of every outline is plain. -/
def decidablePlainAll : (os : List Outline) → Decidable (PlainAll os)
  | [] => .isTrue trivial
  | o :: rest => @instDecidableAnd _ _ (decidablePlain o) (decidablePlainAll rest)

end

instance : DecidablePred Plain := decidablePlain

end Outline

/-! ## Reading -/

namespace Shape

/-- The expression that an atom shows. -/
def ofAtom (text : List Char) : Shape :=
  match String.ofList text with
  | "nil" => .node .literal [.nil]
  | "true" => .node .literal [.bool true]
  | "false" => .node .literal [.bool false]
  | "this" => .node .thisRef [.word "this"]
  | s =>
    if text.head?.any Piece.startsName then .node .variable [.word s]
    else .node .literal [.number s]

/-- The expression that a list shows, given the atom at its front and what the other items show as
expressions. -/
def ofList (head : String) (parts : List Shape) : Shape :=
  match head, parts with
  -- what the target of an assignment looks like tells which one it is
  | "=", [.node .variable [name], value] => .node .assign [name, value]
  | "=", [.node .field [object, name], value] => .node .setField [object, name, value]
  | ".", [object, .node .variable [name]] => .node .field [object, name]
  | "?:", [condition, whenTrue, whenFalse] =>
    .node .ternary [.word "?", condition, whenTrue, whenFalse]
  | "group", [inner] => .node .group [inner]
  | "call", callee :: arguments => .node .call (callee :: .word ")" :: arguments)
  | "super", [.node .variable [method]] => .node .superRef [.word "super", method]
  | "and", [left, right] => .node .logical [left, .word "and", right]
  | "or", [left, right] => .node .logical [left, .word "or", right]
  | op, [left, right] => .node .binary [left, .word op, right]
  | op, [operand] => .node .unary [.word op, operand]
  | _, _ => .absent

/-- The name that an atom shows. -/
def ofName : Sexp → Shape
  | .atom text => .word (String.ofList text)
  | .list _ => .absent

end Shape

namespace Sexp

mutual

/-- The shape of the expression that is shown. -/
def readExpr : Sexp → Shape
  | .atom text => .ofAtom text
  | .list (.atom head :: parts) => .ofList (String.ofList head) (readExprs parts)
  | .list _ => .absent

/-- The shapes of the expressions that are shown. -/
def readExprs : List Sexp → List Shape
  | [] => []
  | e :: rest => e.readExpr :: readExprs rest

end

mutual

/-- The shape of the statement that is shown. -/
def readStmt : Sexp → Shape
  | .list (.atom head :: parts) =>
    match String.ofList head, parts with
    | ";", [value] => .node .exprStmt [value.readExpr]
    | "print", [value] => .node .printStmt [value.readExpr]
    | "var", [name] => .node .varDecl [.ofName name, .absent]
    | "var", [name, value] => .node .varDecl [.ofName name, value.readExpr]
    | "block", body => .node .block (readStmts body)
    | "if", [condition, thenBranch] =>
      .node .ifStmt [condition.readExpr, thenBranch.readStmt, .absent]
    | "if-else", [condition, thenBranch, elseBranch] =>
      .node .ifStmt [condition.readExpr, thenBranch.readStmt, elseBranch.readStmt]
    | "while", [condition, body] => .node .whileStmt [condition.readExpr, body.readStmt]
    | "fun", parts => readFunction parts
    | "return", [] => .node .returnStmt [.word "return", .absent]
    | "return", [value] => .node .returnStmt [.word "return", value.readExpr]
    -- members are lists, so an atom here is the sign before a superclass
    | "class", name :: .atom _ :: superclass :: members =>
      .node .classDef [.ofName name, .node .variable [.ofName superclass],
        .node .statics (readMembers "class" members), .node .methods (readMembers "fun" members)]
    | "class", name :: members =>
      .node .classDef [.ofName name, .absent,
        .node .statics (readMembers "class" members), .node .methods (readMembers "fun" members)]
    | _, _ => .absent
  | _ => .absent

/-- The shapes of the statements that are shown. -/
def readStmts : List Sexp → List Shape
  | [] => []
  | s :: rest => s.readStmt :: readStmts rest

/-- The shape of the function that is shown behind a word. -/
def readFunction : List Sexp → Shape
  | name :: .list params :: body =>
    .node .function [.ofName name, .node .params (params.map .ofName),
      .node .body (readStmts body)]
  | _ => .absent

/-- The shapes of the functions that are shown behind a given word. -/
def readMembers (head : String) : List Sexp → List Shape
  | [] => []
  | .list (.atom word :: parts) :: rest =>
    if String.ofList word = head then readFunction parts :: readMembers head rest
    else readMembers head rest
  | _ :: rest => readMembers head rest

end

theorem readExpr_tagged (head : String) (parts : List Sexp) :
    (tagged head parts).readExpr = .ofList head (readExprs parts) := by
  simp [tagged, ofString, readExpr]

end Sexp

end Lox
