import Lox.Syntax.Tree

/-!
# Occurrences

Numbering a tree gives each of its references the number of its occurrence, counted on from a
given number in the order of the text. Two references of a numbered tree have different
numbers, and trees numbered one after the other share none.

## Main definitions

* `Occurrence`: the numbers
* `Expr.number`, `Stmt.number`, `Stmt.numberAll`: a tree with numbers, and the next number
* `Expr.marks`, `Stmt.marks`, `Stmt.marksAll`: the marks of a tree's references, in order
-/

namespace Lox

/-- The number of a reference among all that were read. -/
abbrev Occurrence := Nat

/-- A reference with a new mark. -/
def Ref.remark {μ ν : Type} (r : Ref μ) (mark : ν) : Ref ν := ⟨r.token, mark⟩

namespace Expr

variable {μ : Type}

mutual

/-- An expression numbered from `n` on, and the next number. -/
def number (n : Occurrence) : Expr μ → Expr Occurrence × Occurrence
  | .literal value => (.literal value, n)
  | .variable name => (.variable (name.remark n), n + 1)
  | .assign name value =>
    let v := value.number (n + 1)
    (.assign (name.remark n) v.1, v.2)
  | .binary left op token right =>
    let l := left.number n
    let r := right.number l.2
    (.binary l.1 op token r.1, r.2)
  | .logical left op token right =>
    let l := left.number n
    let r := right.number l.2
    (.logical l.1 op token r.1, r.2)
  | .unary op token operand =>
    let e := operand.number n
    (.unary op token e.1, e.2)
  | .ternary question condition whenTrue whenFalse =>
    let c := condition.number n
    let t := whenTrue.number c.2
    let f := whenFalse.number t.2
    (.ternary question c.1 t.1 f.1, f.2)
  | .group inner =>
    let e := inner.number n
    (.group e.1, e.2)
  | .call callee paren arguments =>
    let c := callee.number n
    let as := numberAll c.2 arguments
    (.call c.1 paren as.1, as.2)
  | .field object name =>
    let o := object.number n
    (.field o.1 name, o.2)
  | .setField object name value =>
    let o := object.number n
    let v := value.number o.2
    (.setField o.1 name v.1, v.2)
  | .this keyword => (.this (keyword.remark n), n + 1)
  | .super keyword method => (.super (keyword.remark n) method, n + 1)

/-- Expressions numbered from `n` on, and the next number. -/
def numberAll (n : Occurrence) : List (Expr μ) → List (Expr Occurrence) × Occurrence
  | [] => ([], n)
  | e :: rest =>
    let e' := e.number n
    let rest' := numberAll e'.2 rest
    (e'.1 :: rest'.1, rest'.2)

end

mutual

/-- The marks of an expression's references. -/
def marks : Expr μ → List μ
  | .literal _ => []
  | .variable name => [name.mark]
  | .assign name value => name.mark :: value.marks
  | .binary left _ _ right => left.marks ++ right.marks
  | .logical left _ _ right => left.marks ++ right.marks
  | .unary _ _ operand => operand.marks
  | .ternary _ condition whenTrue whenFalse =>
    condition.marks ++ whenTrue.marks ++ whenFalse.marks
  | .group inner => inner.marks
  | .call callee _ arguments => callee.marks ++ marksAll arguments
  | .field object _ => object.marks
  | .setField object _ value => object.marks ++ value.marks
  | .this keyword => [keyword.mark]
  | .super keyword _ => [keyword.mark]

/-- The marks of the references of expressions. -/
def marksAll : List (Expr μ) → List μ
  | [] => []
  | e :: rest => e.marks ++ marksAll rest

end

/-- An expression that may be absent, numbered from `n` on, and the next number. -/
def number? (n : Occurrence) : Option (Expr μ) → Option (Expr Occurrence) × Occurrence
  | none => (none, n)
  | some e => (some (e.number n).1, (e.number n).2)

/-- The marks of an expression that may be absent. -/
def marks? : Option (Expr μ) → List μ
  | none => []
  | some e => e.marks

end Expr

/-- A reference that may be absent, numbered `n`, and the next number. -/
def Ref.number? {μ : Type} (n : Occurrence) :
    Option (Ref μ) → Option (Ref Occurrence) × Occurrence
  | none => (none, n)
  | some r => (some (r.remark n), n + 1)

namespace Stmt

variable {μ : Type}

mutual

/-- A statement numbered from `n` on, and the next number. -/
def number (n : Occurrence) : Stmt μ → Stmt Occurrence × Occurrence
  | .expression value =>
    let v := value.number n
    (.expression v.1, v.2)
  | .print value =>
    let v := value.number n
    (.print v.1, v.2)
  | .var name initializer =>
    let v := Expr.number? n initializer
    (.var name v.1, v.2)
  | .block body =>
    let b := numberAll n body
    (.block b.1, b.2)
  | .ifThen condition thenBranch =>
    let c := condition.number n
    let t := thenBranch.number c.2
    (.ifThen c.1 t.1, t.2)
  | .ifElse condition thenBranch elseBranch =>
    let c := condition.number n
    let t := thenBranch.number c.2
    let e := elseBranch.number t.2
    (.ifElse c.1 t.1 e.1, e.2)
  | .while condition body =>
    let c := condition.number n
    let b := body.number c.2
    (.while c.1 b.1, b.2)
  | .function decl =>
    let f := numberFunction n decl
    (.function f.1, f.2)
  | .return keyword value =>
    let v := Expr.number? n value
    (.return keyword v.1, v.2)
  | .class name superclass statics methods =>
    let r := Ref.number? n superclass
    let ss := numberFunctions r.2 statics
    let ms := numberFunctions ss.2 methods
    (.class name r.1 ss.1 ms.1, ms.2)

/-- A function numbered from `n` on, and the next number. -/
def numberFunction (n : Occurrence) : FunDecl μ → FunDecl Occurrence × Occurrence
  | .mk name params body =>
    let b := numberAll n body
    (.mk name params b.1, b.2)

/-- Statements numbered from `n` on, and the next number. -/
def numberAll (n : Occurrence) : List (Stmt μ) → List (Stmt Occurrence) × Occurrence
  | [] => ([], n)
  | s :: rest =>
    let s' := s.number n
    let rest' := numberAll s'.2 rest
    (s'.1 :: rest'.1, rest'.2)

/-- Functions numbered from `n` on, and the next number. -/
def numberFunctions (n : Occurrence) :
    List (FunDecl μ) → List (FunDecl Occurrence) × Occurrence
  | [] => ([], n)
  | f :: rest =>
    let f' := numberFunction n f
    let rest' := numberFunctions f'.2 rest
    (f'.1 :: rest'.1, rest'.2)

end

mutual

/-- The marks of a statement's references. -/
def marks : Stmt μ → List μ
  | .expression value => value.marks
  | .print value => value.marks
  | .var _ initializer => Expr.marks? initializer
  | .block body => marksAll body
  | .ifThen condition thenBranch => condition.marks ++ thenBranch.marks
  | .ifElse condition thenBranch elseBranch =>
    condition.marks ++ thenBranch.marks ++ elseBranch.marks
  | .while condition body => condition.marks ++ body.marks
  | .function decl => functionMarks decl
  | .return _ value => Expr.marks? value
  | .class _ superclass statics methods =>
    (superclass.map (·.mark)).toList ++ functionsMarks statics ++ functionsMarks methods

/-- The marks of a function's references. -/
def functionMarks : FunDecl μ → List μ
  | .mk _ _ body => marksAll body

/-- The marks of the references of statements. -/
def marksAll : List (Stmt μ) → List μ
  | [] => []
  | s :: rest => s.marks ++ marksAll rest

/-- The marks of the references of functions. -/
def functionsMarks : List (FunDecl μ) → List μ
  | [] => []
  | f :: rest => functionMarks f ++ functionsMarks rest

end

end Stmt

end Lox
