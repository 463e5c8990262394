import Lox.Event
import Lox.Scope.Locals
import Lox.Store.Object

/-!
# Configurations of the evaluator

The evaluator is a machine that runs a program in small steps. A configuration holds what is
done next and the state it is done in. What remains to be done afterwards is a
continuation: one kind waits for the value of an expression, the other for the end of a
statement, so that every value and every end meets a continuation that can take it.

## Main definitions

* `Completion`: the two ends of a statement
* `ValueCont`, `StmtCont`: continuations
* `Control`, `State`, `Config`
* `Config.ofProgram`: where the run of a program starts
-/

namespace Lox

/-- A statement as it is run. -/
abbrev Code := Stmt Occurrence

/-- An expression as it is run. -/
abbrev ExprCode := Expr Occurrence

/-- How a statement ends. -/
inductive Completion where
  /-- The next statement follows. -/
  | normal
  /-- The enclosing call ends with a value. -/
  | returned (v : Value)
  deriving DecidableEq, Repr

/-- What a call yields when the body of the function ends. -/
inductive CallResult where
  /-- The value that the body returned, else nil. -/
  | returned
  /-- The receiver of the function with a closure, whatever the body returned. -/
  | receiver (closure : EnvId)
  /-- A new instance, whatever the body returned. -/
  | constructed (i : InstanceId)
  deriving DecidableEq, Repr

mutual

/-- What is done with the value of an expression. -/
inductive ValueCont where
  /-- It is the result of the run. -/
  | answer
  /-- It is assigned to a variable. -/
  | assign (name : Ref Occurrence) (k : ValueCont)
  /-- It is the left operand; the right one follows. -/
  | binaryRight (op : BinaryOp) (token : Token) (right : ExprCode) (k : ValueCont)
  /-- It is the right operand. -/
  | binaryDone (op : BinaryOp) (token : Token) (left : Value) (k : ValueCont)
  /-- It decides whether the right operand is evaluated. -/
  | logicalRight (op : LogicalOp) (right : ExprCode) (k : ValueCont)
  /-- It is the operand. -/
  | unary (op : UnaryOp) (token : Token) (k : ValueCont)
  /-- It decides between two expressions. -/
  | choose (whenTrue whenFalse : ExprCode) (k : ValueCont)
  /-- It is called; the arguments follow. -/
  | callee (paren : Token) (arguments : List ExprCode) (k : ValueCont)
  /-- It is an argument after others, and further ones follow. -/
  | argument (paren : Token) (callee : Value) (done : List Value) (rest : List ExprCode)
    (k : ValueCont)
  /-- It is the object of which a property is read. -/
  | field (name : Token) (k : ValueCont)
  /-- It is the object of which a field is set; the value follows. -/
  | fieldTarget (name : Token) (value : ExprCode) (k : ValueCont)
  /-- It is what a field of an instance is set to. -/
  | fieldValue (target : InstanceId) (name : Token) (k : ValueCont)
  /-- It is dropped, or echoed. -/
  | expression (k : StmtCont)
  /-- It is printed. -/
  | print (k : StmtCont)
  /-- It initializes a variable. -/
  | var (name : Token) (k : StmtCont)
  /-- It decides whether a branch is taken. -/
  | ifThen (thenBranch : Code) (k : StmtCont)
  /-- It decides between two branches. -/
  | ifElse (thenBranch elseBranch : Code) (k : StmtCont)
  /-- It decides whether a loop goes on. -/
  | while (condition : ExprCode) (body : Code) (k : StmtCont)
  /-- The enclosing call ends with it. -/
  | return (k : StmtCont)
  /-- It is the superclass of a class. -/
  | inherit (superclass name : Token) (statics methods : List (FunDecl Occurrence))
    (k : StmtCont)

/-- What is done when a statement has ended. -/
inductive StmtCont where
  /-- The statements of a program follow, however the statement ended. -/
  | program (rest : List Code)
  /-- The statements of a body follow. -/
  | seq (rest : List Code) (k : StmtCont)
  /-- A block is left for the environment around it. -/
  | leave (outer : EnvId) (k : StmtCont)
  /-- The condition of a loop is tested again. -/
  | loop (condition : ExprCode) (body : Code) (k : StmtCont)
  /-- A call is over: its caller goes on in an environment of its own. -/
  | activation (caller : EnvId) (result : CallResult) (k : ValueCont)

end

/-- What is done next. -/
inductive Control where
  /-- An expression is evaluated. -/
  | evaluate (e : ExprCode) (k : ValueCont)
  /-- A statement is executed. -/
  | execute (s : Code) (k : StmtCont)
  /-- A value is handed on. -/
  | deliver (v : Value) (k : ValueCont)
  /-- The end of a statement is handed on. -/
  | complete (c : Completion) (k : StmtCont)

/-- What the steps of the machine read and change beside what is done next. -/
structure State where
  /-- The current environment. -/
  environment : EnvId := Store.globals
  /-- The objects. -/
  store : Store
  /-- The number of calls that have not ended. -/
  depth : Nat := 0
  /-- How often the clock was read. -/
  readings : Nat := 0
  /-- How many operations were done. -/
  operations : Nat := 0

/-- A configuration of the machine. -/
structure Config where
  /-- What is done next. -/
  control : Control
  /-- The state it is done in. -/
  state : State

namespace Config

/-- The start of a program. -/
def ofProgram (state : State) (body : List Code) : Config :=
  ⟨.complete .normal (.program body), state⟩

end Config

end Lox
