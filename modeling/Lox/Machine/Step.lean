import Lox.Machine.State

/-!
# Steps of the evaluator

A step either leads to the next configuration, with at most one event, or halts. Statements are
executed and expressions evaluated one construct at a time, operands and arguments from left to
right; a returned value passes over what is left of the body and over its loops and blocks up to
the call.

## Main definitions

* `Halt`, `Progress`: what a step leads to
* `State.call`: calling a value
* `State.evaluate`, `State.execute`, `State.deliver`, `State.complete`: the four kinds of steps
* `Config.step`: a step
-/

namespace Lox

/-- How a run ends. -/
inductive Halt where
  /-- The program is over. -/
  | finished
  /-- An expression or a call has a value. -/
  | value (v : Value)
  /-- The run is cut off. -/
  | aborted (a : Abort)
  deriving DecidableEq, Repr

/-- What a step leads to. -/
inductive Progress where
  /-- Another configuration, and what could be seen. -/
  | next (c : Config) (event : Option Event)
  /-- The end of the run, and the state it ends in. -/
  | halt (h : Halt) (state : State)

namespace Progress

/-- The run is cut off. -/
def abort (st : State) (a : Abort) : Progress := .halt (.aborted a) st

/-- An expression is evaluated next. -/
def evaluate (st : State) (e : ExprCode) (k : ValueCont) : Progress :=
  .next ⟨.evaluate e k, st⟩ none

/-- A statement is executed next. -/
def execute (st : State) (s : Code) (k : StmtCont) : Progress := .next ⟨.execute s k, st⟩ none

/-- A value is handed on next. -/
def deliver (st : State) (v : Value) (k : ValueCont) : Progress := .next ⟨.deliver v k, st⟩ none

/-- The end of a statement is handed on next. -/
def complete (st : State) (c : Completion) (k : StmtCont) : Progress :=
  .next ⟨.complete c k, st⟩ none

/-- The end of a statement is handed on next, after an event. -/
def completeWith (st : State) (event : Event) (k : StmtCont) : Progress :=
  .next ⟨.complete .normal k, st⟩ (some event)

/-- A value, if there is one, is handed on next. -/
def deliverOr (st : State) (r : Except Abort Value) (k : ValueCont) : Progress :=
  match r with
  | .ok v => deliver st v k
  | .error a => abort st a

/-- What an operation makes, if it makes a value, is handed on next. -/
def deliverMade (st : State) (r : Except Abort Value) (k : ValueCont) : Progress :=
  deliverOr st.operate (r.map (·.made st.operations)) k

/-- The value of a property, if there is one, is handed on next. -/
def deliverProperty (st : State) (r : Except Abort Store.Property) (k : ValueCont) : Progress :=
  match r with
  | .ok p =>
    let (v, st) := st.realize p
    deliver st v k
  | .error a => abort st a

end Progress

namespace State

open Progress

/-! ## Calls -/

/-- The body of a function is executed next, unless too many calls are nested. -/
def enter (st : State) (setup : Setup) (fn : Function) (arguments : List Value)
    (result : CallResult) (k : ValueCont) : Progress :=
  if setup.callLimit ≤ st.depth then abort st .stackOverflow
  else
    let caller := st.environment
    Progress.complete (st.enterFunction fn arguments) .normal
      (.seq fn.decl.body (.activation caller result k))

/-- A function is called. -/
def callFunction (st : State) (setup : Setup) (fn : Function) (arguments : List Value)
    (paren : Token) (k : ValueCont) : Progress :=
  if arguments.length = fn.decl.arity then
    st.enter setup fn arguments (if fn.isInitializer then .receiver fn.closure else .returned) k
  else abort st (.atToken paren (.wrongArity fn.decl.arity arguments.length))

/-- A new instance of a class is made, and its initializer, if the class has one, is executed
next. -/
def construct (st : State) (setup : Setup) (c : ClassId) (init : Option Function)
    (arguments : List Value) (k : ValueCont) : Progress :=
  let (i, st) := st.addInstance c
  match init with
  | none => Progress.deliver st (.instance i) k
  | some fn =>
    let (fn, st) := st.copyFor fn (.instance i)
    st.enter setup fn arguments (.constructed i) k

/-- A class is called: the arguments are those of its initializer, if it has one. -/
def callClass (st : State) (setup : Setup) (c : ClassId) (init : Option Function)
    (arguments : List Value) (paren : Token) (k : ValueCont) : Progress :=
  let arity := (init.map (·.decl.arity)).getD 0
  if arguments.length = arity then st.construct setup c init arguments k
  else abort st (.atToken paren (.wrongArity arity arguments.length))

/-- A native function is called. -/
def callNative (st : State) (setup : Setup) (n : Native) (arguments : List Value)
    (paren : Token) (k : ValueCont) : Progress :=
  if arguments.length = n.arity then
    match n with
    | .clock =>
      let (v, st) := st.readClock setup
      Progress.deliver st v k
  else abort st (.atToken paren (.wrongArity n.arity arguments.length))

/-- A value is called. -/
def call (st : State) (setup : Setup) (callee : Value) (arguments : List Value) (paren : Token)
    (k : ValueCont) : Progress :=
  match callee with
  | .function f =>
    match st.store.function f with
    | .ok fn => st.callFunction setup fn arguments paren k
    | .error a => abort st a
  | .class c =>
    match st.initializer c with
    | .ok init => st.callClass setup c init arguments paren k
    | .error a => abort st a
  | .native n => st.callNative setup n arguments paren k
  | _ => abort st (.atToken paren .notCallable)

/-- The next argument of a call is evaluated, or the call is made. -/
def argumentsFrom (st : State) (setup : Setup) (paren : Token) (callee : Value)
    (done : List Value) (rest : List ExprCode) (k : ValueCont) : Progress :=
  match rest with
  | [] => st.call setup callee done paren k
  | e :: rest => Progress.evaluate st e (.argument paren callee done rest k)

/-! ## Expressions -/

/-- The step of an expression. -/
def evaluate (st : State) (setup : Setup) (k : ValueCont) : ExprCode → Progress
  | .literal value => Progress.deliver st value.value k
  | .variable name => deliverOr st (st.readVariable setup name) k
  | .assign name value => Progress.evaluate st value (.assign name k)
  | .binary left op token right => Progress.evaluate st left (.binaryRight op token right k)
  | .logical left op _ right => Progress.evaluate st left (.logicalRight op right k)
  | .unary op token operand => Progress.evaluate st operand (.unary op token k)
  | .ternary _ condition whenTrue whenFalse =>
    Progress.evaluate st condition (.choose whenTrue whenFalse k)
  | .group inner => Progress.evaluate st inner k
  | .call callee paren arguments => Progress.evaluate st callee (.callee paren arguments k)
  | .field object name => Progress.evaluate st object (.field name k)
  | .setField object name value => Progress.evaluate st object (.fieldTarget name value k)
  | .this keyword => deliverOr st (st.readVariable setup keyword) k
  | .super keyword method => deliverProperty st (st.readSuper setup keyword method) k

/-- Whether the left operand of a logical operator is the value of the whole. -/
def shortCircuits (op : LogicalOp) (left : Value) : Bool :=
  match op with
  | .or => left.truthy
  | .and => !left.truthy

/-! ## Statements -/

/-- A class is declared next, with its superclass known. -/
def finishClass (st : State) (name : Token) (superclass : Option ClassId)
    (statics methods : List (FunDecl Occurrence)) (k : StmtCont) : Progress :=
  let (entry, st) := st.declareClass name.lexeme superclass statics methods
  completeWith st (.logged entry) k

/-- The step of a statement. -/
def execute (st : State) (k : StmtCont) : Code → Progress
  | .expression value => Progress.evaluate st value (.expression k)
  | .print value => Progress.evaluate st value (.print k)
  | .var name none =>
    Progress.complete ((st.beginVar name.lexeme).define name.lexeme .nil) .normal k
  | .var name (some value) => Progress.evaluate (st.beginVar name.lexeme) value (.var name k)
  | .block body =>
    let outer := st.environment
    Progress.complete st.enterBlock .normal (.seq body (.leave outer k))
  | .ifThen condition thenBranch => Progress.evaluate st condition (.ifThen thenBranch k)
  | .ifElse condition thenBranch elseBranch =>
    Progress.evaluate st condition (.ifElse thenBranch elseBranch k)
  | .while condition body => Progress.evaluate st condition (.while condition body k)
  | .function decl => Progress.complete (st.declareFunction decl) .normal k
  | .return _ none => Progress.complete st (.returned .nil) k
  | .return _ (some value) => Progress.evaluate st value (.return k)
  | .class name none statics methods => st.finishClass name none statics methods k
  | .class name (some superclass) statics methods =>
    Progress.evaluate st (.variable superclass)
      (.inherit superclass.token name statics methods k)

/-! ## Continuations -/

/-- The step of a value that is handed on. -/
def deliver (st : State) (setup : Setup) (v : Value) : ValueCont → Progress
  | .answer => .halt (.value v) st
  | .assign name k =>
    match st.variableOwner setup name with
    | .ok e => Progress.deliver (st.defineIn e name.token.lexeme v) v k
    | .error a => abort st a
  | .binaryRight op token right k => Progress.evaluate st right (.binaryDone op token v k)
  | .binaryDone op token left k => deliverMade st (op.apply token left v) k
  | .logicalRight op right k =>
    if shortCircuits op v then Progress.deliver st v k else Progress.evaluate st right k
  | .unary op token k => deliverMade st (op.apply token v) k
  | .choose whenTrue whenFalse k =>
    Progress.evaluate st (if v.truthy then whenTrue else whenFalse) k
  | .callee paren arguments k => st.argumentsFrom setup paren v [] arguments k
  | .argument paren callee done rest k =>
    st.argumentsFrom setup paren callee (done ++ [v]) rest k
  | .field name k => deliverProperty st (st.store.property v name) k
  | .fieldTarget name value k =>
    -- the object is checked before the value is evaluated
    match Store.requireInstance v name with
    | .ok i => Progress.evaluate st value (.fieldValue i name k)
    | .error a => abort st a
  | .fieldValue target name k => Progress.deliver (st.setField target name.lexeme v) v k
  | .expression k =>
    if setup.interactive then completeWith st (.echoed (st.store.text v)) k
    else Progress.complete st .normal k
  | .print k => completeWith st (.printed (st.store.text v)) k
  | .var name k => Progress.complete (st.define name.lexeme v) .normal k
  | .ifThen thenBranch k =>
    if v.truthy then Progress.execute st thenBranch k else Progress.complete st .normal k
  | .ifElse thenBranch elseBranch k =>
    Progress.execute st (if v.truthy then thenBranch else elseBranch) k
  | .while condition body k =>
    if v.truthy then Progress.execute st body (.loop condition body k)
    else Progress.complete st .normal k
  | .return k => Progress.complete st (.returned v) k
  | .inherit superclass name statics methods k =>
    match v with
    | .class c => st.finishClass name (some c) statics methods k
    | _ => abort st (.atToken superclass .superclassNotClass)

/-- The step of the end of a statement that is handed on. -/
def complete (st : State) (c : Completion) : StmtCont → Progress
  | .program [] => .halt .finished st
  | .program (s :: rest) => Progress.execute st s (.program rest)
  | .seq rest k =>
    match c, rest with
    | .normal, s :: rest => Progress.execute st s (.seq rest k)
    | _, _ => Progress.complete st c k
  | .leave outer k => Progress.complete (st.leaveFor outer) c k
  | .loop condition body k =>
    match c with
    | .normal => Progress.evaluate st condition (.while condition body k)
    -- neither the condition nor what the body has left is reached any more
    | .returned _ => Progress.complete st c k
  | .activation caller result k =>
    deliverOr (st.leaveFunction caller) (st.callValue result c) k

end State

/-- A step of the machine. -/
def Config.step (setup : Setup) (c : Config) : Progress :=
  match c with
  | ⟨.evaluate e k, st⟩ => st.evaluate setup k e
  | ⟨.execute s k, st⟩ => st.execute k s
  | ⟨.deliver v k, st⟩ => st.deliver setup v k
  | ⟨.complete c k, st⟩ => st.complete c k

end Lox
