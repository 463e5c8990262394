import Lox.Machine.Config

/-!
# What steps do to the state

The parts of a step that read or change the state: variables through their recorded distances,
properties, scopes, calls and declarations. A reference without a distance is looked up among
the globals. Reading may fail and changes nothing; a change never fails.

## Main definitions

* `Setup`: what stays the same during a run
* `State.readVariable`, `State.variableOwner`, `State.readSuper`: what references stand for
* `State.enterBlock`, `State.leaveFor`, `State.enterFunction`, `State.leaveFunction`: the
  changes of the current environment
* `State.beginVar`, `State.declareFunction`, `State.declareClass`: declarations
-/

namespace Lox

/-- What stays the same during a run. -/
structure Setup where
  /-- Whether the values of expression statements are echoed. -/
  interactive : Bool := false
  /-- How many calls may be nested. -/
  callLimit : Nat := 1000
  /-- What the clock shows when it is read for the `n`-th time, counted from zero. -/
  clock : Nat → Float
  /-- The distances of references. -/
  locals : Locals

namespace State

/-! ## Reading -/

/-- The value of a reference. -/
def readVariable (st : State) (setup : Setup) (ref : Ref Occurrence) : Except Abort Value :=
  match setup.locals.distance? ref.mark with
  | some d => st.store.getAt st.environment d ref.token.lexeme
  | none => st.store.get Store.globals ref.token

/-- The environment whose variable an assignment to a reference sets. -/
def variableOwner (st : State) (setup : Setup) (ref : Ref Occurrence) : Except Abort EnvId :=
  match setup.locals.distance? ref.mark with
  | some d => st.store.ancestor st.environment d
  | none => st.store.owner Store.globals ref.token

/-- The method that a use of `super` finds. -/
def readSuper (st : State) (setup : Setup) (ref : Ref Occurrence) (method : Token) :
    Except Abort Store.Property :=
  match setup.locals.distance? ref.mark with
  | some d => st.store.superMethod st.environment d method
  | none => .error (.fault .superUnresolved)

/-- What a call yields when the body has ended. -/
def callValue (st : State) : CallResult → Completion → Except Abort Value
  | .returned, .returned v => .ok v
  | .returned, .normal => .ok .nil
  | .receiver closure, _ => st.store.getAt closure 0 "this"
  | .constructed i, _ => .ok (.instance i)

/-- The initializer of a class, if it has one. -/
def initializer (st : State) (c : ClassId) : Except Abort (Option Function) :=
  match st.store.findMethod? c "init" with
  | some f => (st.store.function f).map some
  | none => .ok none

/-! ## Changing -/

/-- The state with a variable of an environment set. -/
def defineIn (st : State) (e : EnvId) (name : String) (v : Value) : State :=
  { st with store := st.store.define e name v }

/-- The state with a variable of the current environment set. -/
def define (st : State) (name : String) (v : Value) : State := st.defineIn st.environment name v

/-- The value of a property. -/
def realize (st : State) (p : Store.Property) : Value × State :=
  match st with
  | { environment, store, depth, readings, operations } =>
    let (v, store) := store.realize p
    (v, { environment, store, depth, readings, operations })

/-- The state with a field of an instance set. -/
def setField (st : State) (i : InstanceId) (name : String) (v : Value) : State :=
  { st with store := st.store.setField i name v }

/-- The state after one more operation. -/
def operate (st : State) : State := { st with operations := st.operations + 1 }

/-- The next reading of the clock. -/
def readClock (st : State) (setup : Setup) : Value × State :=
  (.made st.operations (.number (setup.clock st.readings)),
    { st.operate with readings := st.readings + 1 })

/-- The state in a new environment inside the current one. -/
def enterBlock (st : State) : State :=
  match st with
  | { environment, store, depth, readings, operations } =>
    let (inner, store) := store.addEnvironment (some environment)
    { environment := inner, store, depth, readings, operations }

/-- The state in the environment around a block. -/
def leaveFor (st : State) (outer : EnvId) : State := { st with environment := outer }

/-- The state in the body of a function: the parameters are in a new environment inside the
closure. -/
def enterFunction (st : State) (fn : Function) (arguments : List Value) : State :=
  match st with
  | { environment := _, store, depth, readings, operations } =>
    let (inner, store) := store.addEnvironment (some fn.closure)
    { environment := inner
      store := store.defineAll inner ((fn.decl.params.map (·.lexeme)).zip arguments)
      depth := depth + 1
      readings
      operations }

/-- The state of the caller when a call is over. -/
def leaveFunction (st : State) (caller : EnvId) : State :=
  { st with environment := caller, depth := st.depth - 1 }

/-- A new instance of a class. -/
def addInstance (st : State) (c : ClassId) : InstanceId × State :=
  match st with
  | { environment, store, depth, readings, operations } =>
    let (i, store) := store.addInstance c
    (i, { environment, store, depth, readings, operations })

/-- The copy of a function that sees a receiver as `this`. -/
def copyFor (st : State) (fn : Function) (receiver : Value) : Function × State :=
  match st with
  | { environment, store, depth, readings, operations } =>
    let (copy, store) := store.copyFor fn receiver
    (copy, { environment, store, depth, readings, operations })

/-! ## Declarations -/

/-- The state in which the initializer of a variable is evaluated: a new global variable is
nil. -/
def beginVar (st : State) (name : String) : State :=
  if st.environment = Store.globals && !st.store.holds Store.globals name then
    st.define name .nil
  else st

/-- The state after the declaration of a function. -/
def declareFunction (st : State) (decl : FunDecl Occurrence) : State :=
  match st with
  | { environment, store, depth, readings, operations } =>
    let (f, store) := store.addFunction { decl, closure := environment, isInitializer := false }
    { environment, store := store.define environment decl.name.lexeme (.function f), depth,
      readings, operations }

/-- The entry of the log for a class. -/
def classEntry (store : Store) (c : ClassId) : LogEntry :=
  match store.class? c with
  | some cls => .classMade cls.name cls.methods.size cls.statics.size
      (cls.superclass.map store.className)
  | none => .classMade "" 0 0 none

/-- The state after the declaration of a class, and the entry of the log. The name is nil while
the methods are declared. -/
def declareClass (st : State) (name : String) (superclass : Option ClassId)
    (statics methods : List (FunDecl Occurrence)) : LogEntry × State :=
  match st with
  | { environment, store, depth, readings, operations } =>
    let (c, store) :=
      (store.define environment name .nil).makeClass environment name superclass statics methods
    (classEntry store c,
      { environment, store := store.define environment name (.class c), depth, readings,
        operations })

end State

end Lox
