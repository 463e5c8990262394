import Lox.Store.Environment

/-!
# Classes, instances and their properties

A method is looked up in a class and then in its superclasses, nearest first. The properties of
an instance are its fields, then the instance methods of its class; those of a class are its
static methods. A method that is read from an object is bound to it: a copy whose environment
holds the object as `this`. Looking a property up may fail and changes nothing; binding changes
the store and cannot fail.

## Main definitions

* `Store.lineage`: a class and its superclasses
* `Store.findMethod?`, `Store.findStatic?`: methods through the lineage
* `Store.bind`: a function bound to a receiver
* `Property`, `Store.property`, `Store.superMethod`: what a property or a use of `super` finds
* `Store.getProperty`, `Store.setProperty`, `Store.lookUpSuper`: the whole accesses
* `Store.makeClass`: a class from its declaration
* `Store.fresh`: the store of a new session, with its global environment
-/

namespace Lox

namespace Store

/-! ## Methods -/

/-- The class that a class inherits from. -/
def superclass? (σ : Store) (c : ClassId) : Option ClassId := (σ.class? c).bind (·.superclass)

/-- At most `n` classes from one upwards. -/
def lineageWithin (σ : Store) : Nat → ClassId → List ClassId
  | 0, _ => []
  | n + 1, c =>
    c :: match σ.superclass? c with
      | some s => σ.lineageWithin n s
      | none => []

/-- A class and its superclasses, nearest first: at most all there are. -/
def lineage (σ : Store) (c : ClassId) : List ClassId := σ.lineageWithin σ.classes.size c

/-- The instance method that a class itself declares. -/
def ownMethod? (σ : Store) (c : ClassId) (name : String) : Option FunId :=
  (σ.class? c).bind (·.methods.find? name)

/-- The static method that a class itself declares. -/
def ownStatic? (σ : Store) (c : ClassId) (name : String) : Option FunId :=
  (σ.class? c).bind (·.statics.find? name)

/-- The instance method of the nearest class that declares one. -/
def findMethod? (σ : Store) (c : ClassId) (name : String) : Option FunId :=
  (σ.lineage c).findSome? (σ.ownMethod? · name)

/-- The static method of the nearest class that declares one. -/
def findStatic? (σ : Store) (c : ClassId) (name : String) : Option FunId :=
  (σ.lineage c).findSome? (σ.ownStatic? · name)

/-- The function of an identity, which has to stand for one. -/
def function (σ : Store) (f : FunId) : Except Abort Function :=
  match σ.function? f with
  | some fn => .ok fn
  | none => .error (.fault .dangling)

/-- The number of parameters of a function. -/
def functionArity (σ : Store) (f : FunId) : Nat := ((σ.function? f).map (·.decl.arity)).getD 0

/-- The number of arguments that make an instance: the parameters of the initializer. -/
def classArity (σ : Store) (c : ClassId) : Nat :=
  ((σ.findMethod? c "init").map σ.functionArity).getD 0

/-- The number of arguments that a value takes, if it can be called. -/
def arity? (σ : Store) : Value → Option Nat
  | .function f => some (σ.functionArity f)
  | .class c => some (σ.classArity c)
  | .native n => some n.arity
  | _ => none

/-- The copy of a function that sees a receiver as `this`. -/
def copyFor (σ : Store) (fn : Function) (receiver : Value) : Function × Store :=
  let (e, σ) := σ.addEnvironment (some fn.closure)
  ({ fn with closure := e }, σ.define e "this" receiver)

/-- A function bound to a receiver: a new function that sees the receiver as `this`. -/
def bind (σ : Store) (fn : Function) (receiver : Value) : FunId × Store :=
  let (copy, σ) := σ.copyFor fn receiver
  σ.addFunction copy

/-! ## Properties -/

/-- What a look-up of a property finds. -/
inductive Property where
  /-- A field with its value. -/
  | field (v : Value)
  /-- A method, not yet bound to its receiver. -/
  | method (fn : Function) (receiver : Value)

/-- The field of an instance. -/
def field? (σ : Store) (i : InstanceId) (name : String) : Option Value :=
  (σ.instance? i).bind (·.fields.find? name)

/-- The method that an instance has from its class. -/
def instanceMethod? (σ : Store) (i : InstanceId) (name : String) : Option FunId :=
  (σ.instance? i).bind fun inst => σ.findMethod? inst.classId name

/-- A method that was looked up under a name, for a receiver. -/
def methodFor (σ : Store) (found : Option FunId) (receiver : Value) (name : Token) :
    Except Abort Property :=
  match found with
  | some f => (σ.function f).map (.method · receiver)
  | none => .error (.atToken name (.undefinedProperty name.lexeme))

/-- The property of a value: of an instance its field, else its method; of a class its static
method. -/
def property (σ : Store) (v : Value) (name : Token) : Except Abort Property :=
  match v with
  | .instance i =>
    match σ.field? i name.lexeme with
    | some w => .ok (.field w)
    | none => σ.methodFor (σ.instanceMethod? i name.lexeme) v name
  | .class c => σ.methodFor (σ.findStatic? c name.lexeme) v name
  | _ => .error (.atToken name .noProperties)

/-- The method of the class `superclass` that a use of `super` finds for a receiver: where the
receiver is a class, a static one. -/
def methodAbove (σ : Store) (superclass receiver : Value) (name : Token) :
    Except Abort Property :=
  match superclass, receiver with
  | .class c, .class _ => σ.methodFor (σ.findStatic? c name.lexeme) receiver name
  | .class c, _ => σ.methodFor (σ.findMethod? c name.lexeme) receiver name
  | _, _ => .error (.fault .superIsNoClass)

/-- The method that a use of `super` finds: `super` lies the given distance outwards and `this`
directly inside of it. -/
def superMethod (σ : Store) (e : EnvId) (d : Nat) (name : Token) : Except Abort Property :=
  match σ.getAt e d "super", σ.getAt e (d - 1) "this" with
  -- of two look-ups that fail the first one tells
  | .ok superclass, .ok receiver => σ.methodAbove superclass receiver name
  | .error a, _ => .error a
  | .ok _, .error a => .error a

/-- The value of a property: a method is bound to its receiver. -/
def realize (σ : Store) : Property → Value × Store
  | .field v => (v, σ)
  | .method fn receiver =>
    let (f, σ) := σ.bind fn receiver
    (.function f, σ)

/-- Reading a property of a value. -/
def getProperty (σ : Store) (v : Value) (name : Token) : Except Abort (Value × Store) :=
  (σ.property v name).map σ.realize

/-- Reading a method of the superclass. -/
def lookUpSuper (σ : Store) (e : EnvId) (d : Nat) (name : Token) :
    Except Abort (Value × Store) :=
  (σ.superMethod e d name).map σ.realize

/-- The instance that a value is; only instances have fields. -/
def requireInstance (v : Value) (name : Token) : Except Abort InstanceId :=
  match v with
  | .instance i => .ok i
  | _ => .error (.atToken name .noFields)

/-- The store with a field of an instance set. -/
def setField (σ : Store) (i : InstanceId) (name : String) (v : Value) : Store :=
  { σ with instances := σ.instances.modify i.index fun inst =>
      { inst with fields := inst.fields.set name v } }

/-- Writing a property of a value. -/
def setProperty (σ : Store) (v : Value) (name : Token) (w : Value) : Except Abort Store :=
  (requireInstance v name).map fun i => σ.setField i name.lexeme w

/-! ## Declarations -/

/-- New functions for the methods of a class, by name; of two with one name the later wins. -/
def addMethods (σ : Store) (e : EnvId) (initializers : Bool) (table : Table FunId) :
    List (FunDecl Occurrence) → Table FunId × Store
  | [] => (table, σ)
  | decl :: rest =>
    let (f, σ) := σ.addFunction
      { decl, closure := e, isInitializer := initializers && decl.isInitName }
    σ.addMethods e initializers (table.set decl.name.lexeme f) rest

/-- The environment in which methods are declared: a superclass is visible to them as
`super`. -/
def enterClass (σ : Store) (e : EnvId) : Option ClassId → EnvId × Store
  | none => (e, σ)
  | some c =>
    let (inner, σ) := σ.addEnvironment (some e)
    (inner, σ.define inner "super" (.class c))

/-- A new class whose methods are declared in an environment. -/
def makeClass (σ : Store) (e : EnvId) (name : String) (superclass : Option ClassId)
    (statics methods : List (FunDecl Occurrence)) : ClassId × Store :=
  let (inner, σ) := σ.enterClass e superclass
  let (methodTable, σ) := σ.addMethods inner true .empty methods
  let (staticTable, σ) := σ.addMethods inner false .empty statics
  σ.addClass { name, superclass, methods := methodTable, statics := staticTable }

/-- The global environment of a session. -/
def globals : EnvId := ⟨0⟩

/-- The store of a new session: the global environment holds the native functions. -/
def fresh : Store :=
  (({} : Store).addEnvironment none).2.defineAll globals
    (Native.all.map fun n => (n.name, .native n))

end Store

end Lox
