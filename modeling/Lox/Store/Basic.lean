import Lox.Syntax.Occurrence
import Lox.Table
import Lox.Value

/-!
# The store

A store holds the objects of a session: environments, functions, classes and instances, each
under its identity. Objects are only ever added, and an identity is the number of objects of
its kind that came before.

## Main definitions

* `Environment`, `Function`, `Class`, `Instance`: the objects
* `Store`, with the look-up and the addition of each kind of object
* `Store.text`: the text of a value

## Main results

* `environment?_addEnvironment` and its like: an added object is found under the identity it
  got, and no other object changes
-/

namespace Lox

/-- Variables with their values, inside another environment or outermost. -/
structure Environment where
  /-- The enclosing environment. -/
  parent : Option EnvId
  /-- The variables. -/
  values : Table Value := .empty
  deriving Repr

/-- A function with the environment in which it was declared. -/
structure Function where
  /-- The declaration. -/
  decl : FunDecl Occurrence
  /-- The environment. -/
  closure : EnvId
  /-- Whether calls yield the receiver, whatever the body returns. -/
  isInitializer : Bool

/-- A class with its methods. -/
structure Class where
  /-- The name. -/
  name : String
  /-- The superclass. -/
  superclass : Option ClassId
  /-- The instance methods. -/
  methods : Table FunId
  /-- The static methods. -/
  statics : Table FunId
  deriving Repr

/-- An instance of a class with its fields. -/
structure Instance where
  /-- The class. -/
  classId : ClassId
  /-- The fields. -/
  fields : Table Value := .empty
  deriving Repr

/-- All objects by their identities. -/
structure Store where
  /-- The environments. -/
  environments : Array Environment := #[]
  /-- The functions. -/
  functions : Array Function := #[]
  /-- The classes. -/
  classes : Array Class := #[]
  /-- The instances. -/
  instances : Array Instance := #[]

namespace Store

/-- The environment of an identity. -/
def environment? (σ : Store) (e : EnvId) : Option Environment := σ.environments[e.index]?

/-- The function of an identity. -/
def function? (σ : Store) (f : FunId) : Option Function := σ.functions[f.index]?

/-- The class of an identity. -/
def class? (σ : Store) (c : ClassId) : Option Class := σ.classes[c.index]?

/-- The instance of an identity. -/
def instance? (σ : Store) (i : InstanceId) : Option Instance := σ.instances[i.index]?

/-- A new environment without variables. -/
def addEnvironment (σ : Store) (parent : Option EnvId) : EnvId × Store :=
  (⟨σ.environments.size⟩, { σ with environments := σ.environments.push { parent } })

/-- A new function. -/
def addFunction (σ : Store) (f : Function) : FunId × Store :=
  (⟨σ.functions.size⟩, { σ with functions := σ.functions.push f })

/-- A new class. -/
def addClass (σ : Store) (c : Class) : ClassId × Store :=
  (⟨σ.classes.size⟩, { σ with classes := σ.classes.push c })

/-- A new instance without fields. -/
def addInstance (σ : Store) (c : ClassId) : InstanceId × Store :=
  (⟨σ.instances.size⟩, { σ with instances := σ.instances.push { classId := c } })

/-- The name of a function. -/
def functionName (σ : Store) (f : FunId) : String :=
  ((σ.function? f).map (·.decl.name.lexeme)).getD ""

/-- The name of a class. -/
def className (σ : Store) (c : ClassId) : String := ((σ.class? c).map (·.name)).getD ""

/-- The name of the class of an instance. -/
def instanceClassName (σ : Store) (i : InstanceId) : String :=
  ((σ.instance? i).map (σ.className ·.classId)).getD ""

/-- The text of a value as programs print it. -/
def text (σ : Store) : Value → String
  | .nil => "nil"
  | .bool true => "true"
  | .bool false => "false"
  | .number v => Decimal.Layout.shown.write v.value
  | .string s => s
  | .function f => "<fn " ++ σ.functionName f ++ ">"
  | .class c => σ.className c
  | .instance i => σ.instanceClassName i ++ " instance"
  | .native _ => "<native fn>"

@[simp] theorem environment?_addEnvironment_self (σ : Store) (parent : Option EnvId) :
    (σ.addEnvironment parent).2.environment? (σ.addEnvironment parent).1 = some { parent } := by
  simp [addEnvironment, environment?]

theorem environment?_addEnvironment_of_ne (σ : Store) (parent : Option EnvId) {e : EnvId}
    (h : e ≠ (σ.addEnvironment parent).1) :
    (σ.addEnvironment parent).2.environment? e = σ.environment? e := by
  have : e.index ≠ σ.environments.size := fun he => h (by cases e; simp_all [addEnvironment])
  simp [addEnvironment, environment?, Array.getElem?_push, this]

@[simp] theorem function?_addFunction_self (σ : Store) (f : Function) :
    (σ.addFunction f).2.function? (σ.addFunction f).1 = some f := by
  simp [addFunction, function?]

theorem function?_addFunction_of_ne (σ : Store) (f : Function) {g : FunId}
    (h : g ≠ (σ.addFunction f).1) : (σ.addFunction f).2.function? g = σ.function? g := by
  have : g.index ≠ σ.functions.size := fun hg => h (by cases g; simp_all [addFunction])
  simp [addFunction, function?, Array.getElem?_push, this]

@[simp] theorem class?_addClass_self (σ : Store) (c : Class) :
    (σ.addClass c).2.class? (σ.addClass c).1 = some c := by
  simp [addClass, class?]

theorem class?_addClass_of_ne (σ : Store) (c : Class) {d : ClassId}
    (h : d ≠ (σ.addClass c).1) : (σ.addClass c).2.class? d = σ.class? d := by
  have : d.index ≠ σ.classes.size := fun hd => h (by cases d; simp_all [addClass])
  simp [addClass, class?, Array.getElem?_push, this]

@[simp] theorem instance?_addInstance_self (σ : Store) (c : ClassId) :
    (σ.addInstance c).2.instance? (σ.addInstance c).1 = some { classId := c } := by
  simp [addInstance, instance?]

theorem instance?_addInstance_of_ne (σ : Store) (c : ClassId) {i : InstanceId}
    (h : i ≠ (σ.addInstance c).1) : (σ.addInstance c).2.instance? i = σ.instance? i := by
  have : i.index ≠ σ.instances.size := fun hi => h (by cases i; simp_all [addInstance])
  simp [addInstance, instance?, Array.getElem?_push, this]

end Store

end Lox
