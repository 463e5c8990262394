import Lox.Report
import Lox.Table

/-!
# Static contexts

While the scopes of a program are worked out, a context holds the scopes open at the current
place, innermost first, and what function and class enclose it. A scope knows for each of its
names whether the name's initializer has ended. Outside every scope stand the global names,
which are not tracked.

## Main definitions

* `Scope`, `FunctionKind`, `ClassKind`, `Context`
* `Context.declare`, `Context.define`: the two moments of a declaration
* `Context.distance?`: how many scopes lie between a use and the innermost scope with its name
-/

namespace Lox

/-- The names of a scope, each with whether its initializer has ended. -/
abbrev Scope := Table Bool

/-- What function encloses a place. -/
inductive FunctionKind where
  | none | function | initializer | method
  deriving DecidableEq, Repr

/-- What class encloses a place. -/
inductive ClassKind where
  /-- No class. -/
  | none
  /-- A class without a superclass. -/
  | base
  /-- A class with a superclass. -/
  | derived
  deriving DecidableEq, Repr

/-- What encloses a place of a program. -/
structure Context where
  /-- The open scopes, innermost first. -/
  scopes : List Scope := []
  /-- The enclosing function. -/
  function : FunctionKind := .none
  /-- The enclosing class. -/
  enclosingClass : ClassKind := .none

namespace Context

/-- The context with a scope opened. -/
def enter (c : Context) (scope : Scope) : Context := { c with scopes := scope :: c.scopes }

/-- The context with a name of the innermost scope set; global names are not tracked. -/
def setName (c : Context) (name : String) (ended : Bool) : Context :=
  match c.scopes with
  | [] => c
  | scope :: outer => { c with scopes := scope.set name ended :: outer }

/-- A name is declared: its initializer has not ended. -/
def declare (c : Context) (name : Token) : Context := c.setName name.lexeme false

/-- A name is defined: its initializer has ended. -/
def define (c : Context) (name : Token) : Context := c.setName name.lexeme true

/-- Whether the innermost scope declares a name. -/
def declares (c : Context) (name : String) : Bool :=
  match c.scopes with
  | [] => false
  | scope :: _ => scope.has name

/-- Whether the innermost scope declares a name whose initializer has not ended. -/
def inInitializer (c : Context) (name : String) : Bool :=
  match c.scopes with
  | [] => false
  | scope :: _ => scope.find? name == some false

/-- The number of scopes inside the innermost scope that declares a name. -/
def distance? (c : Context) (name : String) : Option Nat := c.scopes.findIdx? (·.has name)

@[simp] theorem scopes_enter (c : Context) (scope : Scope) :
    (c.enter scope).scopes = scope :: c.scopes := rfl

/-- Setting a name opens and closes no scope. -/
@[simp] theorem length_setName (c : Context) (name : String) (ended : Bool) :
    (c.setName name ended).scopes.length = c.scopes.length := by
  unfold setName
  split <;> simp_all

end Context

end Lox
