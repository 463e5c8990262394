import Lox.Session

/-!
# The objects of a session

Between two texts the objects of a session can be used directly: a function is declared in any
environment, a value is called, an instance is made. What such a use does is what the same
construct does in a program.

## Main definitions

* `Session.declare?`: a function from its text
* `Session.call`: calling a value
* `Session.construct`: an instance whose initializer is not asked for its number of parameters
* `Session.after`: the session after a run
-/

namespace Lox.Session

/-- The state in which a run starts. -/
def start (s : Session) : State :=
  { store := s.store, readings := s.readings, operations := s.operations }

/-- The session after a run. -/
def after (s : Session) (r : Run) : Session :=
  { s with store := r.state.store, readings := r.state.readings, operations := r.state.operations }

/-- The function that a text declares, in an environment; the text is resolved on its own. -/
def declare? (s : Session) (source : String) (closure : EnvId) (isInitializer : Bool) :
    Option (FunId × Session) :=
  let r := Resolved.ofProgram s.locals.next (parse source).statements
  match r.body with
  | .function decl :: _ =>
    let (f, store) := s.store.addFunction { decl, closure, isInitializer }
    some (f, { s with store, locals := s.locals.record r })
  | _ => none

/-- A value is called. -/
def call (o : Options) (s : Session) (callee : Value) (arguments : List Value) (paren : Token) :
    Run :=
  (s.start.call (setup o s.locals) callee arguments paren .answer).run (setup o s.locals) o.budget

/-- An instance is made, and its initializer, if it has one, takes as many of the arguments as
it has parameters. -/
def construct (o : Options) (s : Session) (c : ClassId) (arguments : List Value) : Run :=
  match s.start.initializer c with
  | .ok init =>
    (s.start.construct (setup o s.locals) c init arguments .answer).run (setup o s.locals) o.budget
  | .error a => ⟨some (.aborted a), s.start, []⟩

end Lox.Session
