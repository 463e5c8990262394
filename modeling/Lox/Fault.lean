import Lox.Text.Quoted

/-!
# Internal faults

What can go wrong only where a program is run that was not accepted, or where the parts of the
library are used by hand: a look-up that misses, a distance that leaves the chain of
environments, an operator or a node that no part knows.

## Main definitions

* `Pass`: the passes over syntax trees
* `Fault`, with `Fault.message`
-/

namespace Lox

/-- The passes over syntax trees. -/
inductive Pass where
  | printer | resolver | interpreter
  deriving DecidableEq, Repr

namespace Pass

/-- The name of a pass. -/
def name : Pass → String
  | printer => "printer"
  | resolver => "resolver"
  | interpreter => "interpreter"

end Pass

/-- What no accepted program runs into. -/
inductive Fault where
  /-- The environment at a distance does not hold a name. -/
  | missingName (name : String)
  /-- A distance leads beyond the outermost environment. -/
  | distanceTooFar
  /-- What `super` is bound to is no class. -/
  | superIsNoClass
  /-- A use of `super` has no recorded distance. -/
  | superUnresolved
  /-- A token is no unary operator. -/
  | notUnary (lexeme : String)
  /-- A token is no binary operator. -/
  | notBinary (lexeme : String)
  /-- A pass does not know a node. -/
  | unknownNode (pass : Pass) (label : String)
  /-- An identity that stands for no object. -/
  | dangling
  deriving DecidableEq, Repr

namespace Fault

/-- The message of a fault. -/
def message : Fault → String
  | missingName name => Text.quoted name
  | distanceTooFar => "resolved distance exceeds scope chain"
  | superIsNoClass => "super bound to a non-class"
  | superUnresolved => "super reference was not resolved"
  | notUnary lexeme => "unsupported unary operator " ++ Text.quoted lexeme
  | notBinary lexeme => "unsupported binary operator " ++ Text.quoted lexeme
  | unknownNode pass label => pass.name ++ " reached unknown node " ++ Text.quoted label
  | dangling => "identity without an object"

end Fault

end Lox
