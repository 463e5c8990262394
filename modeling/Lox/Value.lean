import Lox.RuntimeError
import Lox.Syntax.Tree

/-!
# Values

Values are nil, truth values, numbers, strings, and objects with an identity: functions,
classes, instances and native functions. Objects live in a store; a value holds their identity
alone, so two values are equal as objects when their identities are. A number is told apart from
others by the operation that made it, which shows in one case only: what is not a number equals
no other number, but it equals itself.

## Main definitions

* `EnvId`, `FunId`, `ClassId`, `InstanceId`: identities
* `Number`, with `Number.equals`
* `Value`, with `Value.truthy`, `Value.equals`, `Value.made`
* `UnaryOp.apply`, `BinaryOp.apply`: the operators on values
-/

namespace Lox

/-- The identity of an environment. -/
structure EnvId where
  /-- Its number. -/
  index : Nat
  deriving DecidableEq, Repr

/-- The identity of a function. -/
structure FunId where
  /-- Its number. -/
  index : Nat
  deriving DecidableEq, Repr

/-- The identity of a class. -/
structure ClassId where
  /-- Its number. -/
  index : Nat
  deriving DecidableEq, Repr

/-- The identity of an instance. -/
structure InstanceId where
  /-- Its number. -/
  index : Nat
  deriving DecidableEq, Repr

/-- A number. Every operation makes a new one, which stays the same wherever it is kept. -/
structure Number where
  /-- The floating-point number. -/
  value : Float
  /-- The operation that made it, counted in the session; a constant, which is read off digits and
  always equals itself, has none. -/
  madeBy : Option Nat := none
  deriving DecidableEq, Repr

namespace Number

instance : Coe Float Number := ⟨fun value => { value }⟩

/-- Whether two numbers are one and the same. -/
def same (a b : Number) : Bool := a.madeBy.isSome && a.madeBy = b.madeBy

/-- Whether two numbers are equal: by their floating-point values, or as one and the same. -/
def equals (a b : Number) : Bool := a.value == b.value || a.same b

end Number

/-- The functions that are not written in the language. -/
inductive Native where
  /-- The time in seconds. -/
  | clock
  deriving DecidableEq, Repr

namespace Native

/-- Every native function. -/
def all : List Native := [clock]

/-- The global name of a native function. -/
def name : Native → String
  | clock => "clock"

/-- The number of parameters of a native function. -/
def arity : Native → Nat
  | clock => 0

end Native

/-- Values. -/
inductive Value where
  | nil
  | bool (value : Bool)
  | number (value : Number)
  | string (value : String)
  | function (id : FunId)
  | class (id : ClassId)
  | instance (id : InstanceId)
  | native (fn : Native)
  deriving DecidableEq, Repr

/-- The value of a constant. -/
def Literal.value : Literal → Value
  | .nil => .nil
  | .bool b => .bool b
  | .number v => .number v
  | .string s => .string s

namespace Value

/-- Whether a value counts as true: all do but nil and false. -/
def truthy : Value → Bool
  | .nil => false
  | .bool b => b
  | _ => true

/-- Whether two values are equal: numbers as numbers, objects by identity, and values of
different types never. -/
def equals : Value → Value → Bool
  | .number a, .number b => a.equals b
  | .nil, .nil => true
  | .bool a, .bool b => a == b
  | .string a, .string b => a == b
  | .function a, .function b => a = b
  | .class a, .class b => a = b
  | .instance a, .instance b => a = b
  | .native a, .native b => a = b
  | _, _ => false

/-- A value as the operation of a number makes it: a number is a new one. -/
def made (n : Nat) : Value → Value
  | .number x => .number { x with madeBy := some n }
  | v => v

/-- An operation makes no function that was not there. -/
@[simp] theorem made_eq_function {n : Nat} {v : Value} {f : FunId} :
    v.made n = .function f ↔ v = .function f := by
  cases v <;> simp [made]

/-- Whether a value can be called. -/
def callable : Value → Bool
  | .function _ | .class _ | .native _ => true
  | _ => false

end Value

/-- A unary operator on a value. A number that it makes is not told apart yet. -/
def UnaryOp.apply (op : UnaryOp) (token : Token) (v : Value) : Except Abort Value :=
  match op, v with
  | .not, v => .ok (.bool (!v.truthy))
  | .negate, .number a => .ok (.number ↑(-a.value))
  | .negate, _ => .error (.atToken token .operandNotNumber)

/-- An operator on two numbers. -/
def BinaryOp.applyNumbers (op : BinaryOp) (token : Token) (a b : Number) : Except Abort Value :=
  match op with
  | .subtract => .ok (.number (a.value - b.value))
  | .add => .ok (.number (a.value + b.value))
  | .multiply => .ok (.number (a.value * b.value))
  | .divide =>
    if b.value == 0 then .error (.atToken token .divisionByZero)
    else .ok (.number (a.value / b.value))
  | .greater => .ok (.bool (a.value > b.value))
  | .greaterEqual => .ok (.bool (a.value ≥ b.value))
  | .less => .ok (.bool (a.value < b.value))
  | .lessEqual => .ok (.bool (a.value ≤ b.value))
  | .equal => .ok (.bool (a.equals b))
  | .notEqual => .ok (.bool (!a.equals b))

/-- A binary operator on two values. A number that it makes is not told apart yet. -/
def BinaryOp.apply (op : BinaryOp) (token : Token) (left right : Value) : Except Abort Value :=
  match op, left, right with
  | .equal, l, r => .ok (.bool (l.equals r))
  | .notEqual, l, r => .ok (.bool (!l.equals r))
  | op, .number a, .number b => op.applyNumbers token a b
  | .add, .string a, .string b => .ok (.string (a ++ b))
  | .add, _, _ => .error (.atToken token .operandsNotAddable)
  | _, _, _ => .error (.atToken token .operandsNotNumbers)

/-- The unary operator that a token writes, on a value. -/
def Token.applyUnary (token : Token) (v : Value) : Except Abort Value :=
  match token.kind.unaryOp? with
  | some op => op.apply token v
  | none => .error (.fault (.notUnary token.lexeme))

/-- The binary operator that a token writes, on two values. -/
def Token.applyBinary (token : Token) (left right : Value) : Except Abort Value :=
  match token.kind.binaryOp? with
  | some op => op.apply token left right
  | none => .error (.fault (.notBinary token.lexeme))

end Lox
