import Lox.Store.Basic

/-!
# Variables in environments

A variable is reached in two ways: by searching outwards from an environment for the nearest
one that holds its name, or by going a known distance outwards. Both read and write the
variables of the environment they reach, and of no other.

## Main definitions

* `Store.define`: a variable of an environment
* `Store.chain`: an environment and those that enclose it, innermost first
* `Store.owner?`, `Store.owner`: the nearest environment that holds a name
* `Store.get`, `Store.assign`: by search
* `Store.ancestor`, `Store.getAt`, `Store.assignAt`: by distance

## Main results

* `environment?_define`: defining changes one environment
* `parent?_define`: defining changes no enclosing environment
-/

namespace Lox

namespace Store

/-- The variable of a name in one environment. -/
def binding? (σ : Store) (e : EnvId) (name : String) : Option Value :=
  (σ.environment? e).bind (·.values.find? name)

/-- Whether an environment itself holds a name. -/
def holds (σ : Store) (e : EnvId) (name : String) : Bool := (σ.binding? e name).isSome

/-- The store with a variable of one environment set. -/
def define (σ : Store) (e : EnvId) (name : String) (v : Value) : Store :=
  { σ with environments := σ.environments.modify e.index fun env =>
      { env with values := env.values.set name v } }

/-- The store with variables of one environment set in order. -/
def defineAll (σ : Store) (e : EnvId) : List (String × Value) → Store
  | [] => σ
  | (name, v) :: rest => (σ.define e name v).defineAll e rest

/-- The environment that encloses an environment. -/
def parent? (σ : Store) (e : EnvId) : Option EnvId := (σ.environment? e).bind (·.parent)

/-- At most `n` environments from one outwards. -/
def chainWithin (σ : Store) : Nat → EnvId → List EnvId
  | 0, _ => []
  | n + 1, e =>
    e :: match σ.parent? e with
      | some p => σ.chainWithin n p
      | none => []

/-- An environment and those that enclose it, innermost first: at most all there are. -/
def chain (σ : Store) (e : EnvId) : List EnvId := σ.chainWithin σ.environments.size e

/-- The nearest environment from `e` outwards that holds a name. -/
def owner? (σ : Store) (e : EnvId) (name : String) : Option EnvId :=
  (σ.chain e).find? (σ.holds · name)

/-- The nearest environment from `e` outwards that holds the name of a token. -/
def owner (σ : Store) (e : EnvId) (name : Token) : Except Abort EnvId :=
  match σ.owner? e name.lexeme with
  | some owner => .ok owner
  | none => .error (.atToken name (.undefinedVariable name.lexeme))

/-- The variable of a name in one environment, which has to hold it. -/
def valueIn (σ : Store) (e : EnvId) (name : String) : Except Abort Value :=
  match σ.binding? e name with
  | some v => .ok v
  | none => .error (.fault (.missingName name))

/-- The value of a variable, searched from `e` outwards. -/
def get (σ : Store) (e : EnvId) (name : Token) : Except Abort Value :=
  match σ.owner e name with
  | .ok owner => σ.valueIn owner name.lexeme
  | .error a => .error a

/-- The store with the variable set that a search from `e` outwards finds. -/
def assign (σ : Store) (e : EnvId) (name : Token) (v : Value) : Except Abort Store :=
  match σ.owner e name with
  | .ok owner => .ok (σ.define owner name.lexeme v)
  | .error a => .error a

/-- The environment a distance outwards. -/
def ancestor (σ : Store) (e : EnvId) : Nat → Except Abort EnvId
  | 0 => .ok e
  | d + 1 =>
    match σ.parent? e with
    | some p => σ.ancestor p d
    | none => .error (.fault .distanceTooFar)

/-- The value of a variable a distance outwards. -/
def getAt (σ : Store) (e : EnvId) (d : Nat) (name : String) : Except Abort Value :=
  match σ.ancestor e d with
  | .ok a => σ.valueIn a name
  | .error x => .error x

/-- The store with a variable a distance outwards set. -/
def assignAt (σ : Store) (e : EnvId) (d : Nat) (name : String) (v : Value) :
    Except Abort Store :=
  match σ.ancestor e d with
  | .ok a => .ok (σ.define a name v)
  | .error x => .error x

/-- Defining changes one environment. -/
theorem environment?_define (σ : Store) (e a : EnvId) (name : String) (v : Value) :
    (σ.define e name v).environment? a =
      if a = e then (σ.environment? a).map fun env => { env with values := env.values.set name v }
      else σ.environment? a := by
  have h : a = e ↔ e.index = a.index := by
    constructor
    · rintro rfl
      rfl
    · intro h
      cases a
      cases e
      simp_all
  by_cases ha : e.index = a.index <;>
    simp [define, environment?, Array.getElem?_modify, h, ha]

/-- Defining changes no enclosing environment. -/
@[simp] theorem parent?_define (σ : Store) (e a : EnvId) (name : String) (v : Value) :
    (σ.define e name v).parent? a = σ.parent? a := by
  unfold parent?
  rw [environment?_define]
  split
  · cases σ.environment? a <;> rfl
  · rfl

end Store

end Lox
