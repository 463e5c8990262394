import Lox.Proofs.Scope.InOrder

/-!
# Lexical addresses

Where a reference leads to can be told from the text. The scopes around it are the blocks,
functions and classes that it stands in. A variable belongs to the innermost of them that has a
declaration of its name that starts before the reference, `this` to the innermost class, and
`super` to that class as well, if it has a superclass. The address of a reference is the number
of scopes around it that lie inside the one that it belongs to.

## Main definitions

* `Region`: a scope as the text shows it
* `Reference`: a variable, a `this` or a `super`
* `Reference.address?`, `Reference.misplaced?`: what can be told of a reference from the scopes
  around it
* `Stmt.references`: the references of a statement, each with the regions around it

## Main results

* `Stmt.perm_referencesAll`: every occurrence with a mark is a reference
-/

namespace Lox

variable {μ : Type}

instance : DecidableRel Position.Before := fun p q =>
  inferInstanceAs (Decidable (p.line < q.line ∨ p.line = q.line ∧ p.column < q.column))

/-! ## Regions -/

/-- A scope as the text shows it. -/
inductive Region where
  /-- A block or a function, with the tokens that declare its names. -/
  | names (declared : List Token)
  /-- The scope of `this`, of a class that inherits from another or not. -/
  | receiver (inherits : Bool)
  /-- The scope of `super`. -/
  | superclass

namespace Region

/-- Whether the name of a token is declared in a scope before the token. -/
def declaresBefore (t : Token) : Region → Bool
  | names declared => declared.any fun d => d.lexeme = t.lexeme ∧ d.start.Before t.start
  | receiver _ | superclass => false

/-- Whether a scope is that of `this`. -/
def isReceiver : Region → Bool
  | receiver _ => true
  | names _ | superclass => false

/-- Whether the innermost class inherits from another, if there is a class. -/
def innermost? : List Region → Option Bool
  | [] => none
  | receiver inherits :: _ => some inherits
  | _ :: rest => innermost? rest

/-- The scopes of a class, the innermost first. -/
def ofClass (inherits : Bool) : List Region :=
  if inherits then [receiver true, superclass] else [receiver false]

end Region

/-! ## References -/

/-- An expression that refers to a variable, to the receiver of a method or to its superclass. -/
inductive Reference (μ : Type) where
  /-- A variable that is read or assigned. -/
  | name (label : Label) (r : Ref μ)
  | this (r : Ref μ)
  | super (r : Ref μ)

namespace Reference

/-- The label of a reference. -/
def label : Reference μ → Label
  | name label _ => label
  | this _ => .thisRef
  | super _ => .superRef

/-- The token and the mark of a reference. -/
def ref : Reference μ → Ref μ
  | name _ r | this r | super r => r

@[simp] theorem ref_name (label : Label) (r : Ref μ) : (name label r).ref = r := rfl

/-- What is wrong with the place of a reference, if anything. -/
def misplaced? (around : List Region) : Reference μ → Option ScopeError
  | name .. => none
  | this _ =>
    match Region.innermost? around with
    | none => some .thisOutsideClass
    | some _ => none
  | super _ =>
    match Region.innermost? around with
    | none => some .superOutsideClass
    | some false => some .superWithoutSuperclass
    | some true => none

/-- The number of scopes around a reference that lie inside the one that it belongs to. -/
def address? (around : List Region) : Reference μ → Option Nat
  | name _ r => around.findIdx? (·.declaresBefore r.token)
  | this _ => around.findIdx? Region.isReceiver
  | super _ =>
    if Region.innermost? around = some true then (around.findIdx? Region.isReceiver).map (· + 1)
    else none

/-- What is to be found of a reference. -/
def finding? (around : List Region) (x : Reference μ) : Option (Finding μ) :=
  match x.misplaced? around with
  | some e => some (.ofToken x.ref.token e)
  | none => (x.address? around).map (.resolved x.label x.ref)

/-- What is to be found of references, each in the regions around it. -/
def findings (xs : List (List Region × Reference μ)) : List (Finding μ) :=
  xs.filterMap fun x => x.2.finding? x.1

@[simp] theorem findings_nil : findings ([] : List (List Region × Reference μ)) = [] := rfl

@[simp] theorem findings_append (xs ys : List (List Region × Reference μ)) :
    findings (xs ++ ys) = findings xs ++ findings ys := List.filterMap_append

/-- References that are all at one place. -/
def standing (around : List Region) (xs : List (Reference μ)) : List (List Region × Reference μ) :=
  xs.map (around, ·)

@[simp] theorem standing_nil (around : List Region) :
    standing around ([] : List (Reference μ)) = [] := rfl

@[simp] theorem standing_append (around : List Region) (xs ys : List (Reference μ)) :
    standing around (xs ++ ys) = standing around xs ++ standing around ys := List.map_append

@[simp] theorem findings_standing_cons (around : List Region) (x : Reference μ)
    (xs : List (Reference μ)) :
    findings (standing around (x :: xs)) =
      (x.finding? around).toList ++ findings (standing around xs) := by
  simp only [standing, findings, List.map_cons, List.filterMap_cons]
  cases x.finding? around <;> rfl

end Reference

namespace Expr

mutual

/-- The references of an expression. -/
def references : Expr μ → List (Reference μ)
  | .literal _ => []
  | .variable r => [.name .variable r]
  -- the value is looked at first
  | .assign r value => value.references ++ [.name .assign r]
  | .binary left _ _ right | .logical left _ _ right => left.references ++ right.references
  | .unary _ _ operand => operand.references
  | .ternary _ condition whenTrue whenFalse =>
    condition.references ++ whenTrue.references ++ whenFalse.references
  | .group inner => inner.references
  | .call callee _ arguments => callee.references ++ referencesAll arguments
  | .field object _ => object.references
  | .setField object _ value => value.references ++ object.references
  | .this r => [.this r]
  | .super r _ => [.super r]

/-- The references of expressions. -/
def referencesAll : List (Expr μ) → List (Reference μ)
  | [] => []
  | e :: rest => e.references ++ referencesAll rest

end

/-- The references of an expression that may be absent. -/
def references? : Option (Expr μ) → List (Reference μ)
  | none => []
  | some e => e.references

end Expr

namespace Stmt

mutual

/-- The references of a statement, each with the regions around it. -/
def references (around : List Region) : Stmt μ → List (List Region × Reference μ)
  | .expression value | .print value => Reference.standing around value.references
  | .var _ value | .return _ value => Reference.standing around (Expr.references? value)
  | .block body => referencesAll (.names (declaredTokens body) :: around) body
  | .ifThen condition branch | .while condition branch =>
    Reference.standing around condition.references ++ branch.references around
  | .ifElse condition thenBranch elseBranch =>
    Reference.standing around condition.references ++ thenBranch.references around ++
      elseBranch.references around
  | .function decl => functionReferences around decl
  -- the name of the superclass stands outside of the scopes of the class
  | .class _ superclass statics methods =>
    Reference.standing around (superclass.toList.map (.name .variable)) ++
      functionsReferences (Region.ofClass superclass.isSome ++ around) methods ++
      functionsReferences (Region.ofClass superclass.isSome ++ around) statics

/-- The references of a function, whose parameters and body share a scope. -/
def functionReferences (around : List Region) : FunDecl μ → List (List Region × Reference μ)
  | .mk _ params body => referencesAll (.names (params ++ declaredTokens body) :: around) body

/-- The references of statements. -/
def referencesAll (around : List Region) : List (Stmt μ) → List (List Region × Reference μ)
  | [] => []
  | s :: rest => s.references around ++ referencesAll around rest

/-- The references of functions. -/
def functionsReferences (around : List Region) : List (FunDecl μ) → List (List Region × Reference μ)
  | [] => []
  | f :: rest => functionReferences around f ++ functionsReferences around rest

end

end Stmt

/-! ## All references -/

mutual

/-- The references of an expression are the occurrences that have marks. -/
theorem Expr.perm_references : (e : Expr μ) → (e.references.map (·.ref.mark)).Perm e.marks
  | .literal _ | .variable _ | .this _ | .super _ _ => .refl _
  | .assign r value => by
    simpa [references, marks] using
      (List.perm_append_comm.trans ((perm_references value).cons r.mark))
  | .binary left _ _ right | .logical left _ _ right => by
    simpa [references, marks] using (perm_references left).append (perm_references right)
  | .unary _ _ operand | .group operand | .field operand _ => perm_references operand
  | .ternary _ condition whenTrue whenFalse => by
    simpa [references, marks] using (perm_references condition).append
      ((perm_references whenTrue).append (perm_references whenFalse))
  | .call callee _ arguments => by
    simpa [references, marks] using
      (perm_references callee).append (perm_referencesAll arguments)
  | .setField object _ value => by
    simpa [references, marks] using List.perm_append_comm.trans
      ((perm_references object).append (perm_references value))

theorem Expr.perm_referencesAll : (es : List (Expr μ)) →
    ((Expr.referencesAll es).map (·.ref.mark)).Perm (Expr.marksAll es)
  | [] => .refl _
  | e :: rest => by
    simpa [referencesAll, marksAll] using (perm_references e).append (perm_referencesAll rest)

end

theorem Expr.perm_references? (o : Option (Expr μ)) :
    ((Expr.references? o).map (·.ref.mark)).Perm (Expr.marks? o) := by
  cases o with
  | none => exact .refl _
  | some e => exact e.perm_references

@[simp] theorem Reference.map_standing (around : List Region) (xs : List (Reference μ)) :
    (standing around xs).map (·.2.ref.mark) = xs.map (·.ref.mark) := by
  simp [standing, Function.comp_def]

mutual

theorem Stmt.perm_references (around : List Region) : (s : Stmt μ) →
    ((s.references around).map (·.2.ref.mark)).Perm s.marks
  | .expression value | .print value => by
    simpa [references, marks] using value.perm_references
  | .var _ value | .return _ value => by
    simpa [references, marks] using Expr.perm_references? value
  | .block body => perm_referencesAll _ body
  | .ifThen condition branch | .while condition branch => by
    simpa [references, marks] using
      condition.perm_references.append (perm_references around branch)
  | .ifElse condition thenBranch elseBranch => by
    simpa [references, marks] using condition.perm_references.append
      ((perm_references around thenBranch).append (perm_references around elseBranch))
  | .function decl => perm_functionReferences around decl
  | .class _ superclass statics methods => by
    have hmembers := (List.perm_append_comm.trans
      ((perm_functionsReferences (Region.ofClass superclass.isSome ++ around) statics).append
        (perm_functionsReferences (Region.ofClass superclass.isSome ++ around) methods)))
    cases superclass <;> simpa [references, marks] using hmembers

theorem Stmt.perm_functionReferences (around : List Region) : (f : FunDecl μ) →
    ((functionReferences around f).map (·.2.ref.mark)).Perm (functionMarks f)
  | .mk _ _ body => perm_referencesAll _ body

/-- The references of statements are the occurrences that have marks. -/
theorem Stmt.perm_referencesAll (around : List Region) : (ss : List (Stmt μ)) →
    ((Stmt.referencesAll around ss).map (·.2.ref.mark)).Perm (Stmt.marksAll ss)
  | [] => .refl _
  | s :: rest => by
    simpa [referencesAll, marksAll] using
      (perm_references around s).append (perm_referencesAll around rest)

theorem Stmt.perm_functionsReferences (around : List Region) : (fs : List (FunDecl μ)) →
    ((functionsReferences around fs).map (·.2.ref.mark)).Perm (functionsMarks fs)
  | [] => .refl _
  | f :: rest => by
    simpa [functionsReferences, functionsMarks] using
      (perm_functionReferences around f).append (perm_functionsReferences around rest)

end

end Lox
