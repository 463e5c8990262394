import Lox.Proofs.Scope.Settled

/-!
# Misuses

Which occurrences of names, `this`, `super` and `return` are misuses can be told from the path that
leads to them, without a context that is handed along: from the statements that come before in the
same scope, the parameters of the innermost function, and the classes around. Resolving reports each
of these occurrences once, in the order of the walk, and nothing else.

## Main definitions

* `Frame`, `Path`: the way from the root of a program down to a place
* `Path.isLocal`, `Path.earlier`, `Path.initializes`, `Path.function?`, `Path.class?`: what can be
  told from it
* `Occasion`: an occurrence that may be a misuse, with `Occasion.misuse?`
* `Stmt.occasionsAll`: the occurrences of a program, each with the path to it
* `Context.Stands`: the context at the end of a path

## Main results

* `Stmt.reports_resolve`: the reports of a statement
* `resolve_reports_misuses`: the reports of a program
-/

namespace Lox

section Occasions

variable {μ : Type}

/-! ## Paths -/

/-- The names that a statement declares in the scope that it stands in. -/
def Stmt.declarations : Stmt μ → List Token
  | .var name _ | .class name .. => [name]
  | .function decl => [decl.name]
  -- a branch stands in the scope of the whole
  | .ifThen _ thenBranch => thenBranch.declarations
  | .ifElse _ thenBranch elseBranch => elseBranch.declarations ++ thenBranch.declarations
  | .while _ body => body.declarations
  | .expression _ | .print _ | .block _ | .return .. => []

/-- A part of the way down to a place in a program. -/
inductive Frame (μ : Type) where
  /-- Past a statement that comes before. -/
  | past (s : Stmt μ)
  /-- Into the initializer of a variable. -/
  | initializer (name : Token)
  /-- Into a block. -/
  | block
  /-- Into a function, past its first parameters. -/
  | function (isMethod : Bool) (name : Token) (params : List Token)
  /-- Into a class. -/
  | class (superclass : Option (Ref μ))

namespace Frame

/-- Whether a scope opens there. -/
def opens : Frame μ → Bool
  | .block | .function .. | .class _ => true
  | .past _ | .initializer _ => false

/-- What is declared there. -/
def declarations : Frame μ → List Token
  | .past s => s.declarations
  | .initializer name => [name]
  | .function _ _ params => params
  | .block | .class _ => []

end Frame

/-- The way down to a place in a program, the last part first. -/
abbrev Path (μ : Type) := List (Frame μ)

namespace Path

/-- Whether the place is in a local scope. -/
def isLocal (p : Path μ) : Bool := p.any Frame.opens

/-- What the innermost scope declares before the place. -/
def earlier : Path μ → List Token
  | [] => []
  | frame :: rest => frame.declarations ++ if frame.opens then [] else earlier rest

/-- Whether the place is in the initializer of a variable with a name. -/
def initializes (p : Path μ) (name : String) : Bool :=
  match p with
  | .initializer t :: _ => t.lexeme = name
  | _ => false

/-- The innermost function around the place: whether it is an instance method, and its name. -/
def function? : Path μ → Option (Bool × Token)
  | [] => none
  | .function isMethod name _ :: _ => some (isMethod, name)
  | _ :: rest => function? rest

/-- The innermost class around the place, with its superclass if it has one. -/
def class? : Path μ → Option (Option (Ref μ))
  | [] => none
  | .class superclass :: _ => some superclass
  | _ :: rest => class? rest

end Path

/-! ## Occurrences -/

/-- An occurrence that may be a misuse. -/
inductive Occasion where
  /-- The declaration of a variable, a function, a class or a parameter. -/
  | declaration (name : Token)
  /-- A read of a variable. -/
  | read (name : Token)
  /-- A `return`, with a value or without. -/
  | return (keyword : Token) (valued : Bool)
  /-- A `this`. -/
  | this (keyword : Token)
  /-- A `super`. -/
  | super (keyword : Token)
  /-- The name of a class and that of its superclass. -/
  | inherit (name superclass : Token)

/-- What is wrong with an occurrence at a place, if anything, and at which token. -/
def Occasion.misuse? (p : Path μ) : Occasion → Option (Token × ScopeError)
  | .declaration name =>
    if p.isLocal ∧ ∃ t ∈ p.earlier, t.lexeme = name.lexeme then some (name, .redeclared) else none
  | .read name =>
    if p.isLocal ∧ p.initializes name.lexeme then some (name, .ownInitializer) else none
  | .return keyword valued =>
    match p.function? with
    | none => some (keyword, .returnOutsideFunction)
    | some (isMethod, name) =>
      if valued ∧ isMethod ∧ name.lexeme = "init" then some (keyword, .returnFromInitializer)
      else none
  | .this keyword =>
    match p.class? with
    | none => some (keyword, .thisOutsideClass)
    | some _ => none
  | .super keyword =>
    match p.class? with
    | none => some (keyword, .superOutsideClass)
    | some none => some (keyword, .superWithoutSuperclass)
    | some (some _) => none
  | .inherit name superclass =>
    if superclass.lexeme = name.lexeme then some (superclass, .selfInheritance) else none

/-- The report of an occurrence at a place, if it is a misuse. -/
def Occasion.report? (p : Path μ) (o : Occasion) : Option Report :=
  (o.misuse? p).map fun x => .ofToken x.1 (.scope x.2)

namespace Expr

mutual

/-- The occurrences of an expression. -/
def occasions : Expr μ → List Occasion
  | .literal _ => []
  | .variable name => [.read name.token]
  | .assign _ value => value.occasions
  | .binary left _ _ right | .logical left _ _ right => left.occasions ++ right.occasions
  | .unary _ _ operand => operand.occasions
  | .ternary _ condition whenTrue whenFalse =>
    condition.occasions ++ whenTrue.occasions ++ whenFalse.occasions
  | .group inner => inner.occasions
  | .call callee _ arguments => callee.occasions ++ occasionsAll arguments
  | .field object _ => object.occasions
  -- the value is looked at first
  | .setField object _ value => value.occasions ++ object.occasions
  | .this keyword => [.this keyword.token]
  | .super keyword _ => [.super keyword.token]

/-- The occurrences of expressions. -/
def occasionsAll : List (Expr μ) → List Occasion
  | [] => []
  | e :: rest => e.occasions ++ occasionsAll rest

end

/-- The occurrences of an expression that may be absent. -/
def occasions? : Option (Expr μ) → List Occasion
  | none => []
  | some e => e.occasions

end Expr

/-- Occurrences that are all at one place. -/
def Path.at (p : Path μ) (os : List Occasion) : List (Path μ × Occasion) := os.map (p, ·)

/-- The parameters of a function, each past those before it. -/
def Path.parameters (p : Path μ) (isMethod : Bool) (name : Token) (before : List Token) :
    List Token → List (Path μ × Occasion)
  | [] => []
  | t :: rest =>
    (.function isMethod name before :: p, .declaration t) ::
      p.parameters isMethod name (before ++ [t]) rest

namespace Stmt

mutual

/-- The occurrences of a statement that a path leads to, each with the path to it. -/
def occasions (p : Path μ) : Stmt μ → List (Path μ × Occasion)
  | .expression value | .print value => p.at value.occasions
  | .var name initializer =>
    (p, .declaration name) :: Path.at (.initializer name :: p) (Expr.occasions? initializer)
  | .block body => occasionsAll (.block :: p) body
  | .ifThen condition thenBranch => p.at condition.occasions ++ thenBranch.occasions p
  | .ifElse condition thenBranch elseBranch =>
    p.at condition.occasions ++ thenBranch.occasions p ++
      elseBranch.occasions (.past thenBranch :: p)
  | .while condition body => p.at condition.occasions ++ body.occasions p
  | .function decl => (p, .declaration decl.name) :: functionOccasions p false decl
  | .return keyword value =>
    (p, .return keyword value.isSome) :: p.at (Expr.occasions? value)
  | .class name superclass statics methods =>
    (p, .declaration name) ::
      (superclass.toList.flatMap fun r => [(p, .inherit name r.token), (p, .read r.token)]) ++
        functionsOccasions (.class superclass :: p) true methods ++
        functionsOccasions (.class superclass :: p) false statics

/-- The occurrences of a function. -/
def functionOccasions (p : Path μ) (isMethod : Bool) : FunDecl μ → List (Path μ × Occasion)
  | .mk name params body =>
    p.parameters isMethod name [] params ++
      occasionsAll (.function isMethod name params :: p) body

/-- The occurrences of statements one after another. -/
def occasionsAll (p : Path μ) : List (Stmt μ) → List (Path μ × Occasion)
  | [] => []
  | s :: rest => s.occasions p ++ occasionsAll (.past s :: p) rest

/-- The occurrences of the members of a class. -/
def functionsOccasions (p : Path μ) (isMethod : Bool) : List (FunDecl μ) → List (Path μ × Occasion)
  | [] => []
  | f :: rest => functionOccasions p isMethod f ++ functionsOccasions p isMethod rest

end

end Stmt

/-! ## Contexts at the end of paths -/

namespace Context

/-- What a context knows of the function and the class around the place that a path leads to. -/
structure Within (c : Context) (p : Path μ) : Prop where
  outside : c.function = .none ↔ p.function? = none
  inInit : c.function = .initializer ↔
    ∃ name, p.function? = some (true, name) ∧ name.lexeme = "init"
  classKind : c.enclosingClass = match p.class? with
    | none => .none
    | some none => .base
    | some (some _) => .derived

/-- The context at the place that a path leads to. -/
structure Stands (c : Context) (p : Path μ) : Prop extends c.Within p where
  isLocal : p.isLocal = !c.scopes.isEmpty
  declares : ∀ n, c.declares n = true ↔ p.isLocal ∧ ∃ t ∈ p.earlier, t.lexeme = n
  inInitializer : ∀ n, c.inInitializer n = true ↔ p.isLocal ∧ p.initializes n

/-- The context at a place between statements, where no name is being initialized. -/
structure Between (c : Context) (p : Path μ) : Prop extends c.Stands p where
  ended : ∀ n, c.inInitializer n = false

variable {c c' : Context} {p p' : Path μ} {name : Token} {s : Stmt μ}

theorem Within.congr (h : c.Within p) (hfunction : c'.function = c.function)
    (hclass : c'.enclosingClass = c.enclosingClass) (hfunction' : p'.function? = p.function?)
    (hclass' : p'.class? = p.class?) : c'.Within p' where
  outside := by rw [hfunction, hfunction']; exact h.outside
  inInit := by rw [hfunction, hfunction']; exact h.inInit
  classKind := by rw [hclass, hclass']; exact h.classKind

theorem Within.between (h : c.Within p) (hlocal : p.isLocal = !c.scopes.isEmpty)
    (hdeclares : ∀ n, c.declares n = true ↔ p.isLocal ∧ ∃ t ∈ p.earlier, t.lexeme = n)
    (hinit : ∀ n, p.initializes n = false) (hended : ∀ n, c.inInitializer n = false) :
    c.Between p where
  toWithin := h
  isLocal := hlocal
  declares := hdeclares
  inInitializer n := by simp [hinit, hended]
  ended := hended

theorem between_root : Between {} ([] : Path μ) :=
  Within.between ⟨by simp [Path.function?], by simp [Path.function?], rfl⟩ rfl
    (fun n => by simp [declares, Path.isLocal]) (fun _ => rfl) fun _ => rfl

/-! ### Declarations -/

theorem isEmpty_setName (c : Context) (m : String) (ended : Bool) :
    (c.setName m ended).scopes.isEmpty = c.scopes.isEmpty := by
  obtain ⟨_ | ⟨scope, outer⟩, _, _⟩ := c <;> rfl

theorem declares_setName (c : Context) (m : String) (ended : Bool) (n : String) :
    (c.setName m ended).declares n = true ↔
      c.declares n = true ∨ c.scopes.isEmpty = false ∧ m = n := by
  obtain ⟨_ | ⟨scope, outer⟩, _, _⟩ := c
  · simp [setName, declares]
  · simp [setName, declares, or_comm, @eq_comm _ m]

theorem inInitializer_setName (c : Context) (m : String) (ended : Bool) (n : String) :
    (c.setName m ended).inInitializer n = true ↔
      if m = n then c.scopes.isEmpty = false ∧ ended = false else c.inInitializer n = true := by
  obtain ⟨_ | ⟨scope, outer⟩, _, _⟩ := c
  · simp [setName, inInitializer]
  · by_cases h : m = n
    · simp [setName, inInitializer, h]
    · simp [setName, inInitializer, h, Ne.symm h]

theorem isEmpty_declared (c : Context) (t : Token) :
    ((c.declare t).define t).scopes.isEmpty = c.scopes.isEmpty :=
  (isEmpty_setName ..).trans (isEmpty_setName ..)

theorem declares_declared (c : Context) (t : Token) (n : String) :
    ((c.declare t).define t).declares n = true ↔
      c.declares n = true ∨ c.scopes.isEmpty = false ∧ t.lexeme = n := by
  rw [define, declares_setName, declare, declares_setName, isEmpty_setName, or_assoc, or_self]

/-- A declaration that has ended leaves no name to be initialized but those before. -/
theorem inInitializer_declared (h : ∀ n, c.inInitializer n = false) (t : Token) (n : String) :
    ((c.declare t).define t).inInitializer n = false := by
  rw [← Bool.not_eq_true, define, inInitializer_setName, declare, inInitializer_setName, h]
  split <;> simp

theorem Within.declared (h : c.Within p) (t : Token) : ((c.declare t).define t).Within p :=
  h.congr (by simp [declare, define]) (by simp [declare, define]) rfl rfl

/-! ### Statements one after another -/

/-- A statement that declares nothing leaves the context as it is. -/
theorem Between.pass (h : c.Between p) (hs : s.declarations = []) : c.Between (.past s :: p) := by
  refine Within.between (h.congr rfl rfl rfl rfl) h.isLocal (fun n => ?_) (fun _ => rfl) h.ended
  rw [h.declares]
  simp [Path.isLocal, Path.earlier, Frame.opens, Frame.declarations, hs]

/-- A declaration adds its name to those of the scope. -/
theorem Stands.declares_declared (h : c.Stands p) (name : Token) (n : String) :
    ((c.declare name).define name).declares n = true ↔
      p.isLocal ∧ ∃ t ∈ name :: p.earlier, t.lexeme = n := by
  rw [Context.declares_declared, h.declares, h.isLocal]
  cases c.scopes.isEmpty <;> simp [or_comm]

/-- A statement that declares a name. -/
theorem Between.pass_declared (h : c.Between p) (hs : s.declarations = [name]) :
    ((c.declare name).define name).Between (.past s :: p) := by
  refine Within.between ((h.toWithin.declared name).congr rfl rfl rfl rfl) ?_ (fun n => ?_)
    (fun _ => rfl) (inInitializer_declared h.ended name)
  · rw [isEmpty_declared]
    exact h.isLocal
  · rw [h.toStands.declares_declared]
    simp [Path.isLocal, Path.earlier, Frame.opens, Frame.declarations, hs]

/-- Ways that declare the same lead to the same context. -/
theorem Between.past_congr {s' : Stmt μ} (h : c.Between (.past s :: p))
    (hs : s'.declarations = s.declarations) : c.Between (.past s' :: p) := by
  refine Within.between (h.congr rfl rfl rfl rfl) h.isLocal (fun n => ?_) (fun _ => rfl) h.ended
  rw [h.declares]
  simp [Path.isLocal, Path.earlier, Frame.opens, Frame.declarations, hs]

/-- A branch after another. -/
theorem Between.past_past {s' whole : Stmt μ} (h : c.Between (.past s' :: .past s :: p))
    (hwhole : whole.declarations = s'.declarations ++ s.declarations) :
    c.Between (.past whole :: p) := by
  refine Within.between (h.congr rfl rfl rfl rfl) h.isLocal (fun n => ?_) (fun _ => rfl) h.ended
  rw [h.declares]
  simp [Path.isLocal, Path.earlier, Frame.opens, Frame.declarations, hwhole, or_and_right,
    exists_or]

/-- The initializer of a variable. -/
theorem Between.intoInitializer (h : c.Between p) (name : Token) :
    (c.declare name).Stands (.initializer name :: p) where
  toWithin := h.congr (by simp [declare]) (by simp [declare]) rfl rfl
  isLocal := by
    rw [declare, isEmpty_setName]
    exact h.isLocal
  declares n := by
    rw [declare, declares_setName, h.declares]
    have hlocal := h.isLocal
    cases hempty : c.scopes.isEmpty <;>
      simp_all [Path.isLocal, Path.earlier, Frame.opens, Frame.declarations, or_comm]
  inInitializer n := by
    rw [declare, inInitializer_setName, h.ended]
    have hlocal := h.isLocal
    cases hempty : c.scopes.isEmpty <;>
      simp_all [Path.isLocal, Path.initializes, Frame.opens]

/-- A block. -/
theorem Between.intoBlock (h : c.Between p) : (c.enter .empty).Between (.block :: p) := by
  refine Within.between (h.congr rfl rfl rfl rfl) rfl (fun n => ?_) (fun _ => rfl) fun n => rfl
  simp [Context.declares, Context.enter, Path.earlier, Frame.declarations, Frame.opens, Table.has]

/-! ### Functions and classes -/

/-- A function, before its parameters. -/
theorem Within.intoFunction (h : c.Within p) {kind : FunctionKind} {isMethod : Bool}
    (hnone : kind ≠ .none) (hinit : kind = .initializer ↔ isMethod = true ∧ name.lexeme = "init") :
    ({ c.enter .empty with function := kind } : Context).Between
      (.function isMethod name [] :: p) := by
  refine Within.between ⟨?_, ?_, h.classKind⟩ rfl (fun n => ?_) (fun _ => rfl) fun n => rfl
  · simp [Path.function?, hnone]
  · simp [Path.function?, hinit]
  · simp [Context.declares, Context.enter, Path.earlier, Frame.declarations, Frame.opens, Table.has]

/-- A parameter after others. -/
theorem Between.parameter {isMethod : Bool} {before : List Token}
    (h : c.Between (.function isMethod name before :: p)) (t : Token) :
    ((c.declare t).define t).Between (.function isMethod name (before ++ [t]) :: p) := by
  refine Within.between ((h.toWithin.declared t).congr rfl rfl rfl rfl) ?_ (fun n => ?_)
    (fun _ => rfl) (inInitializer_declared h.ended t)
  · rw [isEmpty_declared]
    exact h.isLocal
  · rw [h.toStands.declares_declared]
    simp [Path.isLocal, Path.earlier, Frame.opens, Frame.declarations, or_and_right, exists_or,
      or_comm]

/-- The members of a class. -/
theorem Within.intoClass (h : c.Within p) (superclass : Option (Ref μ)) :
    (c.enterClass superclass).Within (.class superclass :: p) := by
  cases superclass with
  | none => exact ⟨h.outside, h.inInit, rfl⟩
  | some r => exact ⟨h.outside, h.inInit, rfl⟩

end Context

/-! ## Reports -/

/-- The reports among findings. -/
def Finding.reports (fs : List (Finding μ)) : List Report := fs.filterMap Finding.report?

/-- The reports of occurrences, each at a place. -/
def Occasion.reports (os : List (Path μ × Occasion)) : List Report :=
  os.filterMap fun x => x.2.report? x.1

namespace Finding

@[simp] theorem reports_nil : reports ([] : List (Finding μ)) = [] := rfl

@[simp] theorem reports_append (fs gs : List (Finding μ)) :
    reports (fs ++ gs) = reports fs ++ reports gs := List.filterMap_append

@[simp] theorem reports_locate (c : Context) (label : Label) (r : Ref μ) :
    reports (c.locate label r) = [] := by
  unfold Context.locate
  cases c.distance? r.token.lexeme <;> rfl

/-- A misuse that is found if a condition holds. -/
theorem reports_ite (b : Prop) [Decidable b] (t : Token) (e : ScopeError) :
    reports (if b then [(.ofToken t e : Finding μ)] else []) =
      ((if b then some (t, e) else none).map fun x => Report.ofToken x.1 (.scope x.2)).toList := by
  split <;> rfl

end Finding

namespace Occasion

@[simp] theorem reports_nil : reports ([] : List (Path μ × Occasion)) = [] := rfl

@[simp] theorem reports_append (os os' : List (Path μ × Occasion)) :
    reports (os ++ os') = reports os ++ reports os' := List.filterMap_append

@[simp] theorem reports_cons (p : Path μ) (o : Occasion) (os : List (Path μ × Occasion)) :
    reports ((p, o) :: os) = (o.report? p).toList ++ reports os := by
  rw [reports, List.filterMap_cons]
  cases o.report? p <;> rfl

end Occasion

@[simp] theorem Path.at_append (p : Path μ) (os os' : List Occasion) :
    p.at (os ++ os') = p.at os ++ p.at os' := List.map_append

@[simp] theorem Path.at_nil (p : Path μ) : p.at [] = [] := rfl

section Reports

variable {c : Context} {p : Path μ}

/-! ### Single occurrences -/

namespace Context

theorem Stands.reports_declaration (h : c.Stands p) (name : Token) :
    Finding.reports (c.redeclaration (μ := μ) name) =
      ((Occasion.declaration name).report? p).toList := by
  rw [redeclaration, Finding.reports_ite]
  simp only [h.declares, Occasion.report?, Occasion.misuse?]

theorem reports_read (h : ∀ n, c.inInitializer n = true ↔ p.isLocal ∧ p.initializes n)
    (r : Ref μ) : Finding.reports ((Expr.variable r).resolve c) =
      ((Occasion.read r.token).report? p).toList := by
  rw [Expr.resolve, Finding.reports_append, Finding.reports_locate, List.append_nil,
    Finding.reports_ite]
  simp only [h, Occasion.report?, Occasion.misuse?]

theorem Within.reports_this (h : c.Within p) (r : Ref μ) :
    Finding.reports ((Expr.this r).resolve c) = ((Occasion.this r.token).report? p).toList := by
  have hclass := h.classKind
  simp only [Expr.resolve, Occasion.report?, Occasion.misuse?]
  cases hp : p.class? with
  | none =>
    rw [hp] at hclass
    rw [hclass]
    rfl
  | some superclass =>
    rw [hp] at hclass
    cases superclass <;> rw [hclass] <;> exact Finding.reports_locate ..

theorem Within.reports_super (h : c.Within p) (r : Ref μ) (method : Token) :
    Finding.reports ((Expr.super r method).resolve c) =
      ((Occasion.super r.token).report? p).toList := by
  have hclass := h.classKind
  simp only [Expr.resolve, Occasion.report?, Occasion.misuse?]
  cases hp : p.class? with
  | none =>
    rw [hp] at hclass
    rw [hclass]
    rfl
  | some superclass =>
    rw [hp] at hclass
    cases superclass <;> rw [hclass]
    · rfl
    · exact Finding.reports_locate ..

theorem Within.reports_return (h : c.Within p) (keyword : Token) (value : Option (Expr μ)) :
    Finding.reports (c.returnFindings keyword value) =
      ((Occasion.return keyword value.isSome).report? p).toList ++
        Finding.reports (Expr.resolve? c value) := by
  rw [returnFindings, Finding.reports_append, Finding.reports_append, Finding.reports_ite,
    Finding.reports_ite]
  congr 1
  simp only [Bool.and_eq_true, decide_eq_true_eq, Occasion.report?, Occasion.misuse?]
  cases hp : p.function? with
  | none =>
    have hnone : c.function = .none := h.outside.2 hp
    simp [hnone]
  | some f =>
    obtain ⟨isMethod, name⟩ := f
    have hnone : c.function ≠ .none := mt h.outside.1 (by simp [hp])
    have hinit : c.function = .initializer ↔ isMethod = true ∧ name.lexeme = "init" := by
      rw [h.inInit, hp]
      simp
    simp [hnone, hinit]

end Context

/-! ### Expressions -/

mutual

/-- The reports of an expression are those of its occurrences. -/
theorem Expr.reports_resolve (h : c.Stands p) : (e : Expr μ) →
    Finding.reports (e.resolve c) = Occasion.reports (p.at e.occasions)
  | .literal _ => rfl
  | .variable r => by simp [Context.reports_read h.inInitializer, occasions, Path.at]
  | .assign r value => by simp [resolve, occasions, reports_resolve h value]
  | .binary left _ _ right | .logical left _ _ right | .setField right _ left => by
    simp [resolve, occasions, reports_resolve h left, reports_resolve h right]
  | .unary _ _ operand | .group operand | .field operand _ => by
    simp [resolve, occasions, reports_resolve h operand]
  | .ternary _ condition whenTrue whenFalse => by
    simp [resolve, occasions, reports_resolve h condition, reports_resolve h whenTrue,
      reports_resolve h whenFalse]
  | .call callee _ arguments => by
    simp [resolve, occasions, reports_resolve h callee, reports_resolveAll h arguments]
  | .this r => by simp [h.reports_this, occasions, Path.at]
  | .super r method => by simp [h.reports_super, occasions, Path.at]

theorem Expr.reports_resolveAll (h : c.Stands p) : (es : List (Expr μ)) →
    Finding.reports (Expr.resolveAll c es) = Occasion.reports (p.at (Expr.occasionsAll es))
  | [] => rfl
  | e :: rest => by
    simp [resolveAll, occasionsAll, reports_resolve h e, reports_resolveAll h rest]

end

theorem Expr.reports_resolve? (h : c.Stands p) (o : Option (Expr μ)) :
    Finding.reports (Expr.resolve? c o) = Occasion.reports (p.at (Expr.occasions? o)) := by
  cases o with
  | none => rfl
  | some e => exact reports_resolve h e

/-! ### Statements -/

/-- The parameters of a function, and the context behind them. -/
theorem Context.Between.reports_parameters {isMethod : Bool} {name : Token} :
    (params : List Token) → {before : List Token} → {c : Context} →
      c.Between (.function isMethod name before :: p) →
      Finding.reports (c.parameterFindings (μ := μ) params) =
          Occasion.reports (p.parameters isMethod name before params) ∧
        (params.foldl (fun c t => (c.declare t).define t) c).Between
          (.function isMethod name (before ++ params) :: p)
  | [], before, c, h => ⟨rfl, by simpa using h⟩
  | t :: rest, before, c, h => by
    obtain ⟨hreports, hbetween⟩ := reports_parameters rest (h.parameter t)
    rw [List.append_assoc] at hbetween
    refine ⟨?_, hbetween⟩
    simp [parameterFindings, Path.parameters, h.reports_declaration, hreports]

/-- The name and the superclass of a class, whose declaration has ended. -/
theorem Context.Between.reports_class (h : c.Between p) (name : Token)
    (superclass : Option (Ref μ)) :
    Finding.reports (((c.declare name).define name).classFindings name superclass) =
      Occasion.reports (superclass.toList.flatMap fun r =>
        [(p, .inherit name r.token), (p, .read r.token)]) := by
  have hread : ∀ n, ((c.declare name).define name).inInitializer n = true ↔
      p.isLocal ∧ p.initializes n := by
    intro n
    rw [inInitializer_declared h.ended, ← h.inInitializer, h.ended]
  cases superclass with
  | none => rfl
  | some r =>
    simp [classFindings, reports_read hread, Finding.reports_ite, Occasion.report?,
      Occasion.misuse?]

mutual

/-- The reports of a statement are those of its occurrences, and it leads to the context behind
it. -/
theorem Stmt.reports_resolve : (s : Stmt μ) → {c : Context} → {p : Path μ} → c.Between p →
    Finding.reports (s.resolve c).2 = Occasion.reports (s.occasions p) ∧
      (s.resolve c).1.Between (.past s :: p)
  | .expression e, c, p, h | .print e, c, p, h => ⟨Expr.reports_resolve h.toStands e, h.pass rfl⟩
  | .var name o, c, p, h => by
    refine ⟨?_, h.pass_declared rfl⟩
    simp [resolve, occasions, h.reports_declaration,
      Expr.reports_resolve? (h.intoInitializer name)]
  | .block body, c, p, h => ⟨(reports_resolveAll body h.intoBlock :), h.pass rfl⟩
  | .ifThen e s, c, p, h => by
    obtain ⟨hs, hbehind⟩ := reports_resolve s h
    refine ⟨?_, hbehind.past_congr rfl⟩
    simp [resolve, occasions, Expr.reports_resolve h.toStands, hs]
  | .while e s, c, p, h => by
    obtain ⟨hs, hbehind⟩ := reports_resolve s h
    refine ⟨?_, hbehind.past_congr rfl⟩
    simp [resolve, occasions, Expr.reports_resolve h.toStands, hs]
  | .ifElse e s s', c, p, h => by
    obtain ⟨hs, hbehind⟩ := reports_resolve s h
    obtain ⟨hs', hbehind'⟩ := reports_resolve s' hbehind
    refine ⟨?_, hbehind'.past_past rfl⟩
    simp [resolve, occasions, Expr.reports_resolve h.toStands, hs, hs']
  | .function f, c, p, h => by
    refine ⟨?_, h.pass_declared rfl⟩
    have hf := reports_resolveFunction f .function false
      (h.toWithin.declared f.name) (by simp) (by simp)
    simp [resolve, occasions, h.reports_declaration, hf]
  | .return keyword o, c, p, h => by
    refine ⟨?_, h.pass rfl⟩
    simp [resolve, occasions, h.reports_return, Expr.reports_resolve? h.toStands]
  | .class name superclass statics methods, c, p, h => by
    refine ⟨?_, h.pass_declared rfl⟩
    have hinside := (h.toWithin.declared name).intoClass superclass
    have hmethods := reports_resolveMethods methods hinside
    have hstatics := reports_resolveStatics statics hinside
    simp [resolve, occasions, h.reports_declaration, h.reports_class, hmethods, hstatics]

/-- The reports of a function. -/
theorem Stmt.reports_resolveFunction : (f : FunDecl μ) → (kind : FunctionKind) →
    (isMethod : Bool) → {c : Context} → {p : Path μ} → c.Within p → kind ≠ .none →
    (kind = .initializer ↔ isMethod = true ∧ f.name.lexeme = "init") →
    Finding.reports (resolveFunction c kind f) = Occasion.reports (functionOccasions p isMethod f)
  | .mk name params body, kind, isMethod, c, p, h, hnone, hinit => by
    obtain ⟨hparams, hbehind⟩ := (h.intoFunction hnone hinit).reports_parameters params
    have hbody := reports_resolveAll body hbehind
    rw [resolveFunction, functionOccasions, Finding.reports_append, Occasion.reports_append,
      hparams]
    exact congrArg _ hbody

/-- The reports of statements one after another. -/
theorem Stmt.reports_resolveAll : (ss : List (Stmt μ)) → {c : Context} → {p : Path μ} →
    c.Between p → Finding.reports (Stmt.resolveAll c ss).2 = Occasion.reports (occasionsAll p ss)
  | [], _, _, _ => rfl
  | s :: rest, c, p, h => by
    obtain ⟨hs, hbehind⟩ := reports_resolve s h
    simp [resolveAll, occasionsAll, hs, reports_resolveAll rest hbehind]

/-- The reports of instance methods. -/
theorem Stmt.reports_resolveMethods : (fs : List (FunDecl μ)) → {c : Context} → {p : Path μ} →
    c.Within p →
    Finding.reports (resolveMethods c fs) = Occasion.reports (functionsOccasions p true fs)
  | [], _, _, _ => rfl
  | f :: rest, c, p, h => by
    have hf := reports_resolveFunction f f.methodKind true h
      (by unfold FunDecl.methodKind; split <;> simp)
      (by unfold FunDecl.methodKind; split <;> simp_all [FunDecl.isInitName])
    simp [resolveMethods, functionsOccasions, hf, reports_resolveMethods rest h]

/-- The reports of static methods. -/
theorem Stmt.reports_resolveStatics : (fs : List (FunDecl μ)) → {c : Context} → {p : Path μ} →
    c.Within p →
    Finding.reports (resolveStatics c fs) = Occasion.reports (functionsOccasions p false fs)
  | [], _, _, _ => rfl
  | f :: rest, c, p, h => by
    have hf := reports_resolveFunction f .method false h (by simp) (by simp)
    simp [resolveStatics, functionsOccasions, hf, reports_resolveStatics rest h]

end

/-- What resolving reports of statements. Each occurrence that is a misuse, by the path that leads
to it, is reported once, at its token and in the order of the walk, and nothing else is: a
declaration of a name that the local scope has declared before, parameters and body of a function
being one scope; a read of a local variable in its own initializer; a `return` outside every
function, and one with a value whose innermost function is an instance method with the name `init`;
a `this` outside every class; a `super` outside every class or in one without a superclass; and a
class with the name of its superclass. So nothing is reported if and only if none of these
occurs. -/
theorem resolve_reports_misuses (body : List (Stmt μ)) :
    (resolve body).filterMap Finding.report? =
        (Stmt.occasionsAll [] body).filterMap (fun x => x.2.report? x.1) ∧
      ((resolve body).filterMap Finding.report? = [] ↔
        ∀ x ∈ Stmt.occasionsAll [] body, x.2.misuse? x.1 = none) := by
  have hreports : (resolve body).filterMap Finding.report? = _ :=
    Stmt.reports_resolveAll body Context.between_root
  refine ⟨hreports, ?_⟩
  rw [hreports, Occasion.reports, List.filterMap_eq_nil_iff]
  simp only [Occasion.report?, Option.map_eq_none_iff]

end Reports

end Occasions

end Lox
