import Lox.Scope.Locals
import Mathlib.Logic.Relation

/-!
# Sites of a program

Resolving a program walks over its nodes, each in the context that is open there. A site is a
node with its context and with what opened each of the open scopes. The walk is given by the
sites directly below a site. Which sites these are is said once, with one case for each way to
stand below a site; what the walk keeps is shown by going through these cases.

## Main definitions

* `Opener`: what opens a scope
* `Node`, `Site`, `Site.children`: the walk
* `Site.Below`: a site stands directly below another
* `Visited`: the sites that the walk over a program comes to

## Main results

* `Site.mem_children_iff`: the walk goes on to the sites directly below
* `Site.induction`: what holds of a site if it holds of those below holds of all
-/

namespace Lox

/-- A class as far as its scopes are concerned. -/
structure Members where
  /-- The name. -/
  name : Token
  /-- The static methods. -/
  statics : List (FunDecl Occurrence)
  /-- The instance methods. -/
  methods : List (FunDecl Occurrence)

/-- What opens a scope. -/
inductive Opener where
  /-- A block. -/
  | block (body : List (Stmt Occurrence))
  /-- A function: its parameters and its body share a scope. -/
  | function (decl : FunDecl Occurrence)
  /-- A class: the scope of `this`. -/
  | receiver (m : Members)
  /-- A class with a superclass: the scope of `super`. -/
  | superclass (m : Members)

/-- A node of a program. -/
inductive Node where
  | expression (e : Expr Occurrence)
  | statement (s : Stmt Occurrence)
  /-- What is left of a list of statements. -/
  | body (ss : List (Stmt Occurrence))
  | function (kind : FunctionKind) (f : FunDecl Occurrence)

/-- A node in its context. -/
structure Site where
  /-- The context. -/
  context : Context
  /-- What opened each of its scopes. -/
  openers : List Opener
  /-- The node. -/
  node : Node

/-- What opens the scopes of a class. -/
def Members.openers (m : Members) (superclass : Option (Ref Occurrence)) : List Opener :=
  match superclass with
  | none => [.receiver m]
  | some _ => [.receiver m, .superclass m]

namespace Site

/-- The site of an expression in the same context. -/
def expression (p : Site) (e : Expr Occurrence) : Site := { p with node := .expression e }

/-- The site of a statement in the same context. -/
def statement (p : Site) (s : Stmt Occurrence) : Site := { p with node := .statement s }

/-- The sites directly below an expression. -/
def belowExpression (p : Site) : Expr Occurrence → List Site
  | .literal _ | .variable _ | .this _ | .super .. => []
  | .assign _ value => [p.expression value]
  | .binary left _ _ right | .logical left _ _ right => [p.expression left, p.expression right]
  | .unary _ _ operand => [p.expression operand]
  | .ternary _ condition whenTrue whenFalse =>
    [p.expression condition, p.expression whenTrue, p.expression whenFalse]
  | .group inner => [p.expression inner]
  | .call callee _ arguments => p.expression callee :: arguments.map p.expression
  | .field object _ => [p.expression object]
  | .setField object _ value => [p.expression object, p.expression value]

/-- The sites directly below a class. -/
def belowClass (p : Site) (name : Token) (superclass : Option (Ref Occurrence))
    (statics methods : List (FunDecl Occurrence)) : List Site :=
  let c := (p.context.declare name).define name
  let inside := c.enterClass superclass
  let openers := Members.openers ⟨name, statics, methods⟩ superclass ++ p.openers
  superclass.toList.map (fun r => ⟨c, p.openers, .expression (.variable r)⟩) ++
    (methods.map (fun f => ⟨inside, openers, .function f.methodKind f⟩) ++
      statics.map fun f => ⟨inside, openers, .function .method f⟩)

/-- The sites directly below a statement. -/
def belowStatement (p : Site) : Stmt Occurrence → List Site
  | .expression value | .print value => [p.expression value]
  | .var name initializer =>
    initializer.toList.map fun e => ⟨p.context.declare name, p.openers, .expression e⟩
  | .block body => [⟨p.context.enter .empty, .block body :: p.openers, .body body⟩]
  | .ifThen condition thenBranch => [p.expression condition, p.statement thenBranch]
  | .ifElse condition thenBranch elseBranch =>
    [p.expression condition, p.statement thenBranch,
      ⟨(thenBranch.resolve p.context).1, p.openers, .statement elseBranch⟩]
  | .while condition body => [p.expression condition, p.statement body]
  | .function decl =>
    [⟨(p.context.declare decl.name).define decl.name, p.openers, .function .function decl⟩]
  | .return _ value => value.toList.map p.expression
  | .class name superclass statics methods => p.belowClass name superclass statics methods

/-- The sites directly below a site. -/
def children (p : Site) : List Site :=
  match p.node with
  | .expression e => p.belowExpression e
  | .statement s => p.belowStatement s
  | .body [] => []
  | .body (s :: rest) =>
    [p.statement s, ⟨(s.resolve p.context).1, p.openers, .body rest⟩]
  | .function kind f =>
    [⟨p.context.enterFunction kind f.params, .function f :: p.openers, .body f.body⟩]

end Site

/-- The sites that the walk over a program comes to. -/
inductive Visited (body : List (Stmt Occurrence)) : Site → Prop where
  | root : Visited body ⟨{}, [], .body body⟩
  | child {p q : Site} (h : Visited body p) (hq : q ∈ p.children) : Visited body q

/-! ## What stands below a site -/

/-- The expressions directly below an expression. -/
def Expr.operands {μ : Type} : Expr μ → List (Expr μ)
  | .literal _ | .variable _ | .this _ | .super .. => []
  | .assign _ value => [value]
  | .binary left _ _ right | .logical left _ _ right => [left, right]
  | .unary _ _ operand => [operand]
  | .ternary _ condition whenTrue whenFalse => [condition, whenTrue, whenFalse]
  | .group inner => [inner]
  | .call callee _ arguments => callee :: arguments
  | .field object _ => [object]
  | .setField object _ value => [object, value]

/-- The expressions directly below a statement, but for an initializer. -/
def Stmt.operands {μ : Type} : Stmt μ → List (Expr μ)
  | .expression value | .print value => [value]
  | .ifThen condition _ | .ifElse condition _ _ | .while condition _ => [condition]
  | .return _ value => value.toList
  | .var .. | .block _ | .function _ | .class .. => []

/-- The statement that stands directly after a condition. -/
def Stmt.branch? {μ : Type} : Stmt μ → Option (Stmt μ)
  | .ifThen _ body | .ifElse _ body _ | .while _ body => some body
  | _ => none

theorem Expr.sizeOf_operand {e a : Expr Occurrence} (h : a ∈ e.operands) :
    sizeOf a < sizeOf e := by
  cases e with
  | call callee paren arguments =>
    rcases List.mem_cons.1 h with rfl | h
    · simp
      omega
    · have := List.sizeOf_lt_of_mem h
      simp
      omega
  | literal | «variable» | this | super => cases h
  | _ =>
    simp only [operands, List.mem_cons, List.not_mem_nil, or_false] at h
    rcases h with rfl | rfl | rfl <;> simp <;> omega

theorem Stmt.sizeOf_operand {s : Stmt Occurrence} {e : Expr Occurrence} (h : e ∈ s.operands) :
    sizeOf e < sizeOf s := by
  cases s with
  | «return» keyword value =>
    obtain rfl := Option.mem_toList.1 h
    simp only [«return».sizeOf_spec, Option.some.sizeOf_spec]
    omega
  | expression | print =>
    obtain rfl := List.mem_singleton.1 h
    simp
  | ifThen | ifElse | «while» =>
    obtain rfl := List.mem_singleton.1 h
    simp only [ifThen.sizeOf_spec, ifElse.sizeOf_spec, «while».sizeOf_spec]
    omega
  | var | block | function | «class» => cases h

theorem Stmt.sizeOf_branch {s b : Stmt Occurrence} (h : b ∈ s.branch?) : sizeOf b < sizeOf s := by
  cases s with
  | ifThen | ifElse | «while» =>
    obtain rfl := Option.mem_some.1 h
    simp only [ifThen.sizeOf_spec, ifElse.sizeOf_spec, «while».sizeOf_spec]
    omega
  | _ => cases h

theorem Members.exists_openers (m : Members) (superclass : Option (Ref Occurrence)) :
    ∃ o rest, m.openers superclass = o :: rest := by
  cases superclass <;> exact ⟨_, _, rfl⟩

namespace Site

/-- The second site stands directly below the first. Most expressions stand in the context of
what they are part of; the others, and all that is declared, come to a context of their own. -/
inductive Below : Site → Site → Prop where
  | operand {c : Context} {os : List Opener} {e a : Expr Occurrence} (h : a ∈ e.operands) :
      Below ⟨c, os, .expression e⟩ ⟨c, os, .expression a⟩
  | value {c : Context} {os : List Opener} {s : Stmt Occurrence} {e : Expr Occurrence}
      (h : e ∈ s.operands) : Below ⟨c, os, .statement s⟩ ⟨c, os, .expression e⟩
  | initializer (c : Context) (os : List Opener) (name : Token) (e : Expr Occurrence) :
      Below ⟨c, os, .statement (.var name (some e))⟩ ⟨c.declare name, os, .expression e⟩
  | block (c : Context) (os : List Opener) (ss : List (Stmt Occurrence)) :
      Below ⟨c, os, .statement (.block ss)⟩ ⟨c.enter .empty, .block ss :: os, .body ss⟩
  | branch {c : Context} {os : List Opener} {s b : Stmt Occurrence} (h : b ∈ s.branch?) :
      Below ⟨c, os, .statement s⟩ ⟨c, os, .statement b⟩
  | elseBranch (c : Context) (os : List Opener) (e : Expr Occurrence) (a b : Stmt Occurrence) :
      Below ⟨c, os, .statement (.ifElse e a b)⟩ ⟨(a.resolve c).1, os, .statement b⟩
  | function (c : Context) (os : List Opener) (f : FunDecl Occurrence) :
      Below ⟨c, os, .statement (.function f)⟩
        ⟨(c.declare f.name).define f.name, os, .function .function f⟩
  | superclass (c : Context) (os : List Opener) (name : Token) (r : Ref Occurrence)
      (statics methods : List (FunDecl Occurrence)) :
      Below ⟨c, os, .statement (.class name (some r) statics methods)⟩
        ⟨(c.declare name).define name, os, .expression (.variable r)⟩
  | method (c : Context) (os : List Opener) (name : Token) (r : Option (Ref Occurrence))
      (statics : List (FunDecl Occurrence)) {methods : List (FunDecl Occurrence)}
      {f : FunDecl Occurrence} (h : f ∈ methods) :
      Below ⟨c, os, .statement (.class name r statics methods)⟩
        ⟨((c.declare name).define name).enterClass r,
          Members.openers ⟨name, statics, methods⟩ r ++ os, .function f.methodKind f⟩
  | static (c : Context) (os : List Opener) (name : Token) (r : Option (Ref Occurrence))
      {statics : List (FunDecl Occurrence)} (methods : List (FunDecl Occurrence))
      {f : FunDecl Occurrence} (h : f ∈ statics) :
      Below ⟨c, os, .statement (.class name r statics methods)⟩
        ⟨((c.declare name).define name).enterClass r,
          Members.openers ⟨name, statics, methods⟩ r ++ os, .function .method f⟩
  | first (c : Context) (os : List Opener) (s : Stmt Occurrence) (ss : List (Stmt Occurrence)) :
      Below ⟨c, os, .body (s :: ss)⟩ ⟨c, os, .statement s⟩
  | rest (c : Context) (os : List Opener) (s : Stmt Occurrence) (ss : List (Stmt Occurrence)) :
      Below ⟨c, os, .body (s :: ss)⟩ ⟨(s.resolve c).1, os, .body ss⟩
  | body (c : Context) (os : List Opener) (kind : FunctionKind) (f : FunDecl Occurrence) :
      Below ⟨c, os, .function kind f⟩
        ⟨c.enterFunction kind f.params, .function f :: os, .body f.body⟩

variable {p q : Site}

theorem belowExpression_eq (p : Site) (e : Expr Occurrence) :
    p.belowExpression e = e.operands.map p.expression := by
  cases e <;> rfl

theorem mem_belowStatement_iff {c : Context} {os : List Opener} {s : Stmt Occurrence} :
    q ∈ (Site.mk c os (.statement s)).belowStatement s ↔ Below ⟨c, os, .statement s⟩ q := by
  constructor
  · intro hq
    cases s with
    | expression | print =>
      obtain rfl := List.mem_singleton.1 hq
      exact .value (.head _)
    | var name initializer =>
      simp only [belowStatement, List.mem_map, Option.mem_toList] at hq
      obtain ⟨e, rfl, rfl⟩ := hq
      exact .initializer c os name e
    | block ss =>
      obtain rfl := List.mem_singleton.1 hq
      exact .block c os ss
    | ifThen | «while» =>
      simp only [belowStatement, List.mem_cons, List.not_mem_nil, or_false] at hq
      rcases hq with rfl | rfl
      · exact .value (.head _)
      · exact .branch rfl
    | ifElse =>
      simp only [belowStatement, List.mem_cons, List.not_mem_nil, or_false] at hq
      rcases hq with rfl | rfl | rfl
      · exact .value (.head _)
      · exact .branch rfl
      · exact .elseBranch ..
    | function f =>
      obtain rfl := List.mem_singleton.1 hq
      exact .function c os f
    | «return» keyword value =>
      obtain ⟨e, he, rfl⟩ := List.mem_map.1 hq
      exact .value he
    | «class» name r statics methods =>
      simp only [belowStatement, belowClass, List.mem_append, List.mem_map, Option.mem_toList]
        at hq
      rcases hq with ⟨r, rfl, rfl⟩ | ⟨f, hf, rfl⟩ | ⟨f, hf, rfl⟩
      · exact .superclass ..
      · exact .method c os name r statics hf
      · exact .static c os name r methods hf
  · intro hq
    cases hq with
    | value h => cases s <;> simp_all [belowStatement, Stmt.operands, expression]
    | branch h => cases s <;> simp_all [belowStatement, Stmt.branch?, statement]
    | method _ _ _ _ _ h | static _ _ _ _ _ h => simp [belowStatement, belowClass, h]
    | _ => simp [belowStatement, belowClass]

/-- The sites that the walk goes on to are those directly below. -/
theorem mem_children_iff : q ∈ p.children ↔ p.Below q := by
  obtain ⟨c, os, node⟩ := p
  cases node with
  | expression e =>
    simp only [children, belowExpression_eq, List.mem_map]
    constructor
    · rintro ⟨a, ha, rfl⟩
      exact .operand ha
    · intro hq
      cases hq with
      | operand h => exact ⟨_, h, rfl⟩
  | statement s => exact mem_belowStatement_iff
  | body ss =>
    cases ss with
    | nil => exact ⟨nofun, nofun⟩
    | cons s rest =>
      simp only [children, List.mem_cons, List.not_mem_nil, or_false]
      constructor
      · rintro (rfl | rfl)
        · exact .first c os s rest
        · exact .rest c os s rest
      · intro hq
        cases hq with
        | first => exact .inl rfl
        | rest => exact .inr rfl
  | function kind f =>
    simp only [children, List.mem_singleton]
    constructor
    · rintro rfl
      exact .body c os kind f
    · intro hq
      cases hq
      rfl

/-! ## Induction along the walk -/

/-- How large a node is. -/
noncomputable def weight (p : Site) : Nat :=
  match p.node with
  | .expression e => 2 * sizeOf e
  | .statement s => 2 * sizeOf s
  | .body ss => 2 * sizeOf ss
  | .function _ f => 2 * sizeOf f + 1

/-- What stands below a site is smaller. -/
theorem weight_lt_of_mem_children (hq : q ∈ p.children) : q.weight < p.weight := by
  cases mem_children_iff.1 hq with
  | operand h =>
    have := Expr.sizeOf_operand h
    simp only [weight]
    omega
  | value h =>
    have := Stmt.sizeOf_operand h
    simp only [weight]
    omega
  | branch h =>
    have := Stmt.sizeOf_branch h
    simp only [weight]
    omega
  | method _ _ _ _ _ h | static _ _ _ _ _ h =>
    have := List.sizeOf_lt_of_mem h
    simp only [weight, Stmt.class.sizeOf_spec]
    omega
  -- a function is heavier than its body, and lighter than what declares it
  | body _ _ _ f =>
    cases f
    simp only [weight, FunDecl.body, FunDecl.mk.sizeOf_spec]
    omega
  | initializer | block | elseBranch | function | superclass | first | rest =>
    simp only [weight, Stmt.var.sizeOf_spec, Stmt.block.sizeOf_spec, Stmt.ifElse.sizeOf_spec,
      Stmt.function.sizeOf_spec, Stmt.class.sizeOf_spec, Expr.variable.sizeOf_spec,
      Option.some.sizeOf_spec, List.cons.sizeOf_spec]
    omega

/-- What holds of a site if it holds of the sites below it holds of all sites. -/
theorem induction {motive : Site → Prop} (h : ∀ p, (∀ q ∈ p.children, motive q) → motive p)
    (p : Site) : motive p := by
  induction hw : p.weight using Nat.strongRecOn generalizing p with
  | ind n ih =>
    subst hw
    exact h p fun q hq => ih q.weight (weight_lt_of_mem_children hq) q rfl

/-- A site is reached from another by going down. -/
def Reaches (p q : Site) : Prop := Relation.ReflTransGen (fun p q => q ∈ p.children) p q

theorem Reaches.weight_le (h : p.Reaches q) : q.weight ≤ p.weight := by
  induction h with
  | refl => exact Nat.le_refl _
  | tail _ hc ih => exact Nat.le_trans (Nat.le_of_lt (weight_lt_of_mem_children hc)) ih

end Site

theorem Visited.reaches {body : List (Stmt Occurrence)} {p : Site} (h : Visited body p) :
    Site.Reaches ⟨{}, [], .body body⟩ p := by
  induction h with
  | root => exact .refl
  | child _ hq ih => exact ih.tail hq

end Lox
