import Lox.Proofs.Scope.Settled

/-!
# Scopes of classes

The walk opens the scopes of a class only to go into one of its members, and then opens the
scope of the member directly inside of them. Where the resolver takes the enclosing class for
one with a superclass, the innermost scopes of a class are therefore those of `this` and `super`
of that class, and the scope of one of its members lies directly inside of them: this is what
the distance of `super` leads past.

## Main definitions

* `Members.list`: the members of one kind
* `Nested`: what opened scopes, as the walk opens them
* `Site.Enclosed`: a site whose scopes the walk opened

## Main results

* `Visited.enclosed`: every site that the walk comes to
* `Nested.exists_member`: the innermost class around a place
-/

namespace Lox

/-- The members of a class of one kind. -/
def Members.list (m : Members) (static : Bool) : List (FunDecl Occurrence) :=
  if static then m.statics else m.methods

namespace Opener

/-- Whether an opener is one of the two of a class. -/
def ofClass : Opener → Bool
  | .receiver _ | .superclass _ => true
  | .block _ | .function _ => false

/-- Whether an opener opens the scope of `super`. -/
def ofSuper : Opener → Bool
  | .superclass _ => true
  | .receiver _ | .block _ | .function _ => false

/-- The innermost class around a place. -/
def classKind : List Opener → ClassKind
  | [] => .none
  | .receiver _ :: .superclass _ :: _ => .derived
  | .receiver _ :: _ => .base
  | _ :: os => classKind os

end Opener

/-- What opened some scopes, innermost first: the scopes of a class are opened together with that
of a member. -/
inductive Nested : List Opener → Prop where
  | nil : Nested []
  | block {os : List Opener} (body : List (Stmt Occurrence)) (h : Nested os) :
      Nested (.block body :: os)
  | function {os : List Opener} (f : FunDecl Occurrence) (h : Nested os) :
      Nested (.function f :: os)
  | member {os : List Opener} {m : Members} (static : Bool) {f : FunDecl Occurrence}
      (hf : f ∈ m.list static) (superclass : Option (Ref Occurrence)) (h : Nested os) :
      Nested (.function f :: (m.openers superclass ++ os))

namespace Nested

variable {os : List Opener} {m : Members}

/-- The innermost scope is none of a class. -/
theorem ofClass_head (h : Nested os) : ∀ o ∈ os.head?, o.ofClass = false := by
  cases h with
  | nil => simp
  | block | function | member => simp [Opener.ofClass]

/-- Directly inside the innermost scopes of a class lies that of a member, and nothing that lies
inside of that one belongs to a class. -/
theorem exists_member (h : Nested os) (hderived : Opener.classKind os = .derived) :
    ∃ inner static f m outer, os = inner ++ .function f :: .receiver m :: .superclass m :: outer ∧
      f ∈ m.list static ∧ ∀ o ∈ inner, o.ofClass = false := by
  induction h with
  | nil => cases hderived
  | block body _ ih | function f _ ih =>
    obtain ⟨inner, static, f, m, outer, rfl, hf, hinner⟩ := ih hderived
    exact ⟨_ :: inner, static, f, m, outer, rfl, hf, List.forall_mem_cons.2 ⟨rfl, hinner⟩⟩
  | @member os m static f hf superclass h _ =>
    cases superclass with
    | some r => exact ⟨[], static, f, m, os, rfl, hf, by simp⟩
    | none =>
      -- a class without a superclass is the innermost one
      have hbase : Opener.classKind (.receiver m :: os) = .base := by
        have hhead := h.ofClass_head
        cases os with
        | nil => rfl
        | cons o os => cases o <;> simp_all [Opener.classKind, Opener.ofClass]
      exact absurd (hbase.symm.trans hderived) (by decide)

end Nested

/-! ## Contexts -/

/-- A context knows the innermost class and where there is `super`. -/
structure Context.Encloses (c : Context) (os : List Opener) : Prop where
  /-- The class is the innermost one. -/
  kind : c.enclosingClass = Opener.classKind os
  /-- The scopes that have `super` are those of superclasses. -/
  super : List.Forall₂ (fun scope o => scope.has Keyword.superWord.text = o.ofSuper) c.scopes os

namespace Context.Encloses

variable {c : Context} {os : List Opener}

theorem setName (h : c.Encloses os) {t : Token} (ht : t.IsName) (ended : Bool) :
    (c.setName t.lexeme ended).Encloses os := by
  refine ⟨by rw [enclosingClass_setName, h.kind], ?_⟩
  cases hc : c.scopes with
  | nil => rw [scopes_setName_nil hc]; exact h.super
  | cons scope outer =>
    obtain ⟨o, os, hscope, hrest, rfl⟩ := List.forall₂_cons_left_iff.1 (hc ▸ h.super)
    rw [scopes_setName_cons hc]
    refine .cons ?_ hrest
    rw [← hscope, Table.has_set, decide_eq_false (ht.ne_text _).symm, Bool.false_or]

theorem declared (h : c.Encloses os) {t : Option Token} (ht : ∀ t' ∈ t, t'.IsName) :
    (c.declared t).Encloses os := by
  cases t with
  | none => exact h
  | some t => exact (h.setName (ht t rfl) false).setName (ht t rfl) true

theorem block (h : c.Encloses os) (body : List (Stmt Occurrence)) :
    (c.enter .empty).Encloses (.block body :: os) :=
  ⟨h.kind, .cons rfl h.super⟩

theorem enterFunction (h : c.Encloses os) (kind : FunctionKind) {f : FunDecl Occurrence}
    (hf : ∀ p ∈ f.params, p.IsName) :
    (c.enterFunction kind f.params).Encloses (.function f :: os) := by
  have hfold : ∀ {c : Context} {ps : List Token} {os : List Opener}, c.Encloses os →
      (∀ p ∈ ps, p.IsName) → (ps.foldl (fun c p => (c.declare p).define p) c).Encloses os := by
    intro c ps os h hps
    induction ps generalizing c with
    | nil => exact h
    | cons p rest ih =>
      exact ih (h.declared (t := some p) (by simpa using hps p (by simp)))
        fun q hq => hps q (by simp [hq])
  exact hfold (c := { c.enter .empty with function := kind }) ⟨h.kind, .cons rfl h.super⟩ hf

theorem enterClass (h : c.Encloses os) (hos : ∀ o ∈ os.head?, o.ofClass = false) (m : Members)
    (superclass : Option (Ref Occurrence)) :
    (c.enterClass superclass).Encloses (m.openers superclass ++ os) := by
  cases superclass with
  | some r => exact ⟨rfl, .cons rfl (.cons rfl h.super)⟩
  | none =>
    refine ⟨?_, .cons rfl h.super⟩
    cases os with
    | nil => rfl
    | cons o os =>
      cases o <;>
        simp_all [Context.enterClass, Members.openers, Opener.classKind, Opener.ofClass]

/-- The distance of `super` leads past the scopes inside of that of the superclass. -/
theorem distance?_super {inner outer : List Opener} {f : FunDecl Occurrence} {m : Members}
    (h : c.Encloses (inner ++ .function f :: .receiver m :: .superclass m :: outer))
    (hinner : ∀ o ∈ inner, o.ofClass = false) :
    c.distance? Keyword.superWord.text = some (inner.length + 2) := by
  have hsame : ∀ {scopes : List Scope} {os : List Opener},
      List.Forall₂ (fun scope o => scope.has Keyword.superWord.text = o.ofSuper) scopes os →
      scopes.findIdx? (·.has Keyword.superWord.text) = os.findIdx? Opener.ofSuper := by
    intro scopes os h
    induction h with
    | nil => rfl
    | cons hscope _ ih => rw [List.findIdx?_cons, List.findIdx?_cons, hscope, ih]
  have hnone : inner.findIdx? Opener.ofSuper = none := by
    rw [List.findIdx?_eq_none_iff]
    intro o ho
    have := hinner o ho
    cases o <;> simp_all [Opener.ofClass, Opener.ofSuper]
  rw [distance?, hsame h.super, List.findIdx?_append, hnone]
  simp [List.findIdx?_cons, Opener.ofSuper, Nat.add_comm]

end Context.Encloses

/-! ## Sites -/

/-- A site whose scopes the walk opened; those around a function wait for its own. -/
structure Site.Enclosed (p : Site) : Prop where
  /-- The scopes of classes lie around those of members. -/
  nested : match p.node with
    | .function _ f => Nested (.function f :: p.openers)
    | _ => Nested p.openers
  /-- The context knows the class. -/
  context : p.context.Encloses p.openers

namespace Site.Enclosed

variable {p q : Site}

/-- The sites below one whose scopes the walk opened. -/
theorem child (h : p.Enclosed) (hp : p.Settled) (hq : q ∈ p.children) : q.Enclosed := by
  obtain ⟨hnested, hc⟩ := h
  have hgenuine := hp.genuine
  cases Site.mem_children_iff.1 hq with
  | operand | value | branch | first => exact ⟨hnested, hc⟩
  | initializer c os name e => exact ⟨hnested, hc.setName hgenuine.1 false⟩
  | block c os ss => exact ⟨.block ss hnested, hc.block ss⟩
  | elseBranch c os e a b =>
    obtain ⟨-, ha, -, hnone, -⟩ := hgenuine
    rw [Stmt.resolve_fst c a ha, hnone]
    exact ⟨hnested, hc⟩
  | function c os f =>
    exact ⟨.function f hnested, hc.declared (Stmt.isName_declared (s := .function f) hgenuine)⟩
  | superclass c os name =>
    exact ⟨hnested, hc.declared (t := some name) (by simpa using hgenuine.1)⟩
  | method c os name r statics hf =>
    have hdeclared := hc.declared (t := some name) (by simpa using hgenuine.1)
    exact ⟨.member false hf r hnested, hdeclared.enterClass hnested.ofClass_head _ r⟩
  | static c os name r methods hf =>
    have hdeclared := hc.declared (t := some name) (by simpa using hgenuine.1)
    exact ⟨.member true hf r hnested, hdeclared.enterClass hnested.ofClass_head _ r⟩
  | rest c os s ss =>
    rw [Stmt.resolve_fst c s hgenuine.1]
    exact ⟨hnested, hc.declared (Stmt.isName_declared hgenuine.1)⟩
  | body c os kind f =>
    refine ⟨hnested, hc.enterFunction kind ?_⟩
    cases f
    exact hgenuine.2.1

end Site.Enclosed

/-- Every site that the walk over a genuine program comes to. -/
theorem Visited.enclosed {body : List (Stmt Occurrence)} {p : Site} (h : Visited body p)
    (hbody : Stmt.GenuineAll body) : p.Enclosed := by
  induction h with
  | root => exact ⟨.nil, rfl, .nil⟩
  | child hp hq ih => exact ih.child (hp.settled hbody) hq

end Lox
