import Lox.Proofs.Scope.Walk
import Lox.Proofs.Syntax.Tokens

/-!
# The tokens of a walk

The parts of a program are those of the nodes that the walk comes to. Where no token occurs
twice, a token of a node tells at which site the node stands, and whether it is the name of a
variable.

## Main definitions

* `Site.parts`, `Site.ownParts`: the parts of a site, and those of its node itself

## Main results

* `Site.lists_parts`: a site lists its own parts and those below it
* `Visited.eq_of_token`: a token is one of the node of one site only
-/

namespace Lox

open Lox.Part (tokens)

namespace Site

/-- The parts of a site. -/
def parts (p : Site) : List (Part Occurrence) :=
  match p.node with
  | .expression e => e.parts
  | .statement s => s.parts
  | .body ss => Stmt.partsAll ss
  | .function _ f => f.parts

/-- The parts of an expression that none of its operands has. -/
def ownPartsOf : Expr Occurrence → List (Part Occurrence)
  | .variable r | .assign r _ => r.use
  | .this r => r.word
  | .super r method => r.word ++ [.token method]
  | .binary _ _ t _ | .logical _ _ t _ | .unary _ t _ | .ternary t _ _ _ | .call _ t _
  | .field _ t | .setField _ t _ => [.token t]
  | .literal _ | .group _ => []

/-- The parts of a node that the sites below it do not have. -/
def ownParts (p : Site) : List (Part Occurrence) :=
  match p.node with
  | .expression e => ownPartsOf e
  | .statement (.var name _) => [.name name]
  | .statement (.return t _) | .statement (.class t _ _ _) => [.token t]
  | .statement _ | .body _ => []
  | .function _ f => .token f.name :: f.params.map .name

/-- The parts of a site are those of its node and those below it. -/
theorem lists_parts : Lists parts ownParts := by
  rintro ⟨c, openers, node⟩
  cases node with
  | expression e =>
    cases e <;>
      simp [parts, ownParts, ownPartsOf, children, belowExpression, expression, Expr.parts,
        Expr.partsAll_eq, List.flatMap_map]
  | statement s =>
    cases s with
    | var name initializer =>
      cases initializer <;>
        simp [parts, ownParts, children, belowStatement, Stmt.parts, Expr.parts?]
    | «return» keyword value =>
      cases value <;>
        simp [parts, ownParts, children, belowStatement, expression, Stmt.parts, Expr.parts?]
    | «class» name superclass statics methods =>
      -- the walk goes into the methods before it goes into the static ones
      have hmembers : (FunDecl.partsAll statics ++ FunDecl.partsAll methods).Perm
          (methods.flatMap FunDecl.parts ++ statics.flatMap FunDecl.parts) := by
        rw [FunDecl.partsAll_eq, FunDecl.partsAll_eq]
        exact List.perm_append_comm
      have hall := (hmembers.append_left (superclass.toList.flatMap Ref.use)).cons (.token name)
      cases superclass <;>
        simpa [parts, ownParts, children, belowStatement, belowClass, Stmt.parts, Expr.parts,
          List.flatMap_map] using hall
    | _ =>
      simp [parts, ownParts, children, belowStatement, expression, statement, Stmt.parts]
  | body ss =>
    cases ss <;> simp [parts, ownParts, children, statement, Stmt.partsAll]
  | function kind f =>
    cases f
    simp [parts, ownParts, children, FunDecl.parts, FunDecl.body, FunDecl.name, FunDecl.params]

/-- The tokens of a site. -/
theorem lists_tokens : Lists (tokens ·.parts) (tokens ·.ownParts) := by
  intro p
  have h := (lists_parts p).filterMap Part.token?
  rwa [List.filterMap_append, List.filterMap_flatMap] at h

end Site

namespace Visited

variable {body : List (Stmt Occurrence)} {p q : Site} {x y : Part Occurrence} {t : Token}

/-- The parts of a node are parts of the program. -/
theorem mem_parts (h : Visited body p) (hx : x ∈ p.ownParts) : x ∈ Stmt.partsAll body :=
  h.mem_whole Site.lists_parts (Site.lists_parts.mem_iff.2 (.inl hx))

/-- A token is one of the node of one site only. -/
theorem eq_of_token (hbody : (tokens (Stmt.partsAll body)).Nodup) (hp : Visited body p)
    (hq : Visited body q) (hx : x ∈ p.ownParts) (hy : y ∈ q.ownParts) (htx : x.token? = some t)
    (hty : y.token? = some t) : p = q := by
  have hroot : (tokens (Site.mk {} [] (.body body)).parts).Nodup := hbody
  exact Site.lists_tokens.eq_of_own hroot hp.reaches hq.reaches (Part.mem_tokens hx htx)
    (Part.mem_tokens hy hty)

/-- A token is a name of a variable or not. -/
theorem name_ne_token (hbody : (tokens (Stmt.partsAll body)).Nodup) (hp : Visited body p)
    (hq : Visited body q) {u : Token} (ht : .name t ∈ p.ownParts) (hu : .token u ∈ q.ownParts) :
    t ≠ u := by
  rintro rfl
  have hsame := Part.eq_of_token hbody (hp.mem_parts ht) (hq.mem_parts hu) rfl rfl
  cases hsame

end Visited

end Lox
