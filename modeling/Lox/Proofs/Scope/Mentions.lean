import Lox.Proofs.Scope.Declarations

/-!
# Where local variables are mentioned

The walk over a program lists its sites, so it lists the local variables: the parameters, and the
variables that are declared in an open scope. A variable is mentioned where it is declared, and
where a node reads or assigns its name at a distance that leads to the scope of the declaration.
A token is read at one site only, so nothing else mentions the variable that it stands for.

## Main definitions

* `Site.walk`: a site and those below it
* `localVariables`: the tokens that declare the local variables of a program
* `mentions`: the tokens that mention a local variable

## Main results

* `visited_iff`: the sites of a program are listed
* `mem_mentions_of_use`, `mem_mentions_of_declared`: which of the names of a program are mentions
-/

namespace Lox

open Lox.Part (tokens)

namespace Site

variable {p q : Site}

/-- A site and those below it, in the order of the walk. -/
def walk (p : Site) : List Site := p :: p.children.attach.flatMap fun q => q.1.walk
termination_by p.weight
decreasing_by exact weight_lt_of_mem_children q.2

theorem mem_walk_iff : q ∈ p.walk ↔ q = p ∨ ∃ r ∈ p.children, q ∈ r.walk := by
  rw [walk]
  simp

/-- The walk comes to what is reached by going down. -/
theorem mem_walk : q ∈ p.walk ↔ p.Reaches q := by
  induction p using induction with
  | h p ih =>
    rw [mem_walk_iff]
    constructor
    · rintro (rfl | ⟨r, hr, hq⟩)
      · exact .refl
      · exact .head hr ((ih r hr).1 hq)
    · intro hpq
      rcases Relation.ReflTransGen.cases_head hpq with rfl | ⟨r, hr, hq⟩
      · exact .inl rfl
      · exact .inr ⟨r, hr, (ih r hr).2 hq⟩

/-- The local variables that a node declares: parameters, and variables in an open scope. -/
def locals (p : Site) : List Token :=
  match p.node with
  | .statement (.var name _) => if p.openers.isEmpty then [] else [name]
  | .function _ f => f.params
  | _ => []

/-- What opened the innermost scope with a name. -/
def owner? (p : Site) (name : String) : Option Opener :=
  (p.context.distance? name).bind (p.openers[·]?)

end Site

namespace Node

/-- The variable that a node reads or assigns. -/
def use? : Node → Option Token
  | .expression (.variable r) | .expression (.assign r _) => some r.token
  | _ => none

/-- Only reads and assignments use variables. -/
theorem eq_of_use? {node : Node} {u : Token} (h : node.use? = some u) :
    ∃ r : Ref Occurrence, r.token = u ∧
      (node = .expression (.variable r) ∨ ∃ value, node = .expression (.assign r value)) := by
  unfold use? at h
  split at h
  · exact ⟨_, Option.some.inj h, .inl rfl⟩
  · exact ⟨_, Option.some.inj h, .inr ⟨_, rfl⟩⟩
  · cases h

end Node

/-- A read or an assignment of the variable that a token declares: the distance of the name leads
to the scope of the declaration. -/
def Site.mention? (p : Site) (t : Token) : Option Token :=
  p.node.use?.filter fun u =>
    u.lexeme = t.lexeme ∧ (p.owner? u.lexeme).any (t ∈ ·.declarations)

/-- The tokens that declare the local variables of a program. -/
def localVariables (body : List (Stmt Occurrence)) : List Token :=
  (Site.mk {} [] (.body body)).walk.flatMap Site.locals

/-- The tokens that mention a local variable: its declaration, and the reads and the assignments
that are bound to it. -/
def mentions (body : List (Stmt Occurrence)) (t : Token) : List Token :=
  t :: (Site.mk {} [] (.body body)).walk.filterMap (·.mention? t)

/-! ## The names of nodes -/

namespace Site

variable {p : Site} {u : Token}

/-- What a node reads or assigns is one of the names of variables in it. -/
theorem name_mem_of_use (h : p.node.use? = some u) : .name u ∈ p.ownParts := by
  obtain ⟨c, os, node⟩ := p
  obtain ⟨r, rfl, rfl | ⟨value, rfl⟩⟩ := Node.eq_of_use? h
  · exact .head _
  · exact .head _

/-- So is a local variable that it declares. -/
theorem name_mem_of_locals (h : u ∈ p.locals) : .name u ∈ p.ownParts := by
  obtain ⟨c, os, node⟩ := p
  simp only [locals] at h
  split at h
  · split at h
    · cases h
    · rw [List.mem_singleton.1 h]
      exact .head _
  · exact .tail _ (List.mem_map_of_mem h)
  · cases h

/-- A node that reads or assigns a variable declares none. -/
theorem locals_of_use (h : p.node.use? = some u) : p.locals = [] := by
  obtain ⟨c, os, node⟩ := p
  obtain ⟨r, -, rfl | ⟨value, rfl⟩⟩ := Node.eq_of_use? h <;> rfl

end Site

/-! ## The sites of a program -/

section Program

variable {body : List (Stmt Occurrence)} {p : Site} {t u : Token}

/-- The sites of a program are those that are reached from its root. -/
theorem visited_iff_reaches : Visited body p ↔ (Site.mk {} [] (.body body)).Reaches p := by
  constructor
  · exact Visited.reaches
  · intro h
    induction h with
    | refl => exact .root
    | tail _ hq ih => exact ih.child hq

/-- The walk lists the sites of a program. -/
theorem visited_iff : Visited body p ↔ p ∈ (Site.mk {} [] (.body body)).walk := by
  rw [visited_iff_reaches, Site.mem_walk]

theorem mem_localVariables : t ∈ localVariables body ↔ ∃ p, Visited body p ∧ t ∈ p.locals := by
  simp only [localVariables, List.mem_flatMap, visited_iff]

theorem mem_mentions :
    u ∈ mentions body t ↔ u = t ∨ ∃ p, Visited body p ∧ p.mention? t = some u := by
  simp only [mentions, List.mem_cons, List.mem_filterMap, visited_iff]

theorem use_of_mention (h : p.mention? t = some u) : p.node.use? = some u :=
  (Option.filter_eq_some_iff.1 h).1

/-- A mention of a local variable is the name of a variable. -/
theorem name_mem_of_mentions (ht : t ∈ localVariables body) (hu : u ∈ mentions body t) :
    .name u ∈ Stmt.partsAll body := by
  rcases mem_mentions.1 hu with rfl | ⟨p, hp, hmention⟩
  · obtain ⟨p, hp, hlocal⟩ := mem_localVariables.1 ht
    exact hp.mem_parts (Site.name_mem_of_locals hlocal)
  · exact hp.mem_parts (Site.name_mem_of_use (use_of_mention hmention))

variable (hbody : (tokens (Stmt.partsAll body)).Nodup)

include hbody

/-- A variable that is read or assigned is mentioned if the node itself is bound to it. -/
theorem mem_mentions_of_use (ht : t ∈ localVariables body) (hp : Visited body p)
    (hu : p.node.use? = some u) : u ∈ mentions body t ↔ p.mention? t = some u := by
  have hname := Site.name_mem_of_use hu
  rw [mem_mentions]
  constructor
  · rintro (rfl | ⟨q, hq, hmention⟩)
    · -- the declaration would be read
      obtain ⟨q, hq, hlocal⟩ := mem_localVariables.1 ht
      have hsame := hp.eq_of_token hbody hq hname (Site.name_mem_of_locals hlocal) rfl rfl
      rw [← hsame, Site.locals_of_use hu] at hlocal
      cases hlocal
    · have hsame := hp.eq_of_token hbody hq hname
        (Site.name_mem_of_use (use_of_mention hmention)) rfl rfl
      rwa [hsame]
  · exact fun hmention => .inr ⟨p, hp, hmention⟩

/-- A variable that is declared is mentioned there if the declaration is its own. -/
theorem mem_mentions_of_declared (hp : Visited body p) (hu : .name u ∈ p.ownParts)
    (hnone : p.node.use? = none) : u ∈ mentions body t ↔ u = t := by
  rw [mem_mentions]
  refine or_iff_left ?_
  rintro ⟨q, hq, hmention⟩
  have huse := use_of_mention hmention
  have hsame := hp.eq_of_token hbody hq hu (Site.name_mem_of_use huse) rfl rfl
  rw [← hsame, hnone] at huse
  cases huse

end Program

end Lox
