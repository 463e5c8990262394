import Lox.Proofs.Scope.Survey

/-!
# Where a program may return

The resolver keeps track of the function that encloses a place. Outside of functions nothing
returns, and in an initializer nothing returns a value; a program in which nothing is reported keeps
to that everywhere. What encloses the parts of a block, a branch or a loop encloses the whole, and
what encloses the body of a function is the function.

## Main definitions

* `Returns`: the returns that a place allows
* `Node.StandsIn`: a node stands at a place that allows certain returns

## Main results

* `Node.StandsIn.return_allowed`: a `return` stands where it is allowed
* `Node.StandsIn.block` and its like: the parts of a statement
* `Node.standsIn_body`: the body of a function
-/

namespace Lox

/-- The returns that a place allows. -/
inductive Returns where
  /-- None. -/
  | never
  /-- Those without a value. -/
  | bare
  /-- All. -/
  | any
  deriving DecidableEq

/-- The returns that are allowed in a function. -/
def FunctionKind.returns : FunctionKind → Returns
  | .none => .never
  | .initializer => .bare
  | .function | .method => .any

namespace Context

variable {c : Context} {name : Token}

theorem function_declared (t : Option Token) : (c.declared t).function = c.function := by
  cases t with
  | none => rfl
  | some t => simp [declared, declare, define]

theorem function_enterFunction (kind : FunctionKind) (params : List Token) :
    (c.enterFunction kind params).function = kind := by
  have hfold : ∀ c : Context,
      (params.foldl (fun c p => (c.declare p).define p) c).function = c.function := by
    induction params with
    | nil => exact fun c => rfl
    | cons p rest ih =>
      intro c
      rw [List.foldl_cons, ih]
      exact function_declared (some p)
  exact hfold _

end Context

namespace Node

variable {K : Site → Prop} {l : Locals} {r : Returns}

/-- A node stands at a place that allows certain returns. -/
def StandsIn (n : Node) (K : Site → Prop) (r : Returns) : Prop :=
  ∃ c os, K ⟨c, os, n⟩ ∧ c.function.returns = r

namespace StandsIn

variable {s body other : Stmt Occurrence} {rest ss : List (Stmt Occurrence)}
  {e : Expr Occurrence} {t : Token} {value : Option (Expr Occurrence)}

section

variable (hs : Surveyed l K)

include hs

/-- A `return` stands where it is allowed. -/
theorem return_allowed (h : (Node.statement (.return t value)).StandsIn K r) :
    r ≠ .never ∧ (r = .bare → value = none) := by
  obtain ⟨c, os, hsite, rfl⟩ := h
  have hclean := hs.clean hsite
  simp only [Site.own, Site.ownStatement, List.mem_append] at hclean
  constructor
  -- in either case the resolver would have reported the statement
  · intro hnever
    have hnone : c.function = .none := by
      cases hc : c.function <;> simp [FunctionKind.returns, hc] at hnever ⊢
    have hreport := hclean (.ofToken t .returnOutsideFunction) (.inl (by simp [hnone]))
    simp [Finding.ofToken, Finding.report?] at hreport
  · intro hbare
    have hinit : c.function = .initializer := by
      cases hc : c.function <;> simp [FunctionKind.returns, hc] at hbare ⊢
    cases value with
    | none => rfl
    | some e =>
      have hreport := hclean (.ofToken t .returnFromInitializer) (.inr (by simp [hinit]))
      simp [Finding.ofToken, Finding.report?] at hreport

theorem head (h : (Node.body (s :: rest)).StandsIn K r) : (Node.statement s).StandsIn K r := by
  obtain ⟨c, os, hsite, hr⟩ := h
  exact ⟨c, os, hs.below hsite (.first c os s rest), hr⟩

theorem tail (h : (Node.body (s :: rest)).StandsIn K r) : (Node.body rest).StandsIn K r := by
  obtain ⟨c, os, hsite, hr⟩ := h
  have hgenuine : s.Genuine := (hs.settled hsite).genuine.1
  refine ⟨_, os, hs.below hsite (.rest c os s rest), ?_⟩
  rw [Stmt.resolve_fst c s hgenuine, Context.function_declared]
  exact hr

theorem block (h : (Node.statement (.block ss)).StandsIn K r) : (Node.body ss).StandsIn K r := by
  obtain ⟨c, os, hsite, hr⟩ := h
  exact ⟨_, _, hs.below hsite (.block c os ss), hr⟩

/-- The statement after a condition. -/
theorem branch (h : (Node.statement s).StandsIn K r) (hbody : body ∈ s.branch?) :
    (Node.statement body).StandsIn K r := by
  obtain ⟨c, os, hsite, hr⟩ := h
  exact ⟨c, os, hs.below hsite (.branch hbody), hr⟩

theorem elseBranch (h : (Node.statement (.ifElse e body other)).StandsIn K r) :
    (Node.statement other).StandsIn K r := by
  obtain ⟨c, os, hsite, hr⟩ := h
  have hgenuine : body.Genuine := (hs.settled hsite).genuine.2.1
  refine ⟨_, os, hs.below hsite (.elseBranch c os e body other), ?_⟩
  rw [Stmt.resolve_fst c body hgenuine, Context.function_declared]
  exact hr

end

end StandsIn

/-- What encloses the body of a function is the function. -/
theorem standsIn_body (hs : Surveyed l K) {kind : FunctionKind} {f : FunDecl Occurrence}
    {c : Context} {os : List Opener} (h : K ⟨c, os, .function kind f⟩) :
    (Node.body f.body).StandsIn K kind.returns := by
  refine ⟨_, _, hs.below h (.body c os kind f), ?_⟩
  rw [Context.function_enterFunction]

end Node

end Lox
