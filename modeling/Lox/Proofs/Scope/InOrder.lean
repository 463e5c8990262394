import Lox.Proofs.Scan.Places
import Lox.Proofs.Scope.Declarations

/-!
# Trees in the order of the text

The tokens of a tree have places in the text that it was read from. Where the tree is in order, a
declaration starts before what it is the head of, the parameters of a function before its body,
and of two statements in one list the first declares its name before the second starts and ends
before the second declares one. Nothing is said of the tokens within an expression, nor of
statements that declare nothing: the clauses of a loop are not in the order of the text.

## Main definitions

* `Precede`: tokens that start before others
* `Stmt.InOrder`, `Stmt.InOrderAll`: trees in the order of the text

## Main results

* `Stmt.inOrderAll_numberAll`: numbering keeps the order
-/

namespace Lox

open Lox.Part (tokens)

/-- Each of some tokens starts before each of others. -/
def Precede (ts us : List Token) : Prop := ∀ t ∈ ts, ∀ u ∈ us, t.start.Before u.start

namespace Precede

variable {ts us vs : List Token}

theorem mono {ts' us' : List Token} (h : Precede ts us) (ht : ts' ⊆ ts) (hu : us' ⊆ us) :
    Precede ts' us' :=
  fun t htt u huu => h t (ht htt) u (hu huu)

theorem append_left_iff : Precede (ts ++ us) vs ↔ Precede ts vs ∧ Precede us vs := by
  simp only [Precede, List.mem_append, or_imp, forall_and]

end Precede

namespace Stmt

variable {μ : Type}

mutual

/-- A statement whose declarations start before what they are the heads of. -/
def InOrder : Stmt μ → Prop
  | .expression _ | .print _ | .return _ _ => True
  | .var name initializer => Precede [name] (tokens (Expr.parts? initializer))
  | .block body => InOrderAll body
  | .ifThen _ branch | .while _ branch => branch.InOrder
  | .ifElse _ thenBranch elseBranch => thenBranch.InOrder ∧ elseBranch.InOrder
  | .function decl => InOrderFunction decl
  | .class name superclass statics methods =>
    Precede [name] (tokens (superclass.toList.flatMap Ref.use)) ∧
      Precede [name] (tokens (FunDecl.partsAll statics)) ∧
      Precede [name] (tokens (FunDecl.partsAll methods)) ∧
      InOrderFunctions statics ∧ InOrderFunctions methods

/-- A function whose name starts before its parameters, and these before its body. -/
def InOrderFunction : FunDecl μ → Prop
  | .mk name params body =>
    Precede [name] params ∧ Precede (name :: params) (tokens (partsAll body)) ∧ InOrderAll body

/-- Statements of which each declares its name before the later ones start, and ends before these
declare theirs. -/
def InOrderAll : List (Stmt μ) → Prop
  | [] => True
  | s :: rest =>
    s.InOrder ∧ Precede s.declared?.toList (tokens (partsAll rest)) ∧
      Precede (tokens s.parts) (declaredTokens rest) ∧ InOrderAll rest

/-- Functions in the order of the text, each on its own. -/
def InOrderFunctions : List (FunDecl μ) → Prop
  | [] => True
  | f :: rest => InOrderFunction f ∧ InOrderFunctions rest

end

theorem inOrderFunctions_iff {fs : List (FunDecl μ)} :
    InOrderFunctions fs ↔ ∀ f ∈ fs, InOrderFunction f := by
  induction fs with
  | nil => simp [InOrderFunctions]
  | cons f rest ih => simp [InOrderFunctions, ih]

/-- A loop is in order where its first clause starts before the others. -/
theorem inOrder_forLoop {first : Option (Stmt μ)} {condition increment : Option (Expr μ)}
    {body : Stmt μ} (hfirst : ∀ s ∈ first, s.InOrder) (hbody : body.InOrder)
    (hdecl : body.declared? = none)
    (hbefore : ∀ s ∈ first, Precede s.declared?.toList
      (tokens (forLoop none condition increment body).parts)) :
    (forLoop first condition increment body).InOrder := by
  have hloop : (forLoop none condition increment body).InOrder := by
    cases increment with
    | none => exact hbody
    | some e =>
      -- neither the body nor the increment declares anything
      have hnone : Precede body.declared?.toList (tokens (partsAll [.expression e])) := by
        rw [hdecl]
        simp [Precede]
      exact ⟨hbody, hnone, by simp [Precede, declaredTokens, declared?], trivial,
        by simp [Precede, declared?], by simp [Precede, declaredTokens], trivial⟩
  cases first with
  | none => exact hloop
  | some s =>
    -- the loop itself declares nothing in the scope of its first clause
    have hs : Precede s.declared?.toList
        (tokens (partsAll [forLoop none condition increment body])) := by
      simpa [partsAll] using hbefore s rfl
    exact ⟨hfirst s rfl, hs, by simp [Precede, declaredTokens, declared?], hloop,
      by simp [Precede, declared?], by simp [Precede, declaredTokens], trivial⟩

/-! ## Numbered trees -/

theorem tokens_number (n : Nat) (s : Stmt μ) : tokens (s.number n).1.parts = tokens s.parts := by
  rw [← Part.tokens_map_erase, erase_number, Part.tokens_map_erase]

theorem tokens_numberAll (n : Nat) (ss : List (Stmt μ)) :
    tokens (partsAll (numberAll n ss).1) = tokens (partsAll ss) := by
  rw [← Part.tokens_map_erase, erase_numberAll, Part.tokens_map_erase]

theorem tokens_numberFunctions (n : Nat) (fs : List (FunDecl μ)) :
    tokens (FunDecl.partsAll (numberFunctions n fs).1) = tokens (FunDecl.partsAll fs) := by
  rw [← Part.tokens_map_erase, erase_numberFunctions, Part.tokens_map_erase]

theorem declaredTokens_numberAll (n : Nat) (ss : List (Stmt μ)) :
    declaredTokens (numberAll n ss).1 = declaredTokens ss := by
  induction ss generalizing n with
  | nil => rfl
  | cons s rest ih =>
    simp only [numberAll, declaredTokens, List.filterMap_cons, declared?_number] at ih ⊢
    rw [ih]

mutual

theorem inOrder_number (n : Nat) : (s : Stmt μ) → s.InOrder → (s.number n).1.InOrder
  | .expression _, _ | .print _, _ | .return _ _, _ => trivial
  | .var name initializer, h => by
    have htokens : tokens (Expr.parts? (Expr.number? n initializer).1) =
        tokens (Expr.parts? initializer) := by
      rw [← Part.tokens_map_erase, Expr.erase_number?, Part.tokens_map_erase]
    show Precede [name] (tokens (Expr.parts? (Expr.number? n initializer).1))
    rw [htokens]
    exact h
  | .block body, h => inOrderAll_numberAll n body h
  | .ifThen _ branch, h | .while _ branch, h => inOrder_number _ branch h
  | .ifElse _ thenBranch elseBranch, h =>
    ⟨inOrder_number _ thenBranch h.1, inOrder_number _ elseBranch h.2⟩
  | .function decl, h => inOrder_numberFunction n decl h
  | .class name superclass statics methods, h => by
    have hsuper : tokens ((Ref.number? n superclass).1.toList.flatMap Ref.use) =
        tokens (superclass.toList.flatMap Ref.use) := by
      rw [← Part.tokens_map_erase, Ref.erase_number?, Part.tokens_map_erase]
    obtain ⟨hname, hname', hname'', hstatics, hmethods⟩ := h
    refine ⟨hsuper ▸ hname, ?_, ?_, inOrder_numberFunctions _ statics hstatics,
      inOrder_numberFunctions _ methods hmethods⟩
    · rwa [tokens_numberFunctions]
    · rwa [tokens_numberFunctions]

theorem inOrder_numberFunction (n : Nat) :
    (f : FunDecl μ) → InOrderFunction f → InOrderFunction (numberFunction n f).1
  | .mk name params body, h => by
    refine ⟨h.1, ?_, inOrderAll_numberAll n body h.2.2⟩
    rw [tokens_numberAll]
    exact h.2.1

/-- Numbering keeps the order of the text. -/
theorem inOrderAll_numberAll (n : Nat) :
    (ss : List (Stmt μ)) → InOrderAll ss → InOrderAll (numberAll n ss).1
  | [], _ => trivial
  | s :: rest, h => by
    obtain ⟨hs, hbefore, hafter, hrest⟩ := h
    refine ⟨inOrder_number n s hs, ?_, ?_, inOrderAll_numberAll _ rest hrest⟩
    · rwa [declared?_number, tokens_numberAll]
    · rwa [tokens_number, declaredTokens_numberAll]

theorem inOrder_numberFunctions (n : Nat) :
    (fs : List (FunDecl μ)) → InOrderFunctions fs → InOrderFunctions (numberFunctions n fs).1
  | [], _ => trivial
  | f :: rest, h => ⟨inOrder_numberFunction n f h.1, inOrder_numberFunctions _ rest h.2⟩

end

end Stmt

end Lox
