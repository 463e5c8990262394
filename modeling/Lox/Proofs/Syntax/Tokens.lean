import Lox.Proofs.Syntax.Twin

/-!
# The tokens of a tree

Trees keep the tokens that they were read from, with the places of these. Numbering a tree
changes the marks only, so what is known of the tokens of a text is known of those of the
numbered tree. Where no token occurs twice, a token tells of which part of the tree it is.

## Main definitions

* `Part.tokens`: the tokens among the parts of a tree
* `Part.erase`: a part without its mark

## Main results

* `Stmt.erase_numberAll`: a numbered tree has the same parts but for the marks
* `Part.eq_of_token`: a token belongs to one part only
-/

namespace Lox

namespace Part

variable {μ : Type}

/-- The tokens among some parts, in order. -/
def tokens (xs : List (Part μ)) : List Token := xs.filterMap token?

@[simp] theorem tokens_nil : tokens ([] : List (Part μ)) = [] := rfl

@[simp] theorem tokens_token (t : Token) (xs : List (Part μ)) :
    tokens (.token t :: xs) = t :: tokens xs := rfl

@[simp] theorem tokens_name (t : Token) (xs : List (Part μ)) :
    tokens (.name t :: xs) = t :: tokens xs := rfl

@[simp] theorem tokens_mark (i : μ) (xs : List (Part μ)) : tokens (.mark i :: xs) = tokens xs := rfl

@[simp] theorem tokens_append (xs ys : List (Part μ)) :
    tokens (xs ++ ys) = tokens xs ++ tokens ys :=
  List.filterMap_append

@[simp] theorem tokens_map_name (ts : List Token) :
    tokens (ts.map (.name : Token → Part μ)) = ts := by
  induction ts with
  | nil => rfl
  | cons t ts ih => rw [List.map_cons, tokens_name, ih]

@[simp] theorem tokens_use (r : Ref μ) : tokens r.use = [r.token] := rfl

@[simp] theorem tokens_word (r : Ref μ) : tokens r.word = [r.token] := rfl

theorem mem_tokens {x : Part μ} {xs : List (Part μ)} {t : Token} (hx : x ∈ xs)
    (ht : x.token? = some t) : t ∈ tokens xs :=
  List.mem_filterMap.2 ⟨x, hx, ht⟩

/-- Where no token occurs twice, a token belongs to one part only. -/
theorem eq_of_token {xs : List (Part μ)} (h : (tokens xs).Nodup) {x y : Part μ} (hx : x ∈ xs)
    (hy : y ∈ xs) {t : Token} (htx : x.token? = some t) (hty : y.token? = some t) : x = y := by
  induction xs with
  | nil => cases hx
  | cons z xs ih =>
    -- a token of the first part is no token of the others
    have hfirst : ∀ w ∈ xs, z.token? = some t → w.token? ≠ some t := by
      intro w hw hz hwt
      have hnodup : (t :: tokens xs).Nodup := by
        have hcons : tokens (z :: xs) = t :: tokens xs := List.filterMap_cons_some hz
        rwa [hcons] at h
      exact (List.nodup_cons.1 hnodup).1 (mem_tokens hw hwt)
    have hrest : (tokens xs).Nodup := by
      have hsplit : tokens (z :: xs) = tokens [z] ++ tokens xs := tokens_append [z] xs
      rw [hsplit] at h
      exact (List.nodup_append.1 h).2.1
    rcases List.mem_cons.1 hx with hxz | hx <;> rcases List.mem_cons.1 hy with hyz | hy
    · rw [hxz, hyz]
    · exact absurd hty (hfirst y hy (hxz ▸ htx))
    · exact absurd htx (hfirst x hx (hyz ▸ hty))
    · exact ih hrest hx hy

/-- A part without its mark. -/
def erase : Part μ → Part Unit
  | token t => .token t
  | name t => .name t
  | mark _ => .mark ()

@[simp] theorem map_erase_use (r : Ref μ) : r.use.map erase = [.name r.token, .mark ()] := rfl

@[simp] theorem map_erase_word (r : Ref μ) : r.word.map erase = [.token r.token, .mark ()] := rfl

theorem tokens_map_erase (xs : List (Part μ)) : tokens (xs.map erase) = tokens xs := by
  have htoken : token? ∘ (erase : Part μ → Part Unit) = token? := by
    funext x
    cases x <;> rfl
  rw [tokens, List.filterMap_map, htoken, tokens]

theorem name_mem_map_erase {xs : List (Part μ)} {t : Token} (h : .name t ∈ xs) :
    .name t ∈ xs.map erase :=
  List.mem_map.2 ⟨_, h, rfl⟩

end Part

/-! ## Lists of trees -/

section Lists

variable {μ : Type}

theorem Expr.partsAll_eq (es : List (Expr μ)) : Expr.partsAll es = es.flatMap Expr.parts := by
  induction es with
  | nil => rfl
  | cons e es ih => rw [partsAll, ih, List.flatMap_cons]

theorem Stmt.partsAll_eq (ss : List (Stmt μ)) : Stmt.partsAll ss = ss.flatMap Stmt.parts := by
  induction ss with
  | nil => rfl
  | cons s ss ih => rw [partsAll, ih, List.flatMap_cons]

theorem FunDecl.partsAll_eq (fs : List (FunDecl μ)) :
    FunDecl.partsAll fs = fs.flatMap FunDecl.parts := by
  induction fs with
  | nil => rfl
  | cons f fs ih => rw [partsAll, ih, List.flatMap_cons]

end Lists

/-! ## Numbered trees -/

section Number

open Lox.Part (erase)

variable {μ : Type}

mutual

/-- Numbering an expression changes its marks only. -/
theorem Expr.erase_number (n : Nat) : (e : Expr μ) →
    (e.number n).1.parts.map erase = e.parts.map erase
  | .literal _ | .variable _ | .this _ | .super _ _ => rfl
  | .assign _ value => by simp [number, parts, Ref.remark, erase_number _ value]
  | .binary left _ _ right | .logical left _ _ right | .setField left _ right => by
    simp [number, parts, erase_number _ left, erase_number _ right, erase]
  | .unary _ _ operand => by simp [number, parts, erase_number _ operand, erase]
  | .ternary _ condition whenTrue whenFalse => by
    simp [number, parts, erase_number _ condition, erase_number _ whenTrue,
      erase_number _ whenFalse, erase]
  | .group inner => erase_number n inner
  | .call callee _ arguments => by
    simp [number, parts, erase_number _ callee, erase_numberAll _ arguments, erase]
  | .field object _ => by simp [number, parts, erase_number _ object, erase]

theorem Expr.erase_numberAll (n : Nat) : (es : List (Expr μ)) →
    (Expr.partsAll (Expr.numberAll n es).1).map erase = (Expr.partsAll es).map erase
  | [] => rfl
  | e :: rest => by simp [numberAll, partsAll, erase_number _ e, erase_numberAll _ rest]

end

theorem Expr.erase_number? (n : Nat) (o : Option (Expr μ)) :
    (Expr.parts? (Expr.number? n o).1).map erase = (Expr.parts? o).map erase := by
  cases o with
  | none => rfl
  | some e => exact e.erase_number n

theorem Ref.erase_number? (n : Nat) (o : Option (Ref μ)) :
    ((Ref.number? n o).1.toList.flatMap Ref.use).map erase =
      (o.toList.flatMap Ref.use).map erase := by
  cases o <;> rfl

mutual

/-- Numbering a statement changes its marks only. -/
theorem Stmt.erase_number (n : Nat) : (s : Stmt μ) →
    (s.number n).1.parts.map erase = s.parts.map erase
  | .expression value | .print value => value.erase_number n
  | .var _ initializer | .return _ initializer => by
    simp [number, parts, Expr.erase_number? _ initializer, erase]
  | .block body => erase_numberAll n body
  | .ifThen condition branch | .while condition branch => by
    simp [number, parts, condition.erase_number, erase_number _ branch]
  | .ifElse condition thenBranch elseBranch => by
    simp [number, parts, condition.erase_number, erase_number _ thenBranch,
      erase_number _ elseBranch]
  | .function decl => erase_numberFunction n decl
  | .class _ superclass statics methods => by
    have hsuper := Ref.erase_number? n superclass
    simp [number, parts, hsuper, erase_numberFunctions _ statics, erase_numberFunctions _ methods,
      erase]

theorem Stmt.erase_numberFunction (n : Nat) : (f : FunDecl μ) →
    (numberFunction n f).1.parts.map erase = f.parts.map erase
  | .mk _ _ body => by simp [numberFunction, FunDecl.parts, erase_numberAll _ body, erase]

/-- Numbering a program changes its marks only. -/
theorem Stmt.erase_numberAll (n : Nat) : (ss : List (Stmt μ)) →
    (partsAll (numberAll n ss).1).map erase = (partsAll ss).map erase
  | [] => rfl
  | s :: rest => by simp [numberAll, partsAll, erase_number _ s, erase_numberAll _ rest]

theorem Stmt.erase_numberFunctions (n : Nat) : (fs : List (FunDecl μ)) →
    (FunDecl.partsAll (numberFunctions n fs).1).map erase = (FunDecl.partsAll fs).map erase
  | [] => rfl
  | f :: rest => by
    simp [numberFunctions, FunDecl.partsAll, erase_numberFunction _ f,
      erase_numberFunctions _ rest]

end

end Number

end Lox
