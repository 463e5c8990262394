import Lox.Syntax.Occurrence
import Mathlib.Data.List.Forall2

/-!
# Twin trees

Two trees are twins if they have the same shape, and their tokens and the marks of their
references correspond. Names of variables may correspond in a way of their own, since a variable
may be renamed where nothing else may.

## Main definitions

* `Likeness`: how the tokens and marks of two trees correspond
* `Expr.Twin`, `Stmt.Twin`, `FunDecl.Twin`: twin trees
* `Part`, `Expr.parts`, `Stmt.parts`: the tokens and marks of a tree

## Main results

* `Expr.Twin.imp`, `Stmt.Twin.imp`: twins under another likeness that holds of their parts
* `Stmt.twin_numberAll`: twins stay twins when they are numbered
-/

theorem Option.Rel.imp {α β : Type} {R S : α → β → Prop} {o : Option α} {o' : Option β}
    (h : Option.Rel R o o') (hRS : ∀ a ∈ o, ∀ b, R a b → S a b) : Option.Rel S o o' := by
  cases h with
  | some h => exact .some (hRS _ rfl _ h)
  | none => exact .none

theorem Option.Rel.isSome_eq {α β : Type} {R : α → β → Prop} {o : Option α} {o' : Option β}
    (h : Option.Rel R o o') : o.isSome = o'.isSome := by
  cases h <;> rfl

theorem List.Forall₂.getElem? {α β : Type} {R : α → β → Prop} {l : List α} {l' : List β}
    (h : List.Forall₂ R l l') (i : Nat) : Option.Rel R l[i]? l'[i]? := by
  induction h generalizing i with
  | nil => exact .none
  | cons h _ ih =>
    cases i with
    | zero => exact .some h
    | succ i => exact ih i

namespace Lox

/-- How the tokens and marks of two trees correspond. -/
structure Likeness (μ ν : Type) where
  /-- Tokens that are no names of variables. -/
  token : Token → Token → Prop
  /-- Names of variables, where they are declared and where they are used. -/
  name : Token → Token → Prop
  /-- Marks. -/
  mark : μ → ν → Prop

section Trees

variable {μ ν : Type}

/-- References with corresponding tokens and marks. -/
structure Ref.Twin (T : Token → Token → Prop) (M : μ → ν → Prop) (r : Ref μ) (r' : Ref ν) :
    Prop where
  /-- The tokens correspond. -/
  token : T r.token r'.token
  /-- The marks correspond. -/
  mark : M r.mark r'.mark

variable (L : Likeness μ ν)

/-- Uses of variables that correspond. -/
abbrev Likeness.Use : Ref μ → Ref ν → Prop := Ref.Twin L.name L.mark

/-- Uses of `this` or `super` that correspond. -/
abbrev Likeness.Word : Ref μ → Ref ν → Prop := Ref.Twin L.token L.mark

/-- Expressions of the same shape with corresponding parts. -/
inductive Expr.Twin : Expr μ → Expr ν → Prop where
  | literal (v : Literal) : Twin (.literal v) (.literal v)
  | variable {r : Ref μ} {r' : Ref ν} (h : L.Use r r') : Twin (.variable r) (.variable r')
  | assign {r : Ref μ} {r' : Ref ν} {e : Expr μ} {e' : Expr ν} (h : L.Use r r')
      (he : Twin e e') : Twin (.assign r e) (.assign r' e')
  | binary {a b : Expr μ} {a' b' : Expr ν} {t t' : Token} (op : BinaryOp) (ha : Twin a a')
      (ht : L.token t t') (hb : Twin b b') : Twin (.binary a op t b) (.binary a' op t' b')
  | logical {a b : Expr μ} {a' b' : Expr ν} {t t' : Token} (op : LogicalOp) (ha : Twin a a')
      (ht : L.token t t') (hb : Twin b b') : Twin (.logical a op t b) (.logical a' op t' b')
  | unary {e : Expr μ} {e' : Expr ν} {t t' : Token} (op : UnaryOp) (ht : L.token t t')
      (he : Twin e e') : Twin (.unary op t e) (.unary op t' e')
  | ternary {a b c : Expr μ} {a' b' c' : Expr ν} {t t' : Token} (ht : L.token t t')
      (ha : Twin a a') (hb : Twin b b') (hc : Twin c c') :
      Twin (.ternary t a b c) (.ternary t' a' b' c')
  | group {e : Expr μ} {e' : Expr ν} (he : Twin e e') : Twin (.group e) (.group e')
  | call {e : Expr μ} {e' : Expr ν} {t t' : Token} {es : List (Expr μ)} {es' : List (Expr ν)}
      (he : Twin e e') (ht : L.token t t') (hes : List.Forall₂ Twin es es') :
      Twin (.call e t es) (.call e' t' es')
  | field {e : Expr μ} {e' : Expr ν} {t t' : Token} (he : Twin e e') (ht : L.token t t') :
      Twin (.field e t) (.field e' t')
  | setField {a b : Expr μ} {a' b' : Expr ν} {t t' : Token} (ha : Twin a a') (ht : L.token t t')
      (hb : Twin b b') : Twin (.setField a t b) (.setField a' t' b')
  | this {r : Ref μ} {r' : Ref ν} (h : L.Word r r') : Twin (.this r) (.this r')
  | super {r : Ref μ} {r' : Ref ν} {t t' : Token} (h : L.Word r r') (ht : L.token t t') :
      Twin (.super r t) (.super r' t')

mutual

/-- Statements of the same shape with corresponding parts. -/
inductive Stmt.Twin : Stmt μ → Stmt ν → Prop where
  | expression {e : Expr μ} {e' : Expr ν} (he : e.Twin L e') :
      Stmt.Twin (.expression e) (.expression e')
  | print {e : Expr μ} {e' : Expr ν} (he : e.Twin L e') : Stmt.Twin (.print e) (.print e')
  | var {t t' : Token} {o : Option (Expr μ)} {o' : Option (Expr ν)} (ht : L.name t t')
      (ho : Option.Rel (Expr.Twin L) o o') : Stmt.Twin (.var t o) (.var t' o')
  | block {ss : List (Stmt μ)} {ss' : List (Stmt ν)} (h : List.Forall₂ Stmt.Twin ss ss') :
      Stmt.Twin (.block ss) (.block ss')
  | ifThen {e : Expr μ} {e' : Expr ν} {s : Stmt μ} {s' : Stmt ν} (he : e.Twin L e')
      (hs : Stmt.Twin s s') : Stmt.Twin (.ifThen e s) (.ifThen e' s')
  | ifElse {e : Expr μ} {e' : Expr ν} {s r : Stmt μ} {s' r' : Stmt ν} (he : e.Twin L e')
      (hs : Stmt.Twin s s') (hr : Stmt.Twin r r') :
      Stmt.Twin (.ifElse e s r) (.ifElse e' s' r')
  | while {e : Expr μ} {e' : Expr ν} {s : Stmt μ} {s' : Stmt ν} (he : e.Twin L e')
      (hs : Stmt.Twin s s') : Stmt.Twin (.while e s) (.while e' s')
  | function {f : FunDecl μ} {f' : FunDecl ν} (h : FunDecl.Twin f f') :
      Stmt.Twin (.function f) (.function f')
  | return {t t' : Token} {o : Option (Expr μ)} {o' : Option (Expr ν)} (ht : L.token t t')
      (ho : Option.Rel (Expr.Twin L) o o') : Stmt.Twin (.return t o) (.return t' o')
  | class {t t' : Token} {o : Option (Ref μ)} {o' : Option (Ref ν)} {ss ms : List (FunDecl μ)}
      {ss' ms' : List (FunDecl ν)} (ht : L.token t t') (ho : Option.Rel L.Use o o')
      (hs : List.Forall₂ FunDecl.Twin ss ss') (hm : List.Forall₂ FunDecl.Twin ms ms') :
      Stmt.Twin (.class t o ss ms) (.class t' o' ss' ms')

/-- Functions of the same shape with corresponding parts. -/
inductive FunDecl.Twin : FunDecl μ → FunDecl ν → Prop where
  | mk {t t' : Token} {ps ps' : List Token} {ss : List (Stmt μ)} {ss' : List (Stmt ν)}
      (ht : L.token t t') (hp : List.Forall₂ L.name ps ps') (h : List.Forall₂ Stmt.Twin ss ss') :
      FunDecl.Twin (.mk t ps ss) (.mk t' ps' ss')

end

end Trees

/-! ## Parts -/

/-- What corresponds in twin trees. -/
inductive Part (μ : Type) where
  /-- A token that is no name of a variable. -/
  | token (t : Token)
  /-- The name of a variable, where it is declared or used. -/
  | name (t : Token)
  /-- A mark. -/
  | mark (i : μ)

/-- The token of a part. -/
def Part.token? {μ : Type} : Part μ → Option Token
  | token t | name t => some t
  | mark _ => none

/-- The mark of a part. -/
def Part.mark? {μ : Type} : Part μ → Option μ
  | token _ | name _ => none
  | mark i => some i

/-- The parts of a use of a variable. -/
def Ref.use {μ : Type} (r : Ref μ) : List (Part μ) := [.name r.token, .mark r.mark]

/-- The parts of a use of `this` or `super`. -/
def Ref.word {μ : Type} (r : Ref μ) : List (Part μ) := [.token r.token, .mark r.mark]

section Parts

variable {μ : Type}

mutual

/-- The parts of an expression. -/
def Expr.parts : Expr μ → List (Part μ)
  | .literal _ => []
  | .variable r => r.use
  | .assign r e => r.use ++ e.parts
  | .binary a _ t b | .logical a _ t b | .setField a t b => a.parts ++ .token t :: b.parts
  | .unary _ t e => .token t :: e.parts
  | .ternary t a b c => .token t :: (a.parts ++ (b.parts ++ c.parts))
  | .group e => e.parts
  | .call e t es => e.parts ++ .token t :: Expr.partsAll es
  | .field e t => e.parts ++ [.token t]
  | .this r => r.word
  | .super r t => r.word ++ [.token t]

/-- The parts of expressions. -/
def Expr.partsAll : List (Expr μ) → List (Part μ)
  | [] => []
  | e :: rest => e.parts ++ Expr.partsAll rest

end

/-- The parts of an expression that may be absent. -/
def Expr.parts? : Option (Expr μ) → List (Part μ)
  | none => []
  | some e => e.parts

mutual

/-- The parts of a statement. -/
def Stmt.parts : Stmt μ → List (Part μ)
  | .expression e | .print e => e.parts
  | .var t o => .name t :: Expr.parts? o
  | .block ss => Stmt.partsAll ss
  | .ifThen e s | .while e s => e.parts ++ s.parts
  | .ifElse e s r => e.parts ++ (s.parts ++ r.parts)
  | .function f => FunDecl.parts f
  | .return t o => .token t :: Expr.parts? o
  | .class t o ss ms =>
    .token t :: (o.toList.flatMap Ref.use ++ (FunDecl.partsAll ss ++ FunDecl.partsAll ms))

/-- The parts of a function. -/
def FunDecl.parts : FunDecl μ → List (Part μ)
  | .mk t ps ss => .token t :: (ps.map .name ++ Stmt.partsAll ss)

/-- The parts of statements. -/
def Stmt.partsAll : List (Stmt μ) → List (Part μ)
  | [] => []
  | s :: rest => s.parts ++ Stmt.partsAll rest

/-- The parts of functions. -/
def FunDecl.partsAll : List (FunDecl μ) → List (Part μ)
  | [] => []
  | f :: rest => FunDecl.parts f ++ FunDecl.partsAll rest

end

end Parts

/-! ## Other likenesses -/

section Imp

variable {μ ν : Type} {L L' : Likeness μ ν}

/-- What corresponds to a part under one likeness does so under another. -/
def Likeness.Within (L L' : Likeness μ ν) : Part μ → Prop
  | .token t => ∀ t', L.token t t' → L'.token t t'
  | .name t => ∀ t', L.name t t' → L'.name t t'
  | .mark i => ∀ j, L.mark i j → L'.mark i j

theorem Ref.Twin.use {r : Ref μ} {r' : Ref ν} (h : L.Use r r')
    (hL : ∀ x ∈ r.use, L.Within L' x) : L'.Use r r' :=
  ⟨hL (.name r.token) (by simp [Ref.use]) _ h.token,
    hL (.mark r.mark) (by simp [Ref.use]) _ h.mark⟩

theorem Ref.Twin.word {r : Ref μ} {r' : Ref ν} (h : L.Word r r')
    (hL : ∀ x ∈ r.word, L.Within L' x) : L'.Word r r' :=
  ⟨hL (.token r.token) (by simp [Ref.word]) _ h.token,
    hL (.mark r.mark) (by simp [Ref.word]) _ h.mark⟩

theorem forall₂_name_imp {ps ps' : List Token} (h : List.Forall₂ L.name ps ps')
    (hL : ∀ x ∈ ps.map Part.name, L.Within L' x) : List.Forall₂ L'.name ps ps' := by
  induction h with
  | nil => exact .nil
  | cons h _ ih =>
    obtain ⟨hname, hrest⟩ := List.forall_mem_cons.1 hL
    exact .cons (hname _ h) (ih hrest)

open List (forall_mem_append forall_mem_cons)

mutual

/-- Twins under one likeness are twins under another that holds of their parts. -/
theorem Expr.Twin.imp : (e : Expr μ) → {e' : Expr ν} → e.Twin L e' →
    (∀ x ∈ e.parts, L.Within L' x) → e.Twin L' e'
  | .literal _, _, .literal v, _ => .literal v
  | .variable _, _, .variable h, hL => .variable (h.use hL)
  | .assign _ e, _, .assign h he, hL =>
    have ⟨hr, hL⟩ := forall_mem_append.1 hL
    .assign (h.use hr) (Expr.Twin.imp e he hL)
  | .binary a _ _ b, _, .binary op ha ht hb, hL =>
    have ⟨hLa, hL⟩ := forall_mem_append.1 hL
    have ⟨hLt, hLb⟩ := forall_mem_cons.1 hL
    .binary op (Expr.Twin.imp a ha hLa) (hLt _ ht) (Expr.Twin.imp b hb hLb)
  | .logical a _ _ b, _, .logical op ha ht hb, hL =>
    have ⟨hLa, hL⟩ := forall_mem_append.1 hL
    have ⟨hLt, hLb⟩ := forall_mem_cons.1 hL
    .logical op (Expr.Twin.imp a ha hLa) (hLt _ ht) (Expr.Twin.imp b hb hLb)
  | .unary _ _ e, _, .unary op ht he, hL =>
    have ⟨hLt, hL⟩ := forall_mem_cons.1 hL
    .unary op (hLt _ ht) (Expr.Twin.imp e he hL)
  | .ternary _ a b c, _, .ternary ht ha hb hc, hL =>
    have ⟨hLt, hL⟩ := forall_mem_cons.1 hL
    have ⟨hLa, hL⟩ := forall_mem_append.1 hL
    have ⟨hLb, hLc⟩ := forall_mem_append.1 hL
    .ternary (hLt _ ht) (Expr.Twin.imp a ha hLa) (Expr.Twin.imp b hb hLb)
      (Expr.Twin.imp c hc hLc)
  | .group e, _, .group he, hL => .group (Expr.Twin.imp e he hL)
  | .call e _ es, _, .call he ht hes, hL =>
    have ⟨hLe, hL⟩ := forall_mem_append.1 hL
    have ⟨hLt, hL⟩ := forall_mem_cons.1 hL
    .call (Expr.Twin.imp e he hLe) (hLt _ ht) (Expr.Twin.impAll es hes hL)
  | .field e _, _, .field he ht, hL =>
    have ⟨hLe, hLt⟩ := forall_mem_append.1 hL
    .field (Expr.Twin.imp e he hLe) (hLt _ (List.mem_singleton_self _) _ ht)
  | .setField a _ b, _, .setField ha ht hb, hL =>
    have ⟨hLa, hL⟩ := forall_mem_append.1 hL
    have ⟨hLt, hLb⟩ := forall_mem_cons.1 hL
    .setField (Expr.Twin.imp a ha hLa) (hLt _ ht) (Expr.Twin.imp b hb hLb)
  | .this _, _, .this h, hL => .this (h.word hL)
  | .super _ _, _, .super h ht, hL =>
    have ⟨hr, hLt⟩ := forall_mem_append.1 hL
    .super (h.word hr) (hLt _ (List.mem_singleton_self _) _ ht)

theorem Expr.Twin.impAll : (es : List (Expr μ)) → {es' : List (Expr ν)} →
    List.Forall₂ (Expr.Twin L) es es' → (∀ x ∈ Expr.partsAll es, L.Within L' x) →
      List.Forall₂ (Expr.Twin L') es es'
  | [], _, .nil, _ => .nil
  | e :: es, _, .cons h hs, hL =>
    have ⟨hLe, hL⟩ := forall_mem_append.1 hL
    .cons (Expr.Twin.imp e h hLe) (Expr.Twin.impAll es hs hL)

end

theorem Expr.Twin.imp? {o : Option (Expr μ)} {o' : Option (Expr ν)}
    (h : Option.Rel (Expr.Twin L) o o') (hL : ∀ x ∈ Expr.parts? o, L.Within L' x) :
    Option.Rel (Expr.Twin L') o o' :=
  h.imp fun e he _ h => Expr.Twin.imp e h (by cases he; exact hL)

theorem Ref.Twin.use? {o : Option (Ref μ)} {o' : Option (Ref ν)} (h : Option.Rel L.Use o o')
    (hL : ∀ x ∈ o.toList.flatMap Ref.use, L.Within L' x) : Option.Rel L'.Use o o' :=
  h.imp fun r hr _ h => h.use (by cases hr; simpa using hL)

mutual

theorem Stmt.Twin.imp : (s : Stmt μ) → {s' : Stmt ν} → s.Twin L s' →
    (∀ x ∈ s.parts, L.Within L' x) → s.Twin L' s'
  | .expression e, _, .expression he, hL => .expression (Expr.Twin.imp e he hL)
  | .print e, _, .print he, hL => .print (Expr.Twin.imp e he hL)
  | .var _ _, _, .var ht ho, hL =>
    have ⟨hLt, hL⟩ := forall_mem_cons.1 hL
    .var (hLt _ ht) (Expr.Twin.imp? ho hL)
  | .block ss, _, .block h, hL => .block (Stmt.Twin.impAll ss h hL)
  | .ifThen e s, _, .ifThen he hs, hL =>
    have ⟨hLe, hL⟩ := forall_mem_append.1 hL
    .ifThen (Expr.Twin.imp e he hLe) (Stmt.Twin.imp s hs hL)
  | .ifElse e s r, _, .ifElse he hs hr, hL =>
    have ⟨hLe, hL⟩ := forall_mem_append.1 hL
    have ⟨hLs, hLr⟩ := forall_mem_append.1 hL
    .ifElse (Expr.Twin.imp e he hLe) (Stmt.Twin.imp s hs hLs) (Stmt.Twin.imp r hr hLr)
  | .while e s, _, .while he hs, hL =>
    have ⟨hLe, hL⟩ := forall_mem_append.1 hL
    .while (Expr.Twin.imp e he hLe) (Stmt.Twin.imp s hs hL)
  | .function f, _, .function h, hL => .function (FunDecl.Twin.imp f h hL)
  | .return _ _, _, .return ht ho, hL =>
    have ⟨hLt, hL⟩ := forall_mem_cons.1 hL
    .return (hLt _ ht) (Expr.Twin.imp? ho hL)
  | .class _ _ ss ms, _, .class ht ho hs hm, hL =>
    have ⟨hLt, hL⟩ := forall_mem_cons.1 hL
    have ⟨hLo, hL⟩ := forall_mem_append.1 hL
    have ⟨hLs, hLm⟩ := forall_mem_append.1 hL
    .class (hLt _ ht) (Ref.Twin.use? ho hLo) (FunDecl.Twin.impAll ss hs hLs)
      (FunDecl.Twin.impAll ms hm hLm)

theorem FunDecl.Twin.imp : (f : FunDecl μ) → {f' : FunDecl ν} → f.Twin L f' →
    (∀ x ∈ f.parts, L.Within L' x) → f.Twin L' f'
  | .mk _ _ ss, _, .mk ht hp h, hL =>
    have ⟨hLt, hL⟩ := forall_mem_cons.1 hL
    have ⟨hLp, hL⟩ := forall_mem_append.1 hL
    .mk (hLt _ ht) (forall₂_name_imp hp hLp) (Stmt.Twin.impAll ss h hL)

theorem Stmt.Twin.impAll : (ss : List (Stmt μ)) → {ss' : List (Stmt ν)} →
    List.Forall₂ (Stmt.Twin L) ss ss' → (∀ x ∈ Stmt.partsAll ss, L.Within L' x) →
      List.Forall₂ (Stmt.Twin L') ss ss'
  | [], _, .nil, _ => .nil
  | s :: ss, _, .cons h hs, hL =>
    have ⟨hLs, hL⟩ := forall_mem_append.1 hL
    .cons (Stmt.Twin.imp s h hLs) (Stmt.Twin.impAll ss hs hL)

theorem FunDecl.Twin.impAll : (fs : List (FunDecl μ)) → {fs' : List (FunDecl ν)} →
    List.Forall₂ (FunDecl.Twin L) fs fs' → (∀ x ∈ FunDecl.partsAll fs, L.Within L' x) →
      List.Forall₂ (FunDecl.Twin L') fs fs'
  | [], _, .nil, _ => .nil
  | f :: fs, _, .cons h hs, hL =>
    have ⟨hLf, hL⟩ := forall_mem_append.1 hL
    .cons (FunDecl.Twin.imp f h hLf) (FunDecl.Twin.impAll fs hs hL)

end

end Imp

/-! ## Marks among the parts -/

section Marks

variable {μ : Type}

theorem marks_use (r : Ref μ) : r.use.filterMap Part.mark? = [r.mark] := rfl

theorem marks_token (t : Token) (rest : List (Part μ)) :
    (Part.token t :: rest).filterMap Part.mark? = rest.filterMap Part.mark? := rfl

theorem marks_names (ps : List Token) :
    (ps.map (Part.name (μ := μ))).filterMap Part.mark? = [] := by
  induction ps with
  | nil => rfl
  | cons p ps ih => exact ih

mutual

/-- The marks among the parts of an expression are its marks. -/
theorem Expr.marks_parts : (e : Expr μ) → e.parts.filterMap Part.mark? = e.marks
  | .literal _ | .variable _ | .this _ => rfl
  | .assign r e => by
    rw [Expr.parts, List.filterMap_append, marks_use, Expr.marks_parts e]
    rfl
  | .binary a _ _ b | .logical a _ _ b | .setField a _ b => by
    rw [Expr.parts, List.filterMap_append, marks_token, Expr.marks_parts a, Expr.marks_parts b]
    rfl
  | .unary _ _ e => Expr.marks_parts e
  | .ternary _ a b c => by
    rw [Expr.parts, marks_token, List.filterMap_append, List.filterMap_append,
      Expr.marks_parts a, Expr.marks_parts b, Expr.marks_parts c, ← List.append_assoc]
    rfl
  | .group e => Expr.marks_parts e
  | .call e _ es => by
    rw [Expr.parts, List.filterMap_append, marks_token, Expr.marks_parts e,
      Expr.marks_partsAll es]
    rfl
  | .field e _ => by
    rw [Expr.parts, List.filterMap_append, Expr.marks_parts e]
    exact List.append_nil _
  | .super _ _ => rfl

theorem Expr.marks_partsAll : (es : List (Expr μ)) →
    (Expr.partsAll es).filterMap Part.mark? = Expr.marksAll es
  | [] => rfl
  | e :: es => by
    rw [Expr.partsAll, List.filterMap_append, Expr.marks_parts e, Expr.marks_partsAll es]
    rfl

end

theorem Expr.marks_parts? : (o : Option (Expr μ)) →
    (Expr.parts? o).filterMap Part.mark? = Expr.marks? o
  | none => rfl
  | some e => Expr.marks_parts e

mutual

theorem Stmt.marks_parts : (s : Stmt μ) → s.parts.filterMap Part.mark? = s.marks
  | .expression e | .print e => Expr.marks_parts e
  | .var _ o | .return _ o => Expr.marks_parts? o
  | .block ss => Stmt.marks_partsAll ss
  | .ifThen e s | .while e s => by
    rw [Stmt.parts, List.filterMap_append, Expr.marks_parts e, Stmt.marks_parts s]
    rfl
  | .ifElse e s r => by
    rw [Stmt.parts, List.filterMap_append, List.filterMap_append, Expr.marks_parts e,
      Stmt.marks_parts s, Stmt.marks_parts r, ← List.append_assoc]
    rfl
  | .function f => FunDecl.marks_parts f
  | .class _ o ss ms => by
    have ho : (o.toList.flatMap Ref.use).filterMap Part.mark? = (o.map (·.mark)).toList := by
      cases o <;> rfl
    rw [Stmt.parts, marks_token, List.filterMap_append, List.filterMap_append, ho,
      FunDecl.marks_partsAll ss, FunDecl.marks_partsAll ms, ← List.append_assoc]
    rfl

theorem FunDecl.marks_parts : (f : FunDecl μ) →
    f.parts.filterMap Part.mark? = Stmt.functionMarks f
  | .mk _ ps ss => by
    rw [FunDecl.parts, marks_token, List.filterMap_append, marks_names, Stmt.marks_partsAll ss]
    rfl

theorem Stmt.marks_partsAll : (ss : List (Stmt μ)) →
    (Stmt.partsAll ss).filterMap Part.mark? = Stmt.marksAll ss
  | [] => rfl
  | s :: ss => by
    rw [Stmt.partsAll, List.filterMap_append, Stmt.marks_parts s, Stmt.marks_partsAll ss]
    rfl

theorem FunDecl.marks_partsAll : (fs : List (FunDecl μ)) →
    (FunDecl.partsAll fs).filterMap Part.mark? = Stmt.functionsMarks fs
  | [] => rfl
  | f :: fs => by
    rw [FunDecl.partsAll, List.filterMap_append, FunDecl.marks_parts f, FunDecl.marks_partsAll fs]
    rfl

end

end Marks

/-! ## Numbering -/

section Number

variable {μ ν : Type} {L : Likeness μ ν} {n m p q : Nat}

/-- Numbers that differ as `p` and `q` do. -/
def Shifted (p q i j : Nat) : Prop := i + q = j + p

theorem Shifted.succ (h : Shifted p q n m) : Shifted p q (n + 1) (m + 1) := by
  unfold Shifted at h ⊢
  omega

theorem Shifted.lt_iff {i j : Nat} (h : Shifted p q i j) (hn : Shifted p q n m) :
    i < n ↔ j < m := by
  unfold Shifted at h hn
  omega

theorem Shifted.eq_iff {i j : Nat} (h : Shifted p q i j) (hn : Shifted p q n m) :
    i = n ↔ j = m := by
  unfold Shifted at h hn
  omega

theorem Shifted.start (p q : Nat) : Shifted p q p q := Nat.add_comm p q

/-- The likeness of trees that are numbered from two numbers on. -/
def Likeness.numbered (L : Likeness μ ν) (p q : Nat) : Likeness Occurrence Occurrence :=
  ⟨L.token, L.name, Shifted p q⟩

theorem Ref.Twin.remark {T : Token → Token → Prop} {M : μ → ν → Prop} {r : Ref μ} {r' : Ref ν}
    (h : r.Twin T M r') (hn : Shifted p q n m) :
    (r.remark n).Twin T (Shifted p q) (r'.remark m) :=
  ⟨h.token, hn⟩

mutual

/-- Twins that are numbered from two numbers on are twins. -/
theorem Expr.twin_number : (e : Expr μ) → {e' : Expr ν} → e.Twin L e' → {n m : Nat} →
    Shifted p q n m → (e.number n).1.Twin (L.numbered p q) (e'.number m).1 ∧
      Shifted p q (e.number n).2 (e'.number m).2
  | .literal _, _, .literal v, _, _, hn => ⟨.literal v, hn⟩
  | .variable _, _, .variable h, _, _, hn => ⟨.variable (h.remark hn), hn.succ⟩
  | .assign _ e, _, .assign h he, _, _, hn =>
    have ⟨he', hn'⟩ := Expr.twin_number e he hn.succ
    ⟨.assign (h.remark hn) he', hn'⟩
  | .binary a _ _ b, _, .binary op ha ht hb, _, _, hn =>
    have ⟨ha', hn'⟩ := Expr.twin_number a ha hn
    have ⟨hb', hn''⟩ := Expr.twin_number b hb hn'
    ⟨.binary op ha' ht hb', hn''⟩
  | .logical a _ _ b, _, .logical op ha ht hb, _, _, hn =>
    have ⟨ha', hn'⟩ := Expr.twin_number a ha hn
    have ⟨hb', hn''⟩ := Expr.twin_number b hb hn'
    ⟨.logical op ha' ht hb', hn''⟩
  | .unary _ _ e, _, .unary op ht he, _, _, hn =>
    have ⟨he', hn'⟩ := Expr.twin_number e he hn
    ⟨.unary op ht he', hn'⟩
  | .ternary _ a b c, _, .ternary ht ha hb hc, _, _, hn =>
    have ⟨ha', hn'⟩ := Expr.twin_number a ha hn
    have ⟨hb', hn''⟩ := Expr.twin_number b hb hn'
    have ⟨hc', hn'''⟩ := Expr.twin_number c hc hn''
    ⟨.ternary ht ha' hb' hc', hn'''⟩
  | .group e, _, .group he, _, _, hn =>
    have ⟨he', hn'⟩ := Expr.twin_number e he hn
    ⟨.group he', hn'⟩
  | .call e _ es, _, .call he ht hes, _, _, hn =>
    have ⟨he', hn'⟩ := Expr.twin_number e he hn
    have ⟨hes', hn''⟩ := Expr.twin_numberAll es hes hn'
    ⟨.call he' ht hes', hn''⟩
  | .field e _, _, .field he ht, _, _, hn =>
    have ⟨he', hn'⟩ := Expr.twin_number e he hn
    ⟨.field he' ht, hn'⟩
  | .setField a _ b, _, .setField ha ht hb, _, _, hn =>
    have ⟨ha', hn'⟩ := Expr.twin_number a ha hn
    have ⟨hb', hn''⟩ := Expr.twin_number b hb hn'
    ⟨.setField ha' ht hb', hn''⟩
  | .this _, _, .this h, _, _, hn => ⟨.this (h.remark hn), hn.succ⟩
  | .super _ _, _, .super h ht, _, _, hn => ⟨.super (h.remark hn) ht, hn.succ⟩

theorem Expr.twin_numberAll : (es : List (Expr μ)) → {es' : List (Expr ν)} →
    List.Forall₂ (Expr.Twin L) es es' → {n m : Nat} → Shifted p q n m →
      List.Forall₂ (Expr.Twin (L.numbered p q)) (Expr.numberAll n es).1 (Expr.numberAll m es').1 ∧
        Shifted p q (Expr.numberAll n es).2 (Expr.numberAll m es').2
  | [], _, .nil, _, _, hn => ⟨.nil, hn⟩
  | e :: es, _, .cons he hes, _, _, hn =>
    have ⟨he', hn'⟩ := Expr.twin_number e he hn
    have ⟨hes', hn''⟩ := Expr.twin_numberAll es hes hn'
    ⟨.cons he' hes', hn''⟩

end

theorem Expr.twin_number? {o : Option (Expr μ)} {o' : Option (Expr ν)}
    (h : Option.Rel (Expr.Twin L) o o') (hn : Shifted p q n m) :
    Option.Rel (Expr.Twin (L.numbered p q)) (Expr.number? n o).1 (Expr.number? m o').1 ∧
      Shifted p q (Expr.number? n o).2 (Expr.number? m o').2 := by
  cases h with
  | none => exact ⟨.none, hn⟩
  | @some e e' h =>
    obtain ⟨he, hn'⟩ := Expr.twin_number e h hn
    exact ⟨.some he, hn'⟩

theorem Ref.twin_number? {o : Option (Ref μ)} {o' : Option (Ref ν)}
    (h : Option.Rel L.Use o o') (hn : Shifted p q n m) :
    Option.Rel (L.numbered p q).Use (Ref.number? n o).1 (Ref.number? m o').1 ∧
      Shifted p q (Ref.number? n o).2 (Ref.number? m o').2 := by
  cases h with
  | none => exact ⟨.none, hn⟩
  | some h => exact ⟨.some (h.remark hn), hn.succ⟩

mutual

theorem Stmt.twin_number : (s : Stmt μ) → {s' : Stmt ν} → s.Twin L s' → {n m : Nat} →
    Shifted p q n m → (s.number n).1.Twin (L.numbered p q) (s'.number m).1 ∧
      Shifted p q (s.number n).2 (s'.number m).2
  | .expression e, _, .expression he, _, _, hn =>
    have ⟨he', hn'⟩ := Expr.twin_number e he hn
    ⟨.expression he', hn'⟩
  | .print e, _, .print he, _, _, hn =>
    have ⟨he', hn'⟩ := Expr.twin_number e he hn
    ⟨.print he', hn'⟩
  | .var _ _, _, .var ht ho, _, _, hn =>
    have ⟨ho', hn'⟩ := Expr.twin_number? ho hn
    ⟨.var ht ho', hn'⟩
  | .block ss, _, .block h, _, _, hn =>
    have ⟨h', hn'⟩ := Stmt.twin_numberAll ss h hn
    ⟨.block h', hn'⟩
  | .ifThen e s, _, .ifThen he hs, _, _, hn =>
    have ⟨he', hn'⟩ := Expr.twin_number e he hn
    have ⟨hs', hn''⟩ := Stmt.twin_number s hs hn'
    ⟨.ifThen he' hs', hn''⟩
  | .ifElse e s r, _, .ifElse he hs hr, _, _, hn =>
    have ⟨he', hn'⟩ := Expr.twin_number e he hn
    have ⟨hs', hn''⟩ := Stmt.twin_number s hs hn'
    have ⟨hr', hn'''⟩ := Stmt.twin_number r hr hn''
    ⟨.ifElse he' hs' hr', hn'''⟩
  | .while e s, _, .while he hs, _, _, hn =>
    have ⟨he', hn'⟩ := Expr.twin_number e he hn
    have ⟨hs', hn''⟩ := Stmt.twin_number s hs hn'
    ⟨.while he' hs', hn''⟩
  | .function f, _, .function h, _, _, hn =>
    have ⟨h', hn'⟩ := Stmt.twin_numberFunction f h hn
    ⟨.function h', hn'⟩
  | .return _ _, _, .return ht ho, _, _, hn =>
    have ⟨ho', hn'⟩ := Expr.twin_number? ho hn
    ⟨.return ht ho', hn'⟩
  | .class _ _ ss ms, _, .class ht ho hs hm, _, _, hn =>
    have ⟨ho', hn'⟩ := Ref.twin_number? ho hn
    have ⟨hs', hn''⟩ := Stmt.twin_numberFunctions ss hs hn'
    have ⟨hm', hn'''⟩ := Stmt.twin_numberFunctions ms hm hn''
    ⟨.class ht ho' hs' hm', hn'''⟩

theorem Stmt.twin_numberFunction : (f : FunDecl μ) → {f' : FunDecl ν} → f.Twin L f' →
    {n m : Nat} → Shifted p q n m →
      (Stmt.numberFunction n f).1.Twin (L.numbered p q) (Stmt.numberFunction m f').1 ∧
        Shifted p q (Stmt.numberFunction n f).2 (Stmt.numberFunction m f').2
  | .mk _ _ ss, _, .mk ht hp h, _, _, hn =>
    have ⟨h', hn'⟩ := Stmt.twin_numberAll ss h hn
    ⟨.mk ht hp h', hn'⟩

theorem Stmt.twin_numberAll : (ss : List (Stmt μ)) → {ss' : List (Stmt ν)} →
    List.Forall₂ (Stmt.Twin L) ss ss' → {n m : Nat} → Shifted p q n m →
      List.Forall₂ (Stmt.Twin (L.numbered p q)) (Stmt.numberAll n ss).1 (Stmt.numberAll m ss').1 ∧
        Shifted p q (Stmt.numberAll n ss).2 (Stmt.numberAll m ss').2
  | [], _, .nil, _, _, hn => ⟨.nil, hn⟩
  | s :: ss, _, .cons h hs, _, _, hn =>
    have ⟨h', hn'⟩ := Stmt.twin_number s h hn
    have ⟨hs', hn''⟩ := Stmt.twin_numberAll ss hs hn'
    ⟨.cons h' hs', hn''⟩

theorem Stmt.twin_numberFunctions : (fs : List (FunDecl μ)) → {fs' : List (FunDecl ν)} →
    List.Forall₂ (FunDecl.Twin L) fs fs' → {n m : Nat} → Shifted p q n m →
      List.Forall₂ (FunDecl.Twin (L.numbered p q)) (Stmt.numberFunctions n fs).1
          (Stmt.numberFunctions m fs').1 ∧
        Shifted p q (Stmt.numberFunctions n fs).2 (Stmt.numberFunctions m fs').2
  | [], _, .nil, _, _, hn => ⟨.nil, hn⟩
  | f :: fs, _, .cons h hs, _, _, hn =>
    have ⟨h', hn'⟩ := Stmt.twin_numberFunction f h hn
    have ⟨hs', hn''⟩ := Stmt.twin_numberFunctions fs hs hn'
    ⟨.cons h' hs', hn''⟩

end

end Number

end Lox
