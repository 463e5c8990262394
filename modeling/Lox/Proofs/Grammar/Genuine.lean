import Lox.Proofs.Grammar.Sentence
import Lox.Syntax.Occurrence

/-!
# Genuine trees

The trees that are written by tokens with the right texts have properties that trees put
together by hand may lack: no name is a reserved word, `this` and `super` are written so, and
neither branches nor loops declare a name. Numbering keeps them.

## Main definitions

* `Token.IsName`: a text that is no reserved word
* `Token.Faithful`: a token whose text is right for its kind
* `Expr.Genuine`, `Stmt.Genuine`

## Main results

* `genuineAll_numberAll`: numbering keeps genuine trees genuine
* `Sentence.genuine`: what faithful tokens are read as is genuine
-/

namespace Lox

namespace Token

/-- A text that is no reserved word. -/
def IsName (t : Token) : Prop := Keyword.ofText? t.lexeme = none

/-- A token whose text is right for its kind. -/
def Faithful (t : Token) : Prop :=
  match t.kind with
  | .keyword k => t.lexeme = k.text
  | .identifier => t.IsName
  | _ => True

theorem IsName.ne_text {t : Token} (h : t.IsName) (k : Keyword) : t.lexeme ≠ k.text := by
  intro hk
  rw [IsName, hk, Keyword.ofText?_text] at h
  cases h

theorem Faithful.isName {t : Token} (h : t.Faithful) (hk : t.kind = .identifier) : t.IsName := by
  simpa [Faithful, hk] using h

theorem Faithful.lexeme {t : Token} {k : Keyword} (h : t.Faithful) (hk : t.isKeyword k) :
    t.lexeme = k.text := by
  simpa [Faithful, Token.kind_of_isKeyword hk] using h

end Token

/-- The name that a statement declares in the scope that it stands in. -/
def Stmt.declared? {μ : Type} : Stmt μ → Option Token
  | .var name _ | .class name .. => some name
  | .function decl => some decl.name
  | _ => none

section Genuine

variable {μ : Type}

namespace Expr

mutual

/-- An expression whose references are written as they should be. -/
def Genuine : Expr μ → Prop
  | .literal _ => True
  | .variable name => name.token.IsName
  | .assign name value => name.token.IsName ∧ value.Genuine
  | .binary left _ _ right | .logical left _ _ right => left.Genuine ∧ right.Genuine
  | .unary _ _ operand => operand.Genuine
  | .ternary _ condition whenTrue whenFalse =>
    condition.Genuine ∧ whenTrue.Genuine ∧ whenFalse.Genuine
  | .group inner => inner.Genuine
  | .call callee _ arguments => callee.Genuine ∧ GenuineAll arguments
  | .field object _ => object.Genuine
  | .setField object _ value => object.Genuine ∧ value.Genuine
  | .this keyword => keyword.token.lexeme = Keyword.thisWord.text
  | .super keyword _ => keyword.token.lexeme = Keyword.superWord.text

/-- Genuine expressions. -/
def GenuineAll : List (Expr μ) → Prop
  | [] => True
  | e :: rest => e.Genuine ∧ GenuineAll rest

end

/-- An expression that may be absent and otherwise is genuine. -/
def Genuine? : Option (Expr μ) → Prop
  | none => True
  | some e => e.Genuine

theorem genuineAll_iff {es : List (Expr μ)} : GenuineAll es ↔ ∀ e ∈ es, e.Genuine := by
  induction es with
  | nil => simp [GenuineAll]
  | cons e rest ih => simp [GenuineAll, ih]

mutual

theorem genuine_number (n : Nat) : (e : Expr μ) → e.Genuine → (e.number n).1.Genuine
  | .literal _, _ => trivial
  | .variable _, h => h
  | .assign _ value, h => ⟨h.1, genuine_number _ value h.2⟩
  | .binary left _ _ right, h => ⟨genuine_number _ left h.1, genuine_number _ right h.2⟩
  | .logical left _ _ right, h => ⟨genuine_number _ left h.1, genuine_number _ right h.2⟩
  | .unary _ _ operand, h => genuine_number n operand h
  | .ternary _ condition whenTrue whenFalse, h =>
    ⟨genuine_number _ condition h.1, genuine_number _ whenTrue h.2.1,
      genuine_number _ whenFalse h.2.2⟩
  | .group inner, h => genuine_number n inner h
  | .call callee _ arguments, h =>
    ⟨genuine_number _ callee h.1, genuineAll_numberAll _ arguments h.2⟩
  | .field object _, h => genuine_number n object h
  | .setField object _ value, h => ⟨genuine_number _ object h.1, genuine_number _ value h.2⟩
  | .this _, h => h
  | .super _ _, h => h

theorem genuineAll_numberAll (n : Nat) :
    (es : List (Expr μ)) → GenuineAll es → GenuineAll (numberAll n es).1
  | [], _ => trivial
  | e :: rest, h => ⟨genuine_number n e h.1, genuineAll_numberAll _ rest h.2⟩

end

theorem genuine?_number? (n : Nat) {e : Option (Expr μ)} (h : Genuine? e) :
    Genuine? (number? n e).1 := by
  cases e with
  | none => trivial
  | some e => exact genuine_number n e h

end Expr

namespace Stmt

mutual

/-- A statement whose names are no reserved words and whose branches declare nothing. -/
def Genuine : Stmt μ → Prop
  | .expression value | .print value => value.Genuine
  | .var name initializer => name.IsName ∧ Expr.Genuine? initializer
  | .block body => GenuineAll body
  | .ifThen condition thenBranch =>
    condition.Genuine ∧ thenBranch.Genuine ∧ thenBranch.declared? = none
  | .ifElse condition thenBranch elseBranch =>
    condition.Genuine ∧ thenBranch.Genuine ∧ elseBranch.Genuine ∧
      thenBranch.declared? = none ∧ elseBranch.declared? = none
  | .while condition body => condition.Genuine ∧ body.Genuine ∧ body.declared? = none
  | .function decl => GenuineFunction decl
  | .return _ value => Expr.Genuine? value
  | .class name superclass statics methods =>
    name.IsName ∧ (∀ r ∈ superclass, r.token.IsName) ∧ GenuineFunctions statics ∧
      GenuineFunctions methods

/-- A function whose names are no reserved words. -/
def GenuineFunction : FunDecl μ → Prop
  | .mk name params body => name.IsName ∧ (∀ p ∈ params, p.IsName) ∧ GenuineAll body

/-- Genuine statements. -/
def GenuineAll : List (Stmt μ) → Prop
  | [] => True
  | s :: rest => s.Genuine ∧ GenuineAll rest

/-- Genuine functions. -/
def GenuineFunctions : List (FunDecl μ) → Prop
  | [] => True
  | f :: rest => GenuineFunction f ∧ GenuineFunctions rest

end

theorem genuineAll_iff {ss : List (Stmt μ)} : GenuineAll ss ↔ ∀ s ∈ ss, s.Genuine := by
  induction ss with
  | nil => simp [GenuineAll]
  | cons s rest ih => simp [GenuineAll, ih]

theorem genuineFunctions_iff {fs : List (FunDecl μ)} :
    GenuineFunctions fs ↔ ∀ f ∈ fs, GenuineFunction f := by
  induction fs with
  | nil => simp [GenuineFunctions]
  | cons f rest ih => simp [GenuineFunctions, ih]

theorem GenuineFunction.name {f : FunDecl μ} (h : GenuineFunction f) : f.name.IsName := by
  cases f
  exact h.1

theorem GenuineFunction.params {f : FunDecl μ} (h : GenuineFunction f) :
    ∀ p ∈ f.params, p.IsName := by
  cases f
  exact h.2.1

theorem GenuineFunction.body {f : FunDecl μ} (h : GenuineFunction f) : GenuineAll f.body := by
  cases f
  exact h.2.2

/-- The name that a genuine statement declares is no reserved word. -/
theorem isName_declared {s : Stmt μ} (h : s.Genuine) : ∀ t ∈ s.declared?, t.IsName := by
  rintro t ht
  cases s with
  | var | «class» => cases ht; exact h.1
  | function decl => cases ht; exact GenuineFunction.name h
  | _ => cases ht

theorem declared?_number (n : Nat) (s : Stmt μ) :
    (s.number n).1.declared? = s.declared? := by
  cases s with
  | function decl => cases decl; rfl
  | _ => rfl

mutual

theorem genuine_number (n : Nat) : (s : Stmt μ) → s.Genuine → (s.number n).1.Genuine
  | .expression value, h => value.genuine_number n h
  | .print value, h => value.genuine_number n h
  | .var _ _, h => ⟨h.1, Expr.genuine?_number? n h.2⟩
  | .block body, h => genuineAll_numberAll n body h
  | .ifThen condition thenBranch, h =>
    ⟨condition.genuine_number n h.1, genuine_number _ thenBranch h.2.1,
      (declared?_number _ thenBranch).trans h.2.2⟩
  | .ifElse condition thenBranch elseBranch, h =>
    ⟨condition.genuine_number n h.1, genuine_number _ thenBranch h.2.1,
      genuine_number _ elseBranch h.2.2.1, (declared?_number _ thenBranch).trans h.2.2.2.1,
      (declared?_number _ elseBranch).trans h.2.2.2.2⟩
  | .while condition body, h =>
    ⟨condition.genuine_number n h.1, genuine_number _ body h.2.1,
      (declared?_number _ body).trans h.2.2⟩
  | .function decl, h => genuine_numberFunction n decl h
  | .return _ _, h => Expr.genuine?_number? n h
  | .class _ none statics methods, h =>
    ⟨h.1, by simp [Ref.number?], genuine_numberFunctions _ statics h.2.2.1,
      genuine_numberFunctions _ methods h.2.2.2⟩
  | .class _ (some r) statics methods, h =>
    ⟨h.1, by simpa [Ref.number?, Ref.remark] using h.2.1 r rfl,
      genuine_numberFunctions _ statics h.2.2.1, genuine_numberFunctions _ methods h.2.2.2⟩

theorem genuine_numberFunction (n : Nat) :
    (f : FunDecl μ) → GenuineFunction f → GenuineFunction (numberFunction n f).1
  | .mk _ _ body, h => ⟨h.1, h.2.1, genuineAll_numberAll n body h.2.2⟩

theorem genuineAll_numberAll (n : Nat) :
    (ss : List (Stmt μ)) → GenuineAll ss → GenuineAll (numberAll n ss).1
  | [], _ => trivial
  | s :: rest, h => ⟨genuine_number n s h.1, genuineAll_numberAll _ rest h.2⟩

theorem genuine_numberFunctions (n : Nat) :
    (fs : List (FunDecl μ)) → GenuineFunctions fs → GenuineFunctions (numberFunctions n fs).1
  | [], _ => trivial
  | f :: rest, h => ⟨genuine_numberFunction n f h.1, genuine_numberFunctions _ rest h.2⟩

end

/-- A loop declares nothing in the scope that it stands in. -/
theorem declared?_forLoop (first : Option (Stmt μ)) (condition increment : Option (Expr μ))
    (body : Stmt μ) : (forLoop first condition increment body).declared? = none := by
  cases first <;> rfl

theorem genuine_forLoop {first : Option (Stmt μ)} {condition increment : Option (Expr μ)}
    {body : Stmt μ} (hfirst : ∀ s ∈ first, s.Genuine) (hc : Expr.Genuine? condition)
    (hi : Expr.Genuine? increment) (hbody : body.Genuine) (hdecl : body.declared? = none) :
    (forLoop first condition increment body).Genuine := by
  have hcond : (condition.getD (.literal (.bool true))).Genuine := by
    cases condition with
    | none => trivial
    | some e => exact hc
  have hround : (round body increment).Genuine ∧ (round body increment).declared? = none := by
    cases increment with
    | none => exact ⟨hbody, hdecl⟩
    | some e => exact ⟨⟨hbody, hi, trivial⟩, rfl⟩
  cases first with
  | none => exact ⟨hcond, hround⟩
  | some s => exact ⟨hfirst s rfl, ⟨hcond, hround⟩, trivial⟩

end Stmt

end Genuine

/-! ## What tokens write -/

/-- An expression of faithful tokens is genuine. -/
theorem Phrase.genuine {t : Tier} {ts : List Token} {e : Expr Unit} (h : Phrase t ts e)
    (hts : ∀ a ∈ ts, a.Faithful) : e.Genuine := by
  induction h with
  | literal => trivial
  | @this t h => exact (hts t (by simp)).lexeme h
  | @super a _ _ ha => exact (hts a (by simp)).lexeme ha
  | @name t h => exact (hts t (by simp)).isName h
  | group _ _ _ ih | field _ _ _ ih | unary _ _ ih => exact ih fun a ha => hts a (by simp [ha])
  | call _ _ _ _ hcommas _ ih ihargs =>
    simp only [List.forall_mem_append, List.forall_mem_cons] at hts
    refine ⟨ih hts.1, Expr.genuineAll_iff.2 fun e he => ?_⟩
    obtain ⟨x, hx, rfl⟩ := List.mem_map.1 he
    exact ihargs x hx fun a ha => hts.2.2.1 a (hcommas.mem (List.mem_map_of_mem hx) ha)
  | binary _ _ _ _ ih ih' | logical _ _ _ ih ih' | assign _ _ _ ih ih' | setField _ _ _ ih ih' =>
    simp only [List.forall_mem_append, List.forall_mem_cons] at hts
    exact ⟨ih hts.1, ih' hts.2.2⟩
  | ternary _ _ _ _ _ _ ih ih' ih'' =>
    simp only [List.forall_mem_append, List.forall_mem_cons] at hts
    exact ⟨ih hts.1, ih' hts.2.2.1, ih'' hts.2.2.2.2⟩
  | lift _ ih => exact ih hts

theorem Phrase?.genuine {ts : List Token} {e : Option (Expr Unit)} (h : Phrase? ts e)
    (hts : ∀ a ∈ ts, a.Faithful) : Expr.Genuine? e := by
  cases h with
  | absent => trivial
  | present h => exact h.genuine hts

theorem VarSentence.genuine {ts : List Token} {s : Stmt Unit} (h : VarSentence ts s)
    (hts : ∀ a ∈ ts, a.Faithful) : s.Genuine := by
  cases h with
  | mk ha hb hv hc =>
    refine ⟨(hts _ (by simp)).isName hb, ?_⟩
    cases hv with
    | absent => trivial
    | present _ h => exact h.genuine fun a ha => hts a (by simp [ha])

theorem ExpressionSentence.genuine {ts : List Token} {s : Stmt Unit} (h : ExpressionSentence ts s)
    (hts : ∀ a ∈ ts, a.Faithful) : s.Genuine ∧ s.declared? = none := by
  cases h with
  | mk h ha => exact ⟨h.genuine fun a ha => hts a (by simp [ha]), rfl⟩

theorem FirstClause.genuine {ts : List Token} {s : Option (Stmt Unit)} (h : FirstClause ts s)
    (hts : ∀ a ∈ ts, a.Faithful) : ∀ r ∈ s, r.Genuine := by
  rintro r rfl
  cases h with
  | var h => exact h.genuine hts
  | expression h => exact (h.genuine hts).1

/-- What is genuine when tokens are read as a clause. -/
def Clause.Genuine : Clause → Prop
  | .function f => Stmt.GenuineFunction f
  | .statement _ s => s.Genuine ∧ s.declared? = none
  | .declaration s => s.Genuine

/-- What faithful tokens are read as is genuine. By induction on the derivation: what is read as a
statement, and so may stand in a branch, is never itself a declaration. -/
theorem Sentence.genuine {c : Clause} {ts : List Token} (h : Sentence c ts)
    (hts : ∀ a ∈ ts, a.Faithful) : c.Genuine := by
  induction h with
  | expression h => exact h.genuine hts
  | print _ h => exact ⟨h.genuine fun a ha => hts a (by simp [ha]), rfl⟩
  | «return» _ h => exact ⟨h.genuine fun a ha => hts a (by simp [ha]), rfl⟩
  | block _ _ _ ih =>
    simp only [List.forall_mem_append, List.forall_mem_cons] at hts
    exact ⟨Stmt.genuineAll_iff.2 (forall_mem_body ih hts.2.1), rfl⟩
  | ifThen _ _ he _ _ ih | «while» _ _ he _ _ ih =>
    simp only [List.forall_mem_append, List.forall_mem_cons] at hts
    exact ⟨⟨he.genuine hts.2.2.1, ih hts.2.2.2.2⟩, rfl⟩
  | ifElse _ _ he _ _ _ _ ih ih' =>
    simp only [List.forall_mem_append, List.forall_mem_cons] at hts
    obtain ⟨-, -, hcondition, -, hthen, -, helse⟩ := hts
    exact ⟨⟨he.genuine hcondition, (ih hthen).1, (ih' helse).1, (ih hthen).2, (ih' helse).2⟩, rfl⟩
  | «for» _ _ hfirst hcond _ hinc _ _ ih =>
    simp only [List.forall_mem_append, List.forall_mem_cons] at hts
    obtain ⟨-, -, hclause, hcondition, -, hincrement, -, hbody⟩ := hts
    exact ⟨Stmt.genuine_forLoop (hfirst.genuine hclause) (hcond.genuine hcondition)
      (hinc.genuine hincrement) (ih hbody).1 (ih hbody).2, Stmt.declared?_forLoop ..⟩
  | function ha _ hparams _ hcommas _ _ _ _ ih =>
    simp only [List.forall_mem_append, List.forall_mem_cons] at hts
    obtain ⟨hname, -, hlist, -, -, hbody, -⟩ := hts
    refine ⟨hname.isName ha, fun p hp => ?_, Stmt.genuineAll_iff.2 (forall_mem_body ih hbody)⟩
    have hmem := hcommas.mem (List.mem_map_of_mem hp) (List.mem_singleton.2 rfl)
    exact (hlist p hmem).isName (hparams p hp)
  | funDeclaration _ _ ih => exact ih fun a ha => hts a (by simp [ha])
  | varDeclaration h => exact h.genuine hts
  | «class» _ hb hsuper _ _ _ _ ih =>
    simp only [List.forall_mem_append, List.forall_mem_cons] at hts
    obtain ⟨-, hname, hclause, -, hmembers, -⟩ := hts
    have hdecls := Member.forall_mem_entries (P := Stmt.GenuineFunction) fun m hm =>
      ih m hm (Member.forall_mem_tokens hmembers m hm)
    refine ⟨hname.isName hb, fun r hr => ?_, Stmt.genuineFunctions_iff.2 (hdecls _),
      Stmt.genuineFunctions_iff.2 (hdecls _)⟩
    obtain ⟨hmem, hkind⟩ := hsuper.mem_name r hr
    exact (hclause _ hmem).isName hkind
  | statement _ ih => exact (ih hts).1

end Lox
