import Lox.Proofs.Grammar.Phrase

/-!
# Sentences

The tokens of a statement together with its tree. An `else` belongs to the nearest `if` that
has none, so what stands between an `if` and its `else` is not open: it does not end in a
statement that a further `else` would continue. Every statement that the grammar derives can be
read in this way.

## Main definitions

* `Clause`: what a sentence is read as
* `Sentence`: tokens and the statement, the declaration or the function that they write

## Main results

* `Sentence.starts`: the first token of a sentence
* `Sentence.withElse`: an `else` after an open statement
-/

namespace Lox

/-- What tokens are read as: a function, a statement that is open or not, or a declaration. -/
inductive Clause where
  | function (f : FunDecl Unit)
  | statement (isOpen : Bool) (s : Stmt Unit)
  | declaration (s : Stmt Unit)

/-- The tokens of a function in a class, with the word that makes it static. -/
structure Member where
  /-- The word. -/
  marker : Option Token
  /-- The tokens of the function. -/
  tokens : List Token
  /-- The function. -/
  decl : FunDecl Unit

namespace Member

/-- All tokens. -/
def all (m : Member) : List Token := m.marker.toList ++ m.tokens

/-- Whether a member is static, and its function. -/
def entry (m : Member) : Bool × FunDecl Unit := (m.marker.isSome, m.decl)

end Member

/-- An expression that may be absent. -/
inductive Phrase? : List Token → Option (Expr Unit) → Prop where
  | absent : Phrase? [] none
  | present {ts : List Token} {e : Expr Unit} (h : Phrase .expr ts e) : Phrase? ts (some e)

/-- A part that may be absent, after a token that announces it. -/
inductive Announced {α : Type} (announces : Token → Bool) (part : List Token → α → Prop) :
    List Token → Option α → Prop where
  | absent : Announced announces part [] none
  | present {a : Token} {ts : List Token} {x : α} (ha : announces a) (h : part ts x) :
      Announced announces part (a :: ts) (some x)

/-- The declaration of a variable. -/
inductive VarSentence : List Token → Stmt Unit → Prop where
  | mk {a b c : Token} {ts : List Token} {v : Option (Expr Unit)} (ha : a.isKeyword .varWord)
      (hb : b.kind = .identifier) (hv : Announced (·.isSymbol .equal) (Phrase .expr) ts v)
      (hc : c.isSymbol .semicolon) : VarSentence (a :: b :: (ts ++ [c])) (.var b v)

/-- An expression as a statement. -/
inductive ExpressionSentence : List Token → Stmt Unit → Prop where
  | mk {a : Token} {ts : List Token} {e : Expr Unit} (h : Phrase .expr ts e)
      (ha : a.isSymbol .semicolon) : ExpressionSentence (ts ++ [a]) (.expression e)

/-- A name that refers to a variable. -/
inductive NameSentence : List Token → Ref Unit → Prop where
  | mk {t : Token} (h : t.kind = .identifier) : NameSentence [t] t.ref

/-- The first clause of a `for`. -/
inductive FirstClause : List Token → Option (Stmt Unit) → Prop where
  | absent {a : Token} (ha : a.isSymbol .semicolon) : FirstClause [a] none
  | var {ts : List Token} {s : Stmt Unit} (h : VarSentence ts s) : FirstClause ts (some s)
  | expression {ts : List Token} {s : Stmt Unit} (h : ExpressionSentence ts s) :
      FirstClause ts (some s)

/-- Tokens and what they are read as. -/
inductive Sentence : Clause → List Token → Prop where
  | expression {ts : List Token} {s : Stmt Unit} (h : ExpressionSentence ts s) :
      Sentence (.statement false s) ts
  | print {a b : Token} {ts : List Token} {e : Expr Unit} (ha : a.isKeyword .printWord)
      (h : Phrase .expr ts e) (hb : b.isSymbol .semicolon) :
      Sentence (.statement false (.print e)) (a :: (ts ++ [b]))
  | return {a b : Token} {ts : List Token} {v : Option (Expr Unit)}
      (ha : a.isKeyword .returnWord) (h : Phrase? ts v) (hb : b.isSymbol .semicolon) :
      Sentence (.statement false (.return a v)) (a :: (ts ++ [b]))
  | block {a b : Token} {body : List (List Token × Stmt Unit)} (ha : a.isSymbol .leftBrace)
      (h : ∀ x ∈ body, Sentence (.declaration x.2) x.1) (hb : b.isSymbol .rightBrace) :
      Sentence (.statement false (.block (body.map (·.2))))
        (a :: ((body.map (·.1)).flatten ++ [b]))
  | ifThen {a b c : Token} {ts us : List Token} {e : Expr Unit} {o : Bool} {s : Stmt Unit}
      (ha : a.isKeyword .ifWord) (hb : b.isSymbol .leftParen) (he : Phrase .expr ts e)
      (hc : c.isSymbol .rightParen) (hs : Sentence (.statement o s) us) :
      Sentence (.statement true (.ifThen e s)) (a :: b :: (ts ++ c :: us))
  | ifElse {a b c d : Token} {ts us vs : List Token} {e : Expr Unit} {o : Bool} {s r : Stmt Unit}
      (ha : a.isKeyword .ifWord) (hb : b.isSymbol .leftParen) (he : Phrase .expr ts e)
      (hc : c.isSymbol .rightParen) (hs : Sentence (.statement false s) us)
      (hd : d.isKeyword .elseWord) (hr : Sentence (.statement o r) vs) :
      Sentence (.statement o (.ifElse e s r)) (a :: b :: (ts ++ c :: (us ++ d :: vs)))
  | while {a b c : Token} {ts us : List Token} {e : Expr Unit} {o : Bool} {s : Stmt Unit}
      (ha : a.isKeyword .whileWord) (hb : b.isSymbol .leftParen) (he : Phrase .expr ts e)
      (hc : c.isSymbol .rightParen) (hs : Sentence (.statement o s) us) :
      Sentence (.statement o (.while e s)) (a :: b :: (ts ++ c :: us))
  | for {a b c d : Token} {ts us vs ws : List Token} {first : Option (Stmt Unit)}
      {condition increment : Option (Expr Unit)} {o : Bool} {s : Stmt Unit}
      (ha : a.isKeyword .forWord) (hb : b.isSymbol .leftParen) (hfirst : FirstClause ts first)
      (hcond : Phrase? us condition) (hc : c.isSymbol .semicolon) (hinc : Phrase? vs increment)
      (hd : d.isSymbol .rightParen) (hs : Sentence (.statement o s) ws) :
      Sentence (.statement o (.forLoop first condition increment s))
        (a :: b :: (ts ++ (us ++ c :: (vs ++ d :: ws))))
  | function {a b c d e : Token} {params : List Token} {ts : List Token}
      {body : List (List Token × Stmt Unit)} (ha : a.kind = .identifier)
      (hb : b.isSymbol .leftParen) (hparams : ∀ p ∈ params, p.kind = .identifier)
      (hlimit : params.length ≤ argumentLimit) (hcommas : Commas (params.map ([·])) ts)
      (hc : c.isSymbol .rightParen) (hd : d.isSymbol .leftBrace)
      (h : ∀ x ∈ body, Sentence (.declaration x.2) x.1) (he : e.isSymbol .rightBrace) :
      Sentence (.function (.mk a params (body.map (·.2))))
        (a :: b :: (ts ++ c :: d :: ((body.map (·.1)).flatten ++ [e])))
  | funDeclaration {a : Token} {ts : List Token} {f : FunDecl Unit} (ha : a.isKeyword .funWord)
      (h : Sentence (.function f) ts) : Sentence (.declaration (.function f)) (a :: ts)
  | varDeclaration {ts : List Token} {s : Stmt Unit} (h : VarSentence ts s) :
      Sentence (.declaration s) ts
  | class {a b c d : Token} {ts : List Token} {superclass : Option (Ref Unit)}
      {members : List Member} (ha : a.isKeyword .classWord) (hb : b.kind = .identifier)
      (hsuper : Announced (·.isSymbol .less) NameSentence ts superclass)
      (hc : c.isSymbol .leftBrace)
      (hmarker : ∀ m ∈ members, ∀ t ∈ m.marker, t.isKeyword .classWord)
      (h : ∀ m ∈ members, Sentence (.function m.decl) m.tokens) (hd : d.isSymbol .rightBrace) :
      Sentence (.declaration (.class b superclass
          (((members.map Member.entry).filter (·.1)).map (·.2))
          (((members.map Member.entry).filter (!·.1)).map (·.2))))
        (a :: b :: (ts ++ c :: ((members.map Member.all).flatten ++ [d])))
  | statement {ts : List Token} {o : Bool} {s : Stmt Unit} (h : Sentence (.statement o s) ts) :
      Sentence (.declaration s) ts

/-! ## Parts of sentences -/

section Parts

variable {P : FunDecl Unit → Prop} {Q : Token → Prop} {members : List Member}

theorem Commas.mem {parts : List (List Token)} {ts us : List Token} {t : Token}
    (h : Commas parts ts) (hus : us ∈ parts) (ht : t ∈ us) : t ∈ ts := by
  induction h with
  | none => cases hus
  | one => simp_all
  | more vs hc rest ih =>
    rcases List.mem_cons.1 hus with rfl | hus
    · simp [ht]
    · simp [ih hus]

/-- The name of a superclass is one of the tokens that write it. -/
theorem Announced.mem_name {announces : Token → Bool} {ts : List Token}
    {superclass : Option (Ref Unit)} (h : Announced announces NameSentence ts superclass) :
    ∀ r ∈ superclass, r.token ∈ ts ∧ r.token.kind = .identifier := by
  rintro r rfl
  cases h with
  | present _ h =>
    cases h with
    | @mk t h => exact ⟨List.mem_cons_of_mem _ List.mem_cons_self, h⟩

/-- What holds of all tokens of a body holds of those of each statement. -/
theorem forall_mem_body {P : Stmt Unit → Prop} {body : List (List Token × Stmt Unit)}
    (h : ∀ x ∈ body, (∀ a ∈ x.1, Q a) → P x.2) (hts : ∀ a ∈ (body.map (·.1)).flatten, Q a) :
    ∀ s ∈ body.map (·.2), P s := by
  intro s hs
  obtain ⟨x, hx, rfl⟩ := List.mem_map.1 hs
  exact h x hx fun a ha => hts a (List.mem_flatten.2 ⟨x.1, List.mem_map_of_mem hx, ha⟩)

/-- What holds of all tokens in a class holds of those of each function. -/
theorem Member.forall_mem_tokens (hts : ∀ a ∈ (members.map Member.all).flatten, Q a) :
    ∀ m ∈ members, ∀ a ∈ m.tokens, Q a := fun m hm a ha =>
  hts a (List.mem_flatten.2 ⟨m.all, List.mem_map_of_mem hm, List.mem_append_right _ ha⟩)

/-- The static functions of a class, or the others, are functions of its members. -/
theorem Member.forall_mem_entries (h : ∀ m ∈ members, P m.decl) (p : Bool × FunDecl Unit → Bool) :
    ∀ f ∈ ((members.map Member.entry).filter p).map (·.2), P f := by
  intro f hf
  simp only [List.mem_map, List.mem_filter] at hf
  obtain ⟨_, ⟨⟨m, hm, rfl⟩, -⟩, rfl⟩ := hf
  exact h m hm

end Parts

/-! ## First tokens -/

/-- The tokens that a statement starts with. -/
def TokenKind.startsSentence : TokenKind → Bool
  | keyword .forWord | keyword .ifWord | keyword .printWord | keyword .returnWord
  | keyword .whileWord | symbol .leftBrace => true
  | k => k.startsExpression

/-- The tokens that a declaration starts with. -/
def TokenKind.startsDeclaration : TokenKind → Bool
  | keyword .classWord | keyword .funWord | keyword .varWord => true
  | k => k.startsSentence

/-- The tokens that what is read as a clause starts with. -/
def Clause.startsWith : Clause → TokenKind → Bool
  | .function _, k => k = .identifier
  | .statement .., k => k.startsSentence
  | .declaration _, k => k.startsDeclaration

theorem TokenKind.startsSentence_of_startsExpression {k : TokenKind} (h : k.startsExpression) :
    k.startsSentence := by
  unfold startsSentence
  split <;> simp_all

theorem TokenKind.startsDeclaration_of_startsSentence {k : TokenKind} (h : k.startsSentence) :
    k.startsDeclaration := by
  unfold startsDeclaration
  split <;> simp_all

theorem ExpressionSentence.starts {ts : List Token} {s : Stmt Unit}
    (h : ExpressionSentence ts s) : ∃ a us, ts = a :: us ∧ a.kind.startsExpression := by
  cases h with
  | mk h ha =>
    obtain ⟨a, us, rfl, hstart, -⟩ := h.starts
    exact ⟨a, _, rfl, hstart⟩

namespace Sentence

/-- The first token of a sentence. -/
theorem starts {c : Clause} {ts : List Token} (h : Sentence c ts) :
    ∃ a us, ts = a :: us ∧ c.startsWith a.kind := by
  induction h with
  | expression h =>
    obtain ⟨a, us, rfl, hstart⟩ := h.starts
    exact ⟨a, us, rfl, TokenKind.startsSentence_of_startsExpression hstart⟩
  | print ha | «return» ha | ifThen ha | ifElse ha | «while» ha | «for» ha =>
    exact ⟨_, _, rfl, by rw [Token.kind_of_isKeyword ha]; rfl⟩
  | block ha => exact ⟨_, _, rfl, by rw [Token.kind_of_isSymbol ha]; rfl⟩
  | function ha => exact ⟨_, _, rfl, by simp [Clause.startsWith, ha]⟩
  | funDeclaration ha | «class» ha => exact ⟨_, _, rfl, by rw [Token.kind_of_isKeyword ha]; rfl⟩
  | varDeclaration h =>
    cases h with
    | mk ha => exact ⟨_, _, rfl, by rw [Token.kind_of_isKeyword ha]; rfl⟩
  | statement _ ih =>
    obtain ⟨a, us, rfl, hstart⟩ := ih
    exact ⟨a, us, rfl, TokenKind.startsDeclaration_of_startsSentence hstart⟩

/-- An `else` after an open statement belongs to the nearest `if` without one. By induction on the
statement: the `else` moves into its last branch or body until it meets an `if` whose branch is
not open. Whether the whole is open then, depends on the branch that the `else` brings. -/
theorem withElse {ts us : List Token} {s r : Stmt Unit} {d : Token} {o : Bool}
    (h : Sentence (.statement true s) ts) (hd : d.isKeyword .elseWord)
    (hr : Sentence (.statement o r) us) :
    ∃ o' s', Sentence (.statement o' s') (ts ++ d :: us) := by
  generalize hc : Clause.statement true s = c at h
  induction h generalizing s with
  | @ifThen a b c ts vs e o' s' ha hb he hc' hs ih =>
    cases o' with
    | false => exact ⟨o, .ifElse e s' r, by simpa using Sentence.ifElse ha hb he hc' hs hd hr⟩
    | true =>
      obtain ⟨o', s', h⟩ := ih rfl
      exact ⟨true, .ifThen e s', by simpa using Sentence.ifThen ha hb he hc' h⟩
  | @ifElse _ _ _ _ _ _ _ e _ s' _ ha hb he hc' hs hd' _ _ ih =>
    cases hc
    obtain ⟨o', r', h⟩ := ih rfl
    exact ⟨o', .ifElse e s' r', by simpa using Sentence.ifElse ha hb he hc' hs hd' h⟩
  | @«while» _ _ _ _ _ e _ _ ha hb he hc' _ ih =>
    cases hc
    obtain ⟨o', s', h⟩ := ih rfl
    exact ⟨o', .while e s', by simpa using Sentence.while ha hb he hc' h⟩
  | @«for» _ _ _ _ _ _ _ _ first condition increment _ _ ha hb hf hcond hc' hinc hd' _ ih =>
    cases hc
    obtain ⟨o', s', h⟩ := ih rfl
    exact ⟨o', .forLoop first condition increment s', by
      simpa using Sentence.for ha hb hf hcond hc' hinc hd' h⟩
  | expression | print | «return» | block | function | funDeclaration | varDeclaration | «class»
  | statement => cases hc

end Sentence

end Lox
