import Lox.Proofs.Grammar.Productions

/-!
# Phrases

The tokens of an expression together with its tree. Where the rules of the grammar repeat,
phrases associate to the left, so a list of tokens is a phrase with one tree only, and a parser
can be asked for exactly that tree.

## Main definitions

* `Tier`: how tightly a phrase binds
* `Commas`: lists of tokens with commas between them
* `Phrase`: tokens and the expression that they write
* `TokenKind.startsExpression`: the tokens that an expression starts with

## Main results

* `Phrase.starts`: the first token of a phrase
-/

namespace Lox

/-- How tightly an expression binds, from the loosest to the tightest. -/
inductive Tier where
  | expr
  | logic (op : LogicalOp)
  | level (l : Level)
  | unary
  | call
  | primary
  deriving DecidableEq, Repr

namespace Tier

/-- The next tighter tier. -/
def below : Tier → Tier
  | expr => logic .or
  | logic .or => logic .and
  | logic .and => level .equality
  | level .equality => level .comparison
  | level .comparison => level .term
  | level .term => level .factor
  | level .factor => unary
  | unary => call
  | call => primary
  | primary => primary

end Tier

/-- Lists of tokens with commas between them. -/
inductive Commas : List (List Token) → List Token → Prop where
  | none : Commas [] []
  | one (ts : List Token) : Commas [ts] ts
  | more {us : List Token} {parts : List (List Token)} {vs : List Token} {c : Token}
      (ts : List Token) (hc : c.isSymbol .comma) (rest : Commas (us :: parts) vs) :
      Commas (ts :: us :: parts) (ts ++ c :: vs)

/-- Tokens and the expression that they write, on a tier. -/
inductive Phrase : Tier → List Token → Expr Unit → Prop where
  | literal {t : Token} {v : Literal} (h : t.kind.literal? = some v) :
      Phrase .primary [t] (.literal v)
  | this {t : Token} (h : t.isKeyword .thisWord) : Phrase .primary [t] (.this t.ref)
  | super {a b c : Token} (ha : a.isKeyword .superWord) (hb : b.isSymbol .dot)
      (hc : c.kind = .identifier) : Phrase .primary [a, b, c] (.super a.ref c)
  | name {t : Token} (h : t.kind = .identifier) : Phrase .primary [t] (.variable t.ref)
  | group {a b : Token} {ts : List Token} {e : Expr Unit} (ha : a.isSymbol .leftParen)
      (h : Phrase .expr ts e) (hb : b.isSymbol .rightParen) :
      Phrase .primary (a :: (ts ++ [b])) (.group e)
  | field {a b : Token} {ts : List Token} {e : Expr Unit} (h : Phrase .call ts e)
      (ha : a.isSymbol .dot) (hb : b.kind = .identifier) :
      Phrase .call (ts ++ [a, b]) (.field e b)
  | call {a b : Token} {ts us : List Token} {e : Expr Unit}
      {arguments : List (List Token × Expr Unit)} (h : Phrase .call ts e)
      (ha : a.isSymbol .leftParen) (hargs : ∀ x ∈ arguments, Phrase .expr x.1 x.2)
      (hlimit : arguments.length ≤ argumentLimit) (hcommas : Commas (arguments.map (·.1)) us)
      (hb : b.isSymbol .rightParen) :
      Phrase .call (ts ++ a :: (us ++ [b])) (.call e b (arguments.map (·.2)))
  | unary {a : Token} {ts : List Token} {op : UnaryOp} {e : Expr Unit}
      (ha : a.kind.unaryOp? = some op) (h : Phrase .unary ts e) :
      Phrase .unary (a :: ts) (.unary op a e)
  | binary {a : Token} {ts us : List Token} {op : BinaryOp} {l : Level} {e r : Expr Unit}
      (h : Phrase (.level l) ts e) (ha : a.kind.binaryOp? = some op) (hl : op.level = l)
      (hr : Phrase (Tier.level l).below us r) : Phrase (.level l) (ts ++ a :: us) (.binary e op a r)
  | logical {a : Token} {ts us : List Token} {op : LogicalOp} {e r : Expr Unit}
      (h : Phrase (.logic op) ts e) (ha : a.kind.logicalOp? = some op)
      (hr : Phrase (Tier.logic op).below us r) :
      Phrase (.logic op) (ts ++ a :: us) (.logical e op a r)
  | ternary {a b : Token} {ts us vs : List Token} {c e r : Expr Unit}
      (h : Phrase (.logic .or) ts c) (hc : c.isComparison) (ha : a.isSymbol .question)
      (ht : Phrase .expr us e) (hb : b.isSymbol .colon) (hf : Phrase .expr vs r) :
      Phrase .expr (ts ++ a :: (us ++ b :: vs)) (.ternary a c e r)
  | assign {a : Token} {n : Ref Unit} {ts us : List Token} {e : Expr Unit}
      (h : Phrase (.logic .or) ts (.variable n)) (ha : a.isSymbol .equal)
      (hv : Phrase .expr us e) : Phrase .expr (ts ++ a :: us) (.assign n e)
  | setField {a n : Token} {ts us : List Token} {o e : Expr Unit}
      (h : Phrase (.logic .or) ts (.field o n)) (ha : a.isSymbol .equal)
      (hv : Phrase .expr us e) : Phrase .expr (ts ++ a :: us) (.setField o n e)
  | lift {t : Tier} {ts : List Token} {e : Expr Unit} (h : Phrase t.below ts e) : Phrase t ts e

/-- The tokens that an expression without unary operators starts with. -/
def TokenKind.startsCall : TokenKind → Bool
  | keyword .falseWord | keyword .trueWord | keyword .nilWord | keyword .thisWord
  | keyword .superWord | number _ | string _ | identifier | symbol .leftParen => true
  | _ => false

/-- The tokens that an expression starts with. -/
def TokenKind.startsExpression : TokenKind → Bool
  | symbol .minus | symbol .bang => true
  | k => k.startsCall

theorem TokenKind.startsExpression_of_startsCall {k : TokenKind} (h : k.startsCall) :
    k.startsExpression := by
  unfold startsExpression
  split <;> simp_all [startsCall]

theorem TokenKind.unaryOp?_of_startsCall {k : TokenKind} (h : k.startsCall) :
    k.unaryOp? = none := by
  unfold unaryOp?
  split <;> simp_all [startsCall]

theorem TokenKind.startsCall_of_literal? {k : TokenKind} {v : Literal} (h : k.literal? = some v) :
    k.startsCall := by
  unfold literal? at h
  split at h <;> simp_all [startsCall]

theorem TokenKind.startsExpression_of_unaryOp? {k : TokenKind} {op : UnaryOp}
    (h : k.unaryOp? = some op) : k.startsExpression := by
  unfold unaryOp? at h
  split at h <;> simp_all [startsExpression]

theorem Token.kind_of_isSymbol {t : Token} {x : Symbol} (h : t.isSymbol x) : t.kind = .symbol x :=
  of_decide_eq_true h

theorem Token.kind_of_isKeyword {t : Token} {k : Keyword} (h : t.isKeyword k) :
    t.kind = .keyword k :=
  of_decide_eq_true h

/-- A token of a kind that a test excludes is not the token that passed it. -/
theorem Token.isSymbol_eq_false {p : TokenKind → Bool} {t : Token} {x : Symbol}
    (h : p t.kind) (hx : p (.symbol x) = false) : t.isSymbol x = false :=
  decide_eq_false fun hk => by simp_all

theorem Token.isKeyword_eq_false {p : TokenKind → Bool} {t : Token} {k : Keyword}
    (h : p t.kind) (hk : p (.keyword k) = false) : t.isKeyword k = false :=
  decide_eq_false fun hkind => by simp_all

namespace Phrase

variable {t : Tier} {ts : List Token} {e : Expr Unit}

/-- A first token, which no unary operator is on the tightest tiers. -/
def Starts (t : Tier) (ts : List Token) : Prop :=
  ∃ a us, ts = a :: us ∧ a.kind.startsExpression ∧
    (t = .call ∨ t = .primary → a.kind.startsCall)

theorem Starts.primary {a : Token} {us : List Token} (h : a.kind.startsCall) :
    Starts .primary (a :: us) :=
  ⟨a, us, rfl, TokenKind.startsExpression_of_startsCall h, fun _ => h⟩

theorem Starts.append {u : Tier} {us : List Token} (h : Starts t ts)
    (hu : u = .call ∨ u = .primary → t = .call ∨ t = .primary) : Starts u (ts ++ us) := by
  obtain ⟨a, vs, rfl, hs, hc⟩ := h
  exact ⟨a, vs ++ us, rfl, hs, fun h => hc (hu h)⟩

/-- Every phrase starts with a token that starts an expression. -/
theorem starts (h : Phrase t ts e) : Starts t ts := by
  induction h with
  | literal h => exact .primary (TokenKind.startsCall_of_literal? h)
  | this h | super h => exact .primary (by rw [Token.kind_of_isKeyword h]; rfl)
  | group h => exact .primary (by rw [Token.kind_of_isSymbol h]; rfl)
  | name h => exact .primary (by rw [h]; rfl)
  | unary h => exact ⟨_, _, rfl, TokenKind.startsExpression_of_unaryOp? h, by simp⟩
  | field _ _ _ ih | call _ _ _ _ _ _ ih => exact ih.append id
  | binary _ _ _ _ ih | logical _ _ _ ih | assign _ _ _ ih | setField _ _ _ ih
  | ternary _ _ _ _ _ _ ih => exact ih.append (by simp)
  | @lift t ts _ _ ih =>
    rw [← List.append_nil ts]
    refine ih.append ?_
    rintro (rfl | rfl) <;> exact .inr rfl

end Phrase

end Lox
