import Lox.Parser.Expression
import Lox.Proofs.Grammar.Rules

/-!
# Productions

What the rules of the grammar allow, one alternative at a time: from what the parts derive to
what the whole derives. The repetitions of a rule are also given one round at a time, which is
how a loop builds them up.

## Main definitions

* `Expr.isTarget`: the expressions that may be assigned to
* `Level.nonterminal`, `Level.operand`: the nonterminals of a level of binary operators

## Main results

* `derivable_expr_assign`, `derivable_statement_for` and their like: the alternatives
* `derivable_more`: one more round
-/

namespace Lox

/-- Whether an expression may be assigned to. -/
def Expr.isTarget {μ : Type} : Expr μ → Bool
  | .variable _ | .field .. => true
  | _ => false

end Lox

namespace Lox.Grammar

variable {ts us vs ws : List Token} {t a b c d : Token}

theorem Derives.append {f g : Form} (hf : Derives f ts) (hg : Derives g us) :
    Derives (f ++ g) (ts ++ us) := .seq hf hg

/-- One more round of a repetition, at its end. -/
theorem Derives.snoc {form : Form} (h : Derives (.star form) ts) (last : Derives form us) :
    Derives (.star form) (ts ++ us) := by
  generalize hs : Form.star form = s at h
  induction h with
  | none =>
    cases hs
    simpa using Derives.more last .none
  | more first _ _ ih =>
    cases hs
    rw [List.append_assoc]
    exact .more first (ih rfl)
  | token | rule | seq | left | right | absent | present | noneOf | moreOf => cases hs

/-- One more round of a rule that is a form and a repetition. -/
theorem derivable_more {n : Nonterminal} {first more : Form} (hn : n.form = first ++ .star more)
    (h : derivable n ts) (hm : Derives more us) : derivable n (ts ++ us) := by
  cases h with
  | rule h =>
    rw [hn] at h
    cases h with
    | seq hfirst hmore =>
      rw [List.append_assoc]
      exact .rule (hn ▸ .seq hfirst (hmore.snoc hm))

/-- No round of a rule that is a form and a repetition. -/
theorem derivable_once {n : Nonterminal} {first more : Form} (hn : n.form = first ++ .star more)
    (h : Derives first ts) : derivable n ts := by
  rw [← List.append_nil ts]
  exact .rule (hn ▸ .seq h .none)

/-! ## Tokens -/

theorem Derives.sym {s : Symbol} (h : t.isSymbol s) : Derives (.sym s) [t] := .token h

theorem Derives.word {k : Keyword} (h : t.isKeyword k) : Derives (.word k) [t] := .token h

theorem Derives.name (h : t.kind = .identifier) : Derives .name [t] := .token (by simpa using h)

/-! ## Expressions -/

theorem derivable_primary_literal {v : Literal} (h : t.kind.literal? = some v) :
    derivable .primary [t] := by
  obtain ⟨kind, lexeme, line, column⟩ := t
  rw [derivable_iff]
  simp only [Nonterminal.form, Form.matches_or, Form.word, Form.constant, Form.matches_token,
    Token.isKeyword]
  cases kind with
  | keyword k => cases k <;> simp_all [TokenKind.literal?]
  | number | string => simp
  | symbol | identifier | endOfInput => simp [TokenKind.literal?] at h

theorem derivable_primary_this (h : t.isKeyword .thisWord) : derivable .primary [t] :=
  .rule (.left (.left (.left (.right (.word h)))))

theorem derivable_primary_super (ha : a.isKeyword .superWord) (hb : b.isSymbol .dot)
    (hc : c.kind = .identifier) : derivable .primary [a, b, c] :=
  .rule (.left (.left (.right (.seq (.seq (.word ha) (.sym hb)) (.name hc)))))

theorem derivable_primary_name (h : t.kind = .identifier) : derivable .primary [t] :=
  .rule (.left (.right (.name h)))

theorem derivable_primary_group (ha : a.isSymbol .leftParen) (h : derivable .expr ts)
    (hb : b.isSymbol .rightParen) : derivable .primary (a :: (ts ++ [b])) :=
  .rule (.right (.seq (.seq (.sym ha) h) (.sym hb)))

theorem derivable_call_primary (h : derivable .primary ts) : derivable .call ts :=
  derivable_once rfl h

theorem derivable_call_arguments (h : derivable .call ts) (ha : a.isSymbol .leftParen)
    (hargs : Derives (.opt (.list (.rule .expr))) us) (hb : b.isSymbol .rightParen) :
    derivable .call (ts ++ a :: (us ++ [b])) :=
  derivable_more rfl h (.left (.seq (.seq (.sym ha) hargs) (.sym hb)))

theorem derivable_call_property (h : derivable .call ts) (ha : a.isSymbol .dot)
    (hb : b.kind = .identifier) : derivable .call (ts ++ [a, b]) :=
  derivable_more rfl h (.right (.seq (.sym ha) (.name hb)))

theorem derivable_unary_call (h : derivable .call ts) : derivable .unary ts := .rule (.right h)

theorem derivable_unary_operator {op : UnaryOp} (ha : a.kind.unaryOp? = some op)
    (h : derivable .unary ts) : derivable .unary (a :: ts) := by
  refine .rule (.left (.seq (u := [a]) ?_ h))
  unfold TokenKind.unaryOp? at ha
  split at ha
  · next hk => exact .right (.token (by simp [Token.isSymbol, hk]))
  · next hk => exact .left (.token (by simp [Token.isSymbol, hk]))
  · cases ha

end Lox.Grammar

namespace Lox.Level

open Grammar

/-- What the chains of a level are. -/
def nonterminal : Level → Nonterminal
  | equality => .equality
  | comparison => .comparison
  | term => .term
  | factor => .factor

/-- What the operands of a level are. -/
def operand : Level → Nonterminal
  | equality => .comparison
  | comparison => .term
  | term => .factor
  | factor => .unary

/-- The operators of a level. -/
def operator : Level → Form
  | equality => .sym .equalEqual ||| .sym .bangEqual
  | comparison => .sym .less ||| .sym .lessEqual ||| .sym .greater ||| .sym .greaterEqual
  | term => .sym .plus ||| .sym .minus
  | factor => .sym .star ||| .sym .slash

theorem form_nonterminal (l : Level) :
    l.nonterminal.form = .rule l.operand ++ .star (l.operator ++ .rule l.operand) := by
  cases l <;> rfl

/-- A token that writes an operator is one of the operators of its level. -/
theorem derives_operator {t : Token} {op : BinaryOp} (h : t.kind.binaryOp? = some op) :
    Derives op.level.operator [t] := by
  rw [derives_iff]
  unfold TokenKind.binaryOp? at h
  split at h <;>
    first
    | cases h
      simp_all [BinaryOp.level, operator, Form.sym, Token.isSymbol]
    | cases h

end Lox.Level

namespace Lox.Grammar

variable {ts us vs ws : List Token} {t a b c d e : Token} {op : BinaryOp}

theorem derivable_level_operand (l : Level) (h : derivable l.operand ts) :
    derivable l.nonterminal ts :=
  derivable_once l.form_nonterminal h

theorem derivable_level_more {l : Level} (h : derivable l.nonterminal ts)
    (ha : a.kind.binaryOp? = some op) (hop : op.level = l) (hr : derivable l.operand us) :
    derivable l.nonterminal (ts ++ a :: us) := by
  subst hop
  exact derivable_more op.level.form_nonterminal h
    (.seq (u := [a]) (Level.derives_operator ha) hr)

theorem derivable_condition_literal {v : Bool} (h : t.kind.literal? = some (.bool v)) :
    derivable .condition [t] := by
  unfold TokenKind.literal? at h
  split at h
  · next hk => exact .rule (.left (.left (.right (.token (by simp [Token.isKeyword, hk])))))
  · next hk => exact .rule (.left (.left (.left (.token (by simp [Token.isKeyword, hk])))))
  all_goals cases h

theorem derivable_condition_binary (h : derivable op.level.nonterminal ts)
    (ha : a.kind.binaryOp? = some op) (hop : op.isComparison) (hr : derivable op.level.operand us) :
    derivable .condition (ts ++ a :: us) := by
  have hsign := Level.derives_operator ha
  rw [← List.singleton_append, ← List.append_assoc]
  cases hl : op.level with
  | equality =>
    rw [hl] at h hr hsign
    exact .rule (.left (.right (.seq (.seq h hsign) hr)))
  | comparison =>
    rw [hl] at h hr hsign
    exact .rule (.right (.seq (.seq h hsign) hr))
  | term | factor => simp [BinaryOp.isComparison, hl] at hop

theorem derivable_and_equality (h : derivable .equality ts) : derivable .and ts :=
  derivable_once rfl h

theorem isKeyword_and (h : t.kind.logicalOp? = some .and) : t.isKeyword .andWord := by
  unfold TokenKind.logicalOp? at h
  split at h <;> simp_all [Token.isKeyword]

theorem isKeyword_or (h : t.kind.logicalOp? = some .or) : t.isKeyword .orWord := by
  unfold TokenKind.logicalOp? at h
  split at h <;> simp_all [Token.isKeyword]

theorem derivable_and_more (h : derivable .and ts) (ha : a.kind.logicalOp? = some .and)
    (hr : derivable .equality us) : derivable .and (ts ++ a :: us) :=
  derivable_more rfl h (.seq (.word (isKeyword_and ha)) hr)

theorem derivable_or_and (h : derivable .and ts) : derivable .or ts := derivable_once rfl h

theorem derivable_or_more (h : derivable .or ts) (ha : a.kind.logicalOp? = some .or)
    (hr : derivable .and us) : derivable .or (ts ++ a :: us) :=
  derivable_more rfl h (.seq (.word (isKeyword_or ha)) hr)

theorem derivable_ternary_or (h : derivable .or ts) : derivable .ternary ts := .rule (.left h)

theorem derivable_ternary_choice (h : derivable .condition ts) (ha : a.isSymbol .question)
    (ht : derivable .expr us) (hb : b.isSymbol .colon) (hf : derivable .expr vs) :
    derivable .ternary (ts ++ a :: (us ++ b :: vs)) := by
  have := (((Derives.append h (.sym ha)).append ht).append (.sym hb)).append hf
  exact .rule (.right (by simpa using this))

theorem derivable_target_name (h : t.kind = .identifier) : derivable .target [t] :=
  .rule (.left (.name h))

theorem derivable_target_property (h : derivable .call ts) (ha : a.isSymbol .dot)
    (hb : b.kind = .identifier) : derivable .target (ts ++ [a, b]) := by
  have := (Derives.append h (.sym ha)).append (.name hb)
  exact .rule (.right (by simpa using this))

theorem derivable_expr_assign (h : derivable .target ts) (ha : a.isSymbol .equal)
    (hv : derivable .expr us) : derivable .expr (ts ++ a :: us) := by
  have := (Derives.append h (.sym ha)).append hv
  exact .rule (.left (by simpa using this))

theorem derivable_expr_ternary (h : derivable .ternary ts) : derivable .expr ts :=
  .rule (.right h)

/-! ## Statements -/

theorem derivable_varDecl (ha : a.isKeyword .varWord) (hb : b.kind = .identifier)
    (hv : Derives (.opt (.sym .equal ++ .rule .expr)) ts) (hc : c.isSymbol .semicolon) :
    derivable .varDecl (a :: b :: (ts ++ [c])) :=
  .rule ((((Derives.word ha).append (.name hb)).append hv).append (.sym hc))

theorem derivable_function (ha : a.kind = .identifier) (hb : b.isSymbol .leftParen)
    (hp : Derives (.opt (.list .name)) ts) (hc : c.isSymbol .rightParen)
    (hd : d.isSymbol .leftBrace) (hbody : Derives (.star (.rule .declaration)) us)
    (he : e.isSymbol .rightBrace) :
    derivable .function (a :: b :: (ts ++ c :: d :: (us ++ [e]))) := by
  have := ((((((Derives.name ha).append (.sym hb)).append hp).append (.sym hc)).append
    (.sym hd)).append hbody).append (.sym he)
  exact .rule (by simpa [Nonterminal.form] using this)

theorem derivable_declaration_class (ha : a.isKeyword .classWord) (hb : b.kind = .identifier)
    (hs : Derives (.opt (.sym .less ++ .name)) ts) (hc : c.isSymbol .leftBrace)
    (hm : Derives (.star (.opt (.word .classWord) ++ .rule .function)) us)
    (hd : d.isSymbol .rightBrace) :
    derivable .declaration (a :: b :: (ts ++ c :: (us ++ [d]))) := by
  have := (((((Derives.word ha).append (.name hb)).append hs).append (.sym hc)).append hm).append
    (.sym hd)
  exact .rule (.left (.left (.left (by simpa using this))))

theorem derivable_declaration_fun (ha : a.isKeyword .funWord) (h : derivable .function ts) :
    derivable .declaration (a :: ts) :=
  .rule (.left (.left (.right (.seq (.word ha) h))))

theorem derivable_declaration_var (h : derivable .varDecl ts) : derivable .declaration ts :=
  .rule (.left (.right h))

theorem derivable_declaration_statement (h : derivable .statement ts) :
    derivable .declaration ts :=
  .rule (.right h)

theorem derivable_statement_for (ha : a.isKeyword .forWord) (hb : b.isSymbol .leftParen)
    (hi : Derives (.sym .semicolon ||| .rule .varDecl ||| (.rule .expr ++ .sym .semicolon)) ts)
    (hcond : Derives (.opt (.rule .expr)) us) (hc : c.isSymbol .semicolon)
    (hinc : Derives (.opt (.rule .expr)) vs) (hd : d.isSymbol .rightParen)
    (hbody : derivable .statement ws) :
    derivable .statement (a :: b :: (ts ++ (us ++ c :: (vs ++ d :: ws)))) := by
  have := (((((((Derives.word ha).append (.sym hb)).append hi).append hcond).append
    (.sym hc)).append hinc).append (.sym hd)).append hbody
  exact .rule (.left (.left (.left (.left (.left (.left (by simpa using this)))))))

theorem derivable_statement_if (ha : a.isKeyword .ifWord) (hb : b.isSymbol .leftParen)
    (hcond : derivable .expr ts) (hc : c.isSymbol .rightParen) (ht : derivable .statement us)
    (helse : Derives (.opt (.word .elseWord ++ .rule .statement)) vs) :
    derivable .statement (a :: b :: (ts ++ c :: (us ++ vs))) := by
  have := (((((Derives.word ha).append (.sym hb)).append hcond).append (.sym hc)).append ht).append
    helse
  exact .rule (.left (.left (.left (.left (.left (.right (by simpa using this)))))))

theorem derivable_statement_print (ha : a.isKeyword .printWord) (h : derivable .expr ts)
    (hb : b.isSymbol .semicolon) : derivable .statement (a :: (ts ++ [b])) :=
  .rule (.left (.left (.left (.left (.right (((Derives.word ha).append h).append (.sym hb)))))))

theorem derivable_statement_return (ha : a.isKeyword .returnWord)
    (h : Derives (.opt (.rule .expr)) ts) (hb : b.isSymbol .semicolon) :
    derivable .statement (a :: (ts ++ [b])) :=
  .rule (.left (.left (.left (.right (((Derives.word ha).append h).append (.sym hb))))))

theorem derivable_statement_while (ha : a.isKeyword .whileWord) (hb : b.isSymbol .leftParen)
    (hcond : derivable .expr ts) (hc : c.isSymbol .rightParen) (hbody : derivable .statement us) :
    derivable .statement (a :: b :: (ts ++ c :: us)) := by
  have := ((((Derives.word ha).append (.sym hb)).append hcond).append (.sym hc)).append hbody
  exact .rule (.left (.left (.right (by simpa using this))))

theorem derivable_statement_block (ha : a.isSymbol .leftBrace)
    (h : Derives (.star (.rule .declaration)) ts) (hb : b.isSymbol .rightBrace) :
    derivable .statement (a :: (ts ++ [b])) :=
  .rule (.left (.right (((Derives.sym ha).append h).append (.sym hb))))

end Lox.Grammar
