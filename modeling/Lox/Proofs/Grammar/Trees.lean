import Lox.Proofs.Grammar.Sentence

/-!
# Trees

Whatever the grammar derives is written by a tree: the nonterminals of expressions derive
phrases, those of statements sentences. A repetition is read from the left, and an `else` is
moved to the nearest `if` that can take it.

## Main definitions

* `Written`: the tokens that a tree of a nonterminal writes

## Main results

* `written_of_derivable`: what is derived is written by a tree
-/

namespace Lox.Grammar

section Forms

variable {α : Type} {language : Nonterminal → List Token → Prop} {form : Form}
  {ts : List Token}

@[simp] theorem Form.matches_sym {s : Symbol} :
    (Form.sym s).Matches language ts ↔ ∃ t, ts = [t] ∧ t.isSymbol s := Iff.rfl

@[simp] theorem Form.matches_word {k : Keyword} :
    (Form.word k).Matches language ts ↔ ∃ t, ts = [t] ∧ t.isKeyword k := Iff.rfl

@[simp] theorem Form.matches_name :
    Form.name.Matches language ts ↔ ∃ t, ts = [t] ∧ t.kind = .identifier := by
  simp [Form.name]

/-- A result for each of several lists of tokens. -/
theorem exists_pairs {P : List Token → α → Prop} {parts : List (List Token)}
    (h : ∀ us ∈ parts, ∃ a, P us a) :
    ∃ xs : List (List Token × α), xs.map (·.1) = parts ∧ ∀ x ∈ xs, P x.1 x.2 := by
  induction parts with
  | nil => exact ⟨[], rfl, by simp⟩
  | cons us parts ih =>
    obtain ⟨a, ha⟩ := h us (by simp)
    obtain ⟨xs, hxs, hall⟩ := ih fun vs hv => h vs (by simp [hv])
    exact ⟨(us, a) :: xs, by simp [hxs], by simpa using ⟨ha, fun a b hab => hall _ hab⟩⟩

/-- A repetition as a list of results. -/
theorem Form.Matches.star {P : List Token → α → Prop} (h : (Form.star form).Matches language ts)
    (hpart : ∀ us, form.Matches language us → ∃ a, P us a) :
    ∃ xs : List (List Token × α), ts = (xs.map (·.1)).flatten ∧ ∀ x ∈ xs, P x.1 x.2 := by
  obtain ⟨parts, rfl, hparts⟩ := h
  obtain ⟨xs, rfl, hxs⟩ := exists_pairs fun us hus => hpart us (hparts us hus)
  exact ⟨xs, rfl, hxs⟩

/-- A repetition that goes on from a first result. -/
theorem Form.Matches.foldStar {P : List Token → α → Prop} {us : List Token} {a : α}
    (h : (Form.star form).Matches language us) (hfirst : P ts a)
    (step : ∀ ts us a, P ts a → form.Matches language us → ∃ b, P (ts ++ us) b) :
    ∃ b, P (ts ++ us) b := by
  obtain ⟨parts, rfl, hparts⟩ := h
  -- the first result is kept open: each round is put to the right of all that came before it
  induction parts generalizing ts a with
  | nil => exact ⟨a, by simpa using hfirst⟩
  | cons us parts ih =>
    obtain ⟨b, hb⟩ := step ts us a hfirst (hparts us (by simp))
    obtain ⟨c, hc⟩ := ih hb fun vs hv => hparts vs (by simp [hv])
    exact ⟨c, by simpa using hc⟩

/-- A form and at most `n` more, each after a comma. -/
theorem commas_of_atMost {first us : List Token} {n : Nat}
    (h : (Form.atMost n (.sym .comma ++ form)).Matches language us)
    (hfirst : form.Matches language first) :
    ∃ parts, parts.length ≤ n + 1 ∧ Commas parts (first ++ us) ∧ parts ≠ [] ∧
      ∀ vs ∈ parts, form.Matches language vs := by
  obtain ⟨rounds, hlen, rfl, hrounds⟩ := h
  induction rounds generalizing first n with
  | nil => exact ⟨[first], by simp, by simpa using Commas.one first, by simp, by simpa using hfirst⟩
  | cons round rounds ih =>
    obtain ⟨_, vs, rfl, ⟨c, rfl, hc⟩, hvs⟩ := hrounds round (by simp)
    -- there is a round, so one was allowed, and one fewer is allowed after it
    obtain ⟨m, rfl⟩ : ∃ m, n = m + 1 := ⟨n - 1, by simp at hlen; omega⟩
    obtain ⟨parts, hparts, hcommas, hne, hall⟩ :=
      ih hvs (by simpa using hlen) fun ws hws => hrounds ws (by simp [hws])
    obtain ⟨part, parts, rfl⟩ := List.exists_cons_of_ne_nil hne
    refine ⟨first :: part :: parts, by simpa using hparts, ?_, by simp, ?_⟩
    · simpa using Commas.more first hc hcommas
    · simpa using ⟨hfirst, by simpa using hall⟩

/-- Forms between commas as a list of results. -/
theorem Form.Matches.optList {P : List Token → α → Prop}
    (h : (Form.opt (.list form)).Matches language ts)
    (hpart : ∀ us, form.Matches language us → ∃ a, P us a) :
    ∃ xs : List (List Token × α), xs.length ≤ argumentLimit ∧ Commas (xs.map (·.1)) ts ∧
      ∀ x ∈ xs, P x.1 x.2 := by
  rcases h with rfl | ⟨us, vs, rfl, hus, hvs⟩
  · exact ⟨[], by simp, .none, by simp⟩
  · obtain ⟨parts, hlen, hcommas, -, hall⟩ := commas_of_atMost hvs hus
    obtain ⟨xs, rfl, hxs⟩ := exists_pairs fun us hus => hpart us (hall us hus)
    exact ⟨xs, by simpa [argumentLimit] using hlen, hcommas, hxs⟩

end Forms

/-! ## Trees of nonterminals -/

/-- The tokens that a tree of a nonterminal writes. -/
def Written : Nonterminal → List Token → Prop
  | .program, ts => ∃ (body : List (List Token × Stmt Unit)) (last : Token),
      ts = (body.map (·.1)).flatten ++ [last] ∧ last.isEnd ∧
        ∀ x ∈ body, Sentence (.declaration x.2) x.1
  | .declaration, ts => ∃ s, Sentence (.declaration s) ts
  | .function, ts => ∃ f, Sentence (.function f) ts
  | .varDecl, ts => ∃ s, VarSentence ts s
  | .statement, ts => ∃ o s, Sentence (.statement o s) ts
  | .expr, ts => ∃ e, Phrase .expr ts e
  | .target, ts => ∃ e, e.isTarget ∧ Phrase (.logic .or) ts e
  | .ternary, ts => ∃ e, Phrase .expr ts e
  | .condition, ts => ∃ e, e.isComparison ∧ Phrase (.logic .or) ts e
  | .or, ts => ∃ e, Phrase (.logic .or) ts e
  | .and, ts => ∃ e, Phrase (.logic .and) ts e
  | .equality, ts => ∃ e, Phrase (.level .equality) ts e
  | .comparison, ts => ∃ e, Phrase (.level .comparison) ts e
  | .term, ts => ∃ e, Phrase (.level .term) ts e
  | .factor, ts => ∃ e, Phrase (.level .factor) ts e
  | .unary, ts => ∃ e, Phrase .unary ts e
  | .call, ts => ∃ e, Phrase .call ts e
  | .primary, ts => ∃ e, Phrase .primary ts e

variable {ts us : List Token}

/-! ### Expressions -/

theorem written_primary (h : Nonterminal.primary.form.Matches Written ts) :
    Written .primary ts := by
  simp only [Nonterminal.form, Form.matches_or, Form.matches_append, Form.matches_word,
    Form.matches_sym, Form.matches_name, Form.matches_rule, Form.constant,
    Form.matches_token] at h
  -- the alternatives as the rule lists them: the constants, a literal, `this`, a method of the
  -- superclass, a name and an expression in parentheses
  rcases h with ((((((⟨t, rfl, ht⟩ | ⟨t, rfl, ht⟩) | ⟨t, rfl, ht⟩) | ⟨t, rfl, ht⟩) | ⟨t, rfl, ht⟩) |
    ⟨_, _, rfl, ⟨_, _, rfl, ⟨a, rfl, ha⟩, ⟨b, rfl, hb⟩⟩, ⟨c, rfl, hc⟩⟩) | ⟨t, rfl, ht⟩) |
    ⟨_, _, rfl, ⟨_, _, rfl, ⟨a, rfl, ha⟩, ⟨e, he⟩⟩, ⟨b, rfl, hb⟩⟩
  · exact ⟨_, .literal (v := .bool true) (by simp_all [Token.isKeyword, TokenKind.literal?])⟩
  · exact ⟨_, .literal (v := .bool false) (by simp_all [Token.isKeyword, TokenKind.literal?])⟩
  · exact ⟨_, .literal (v := .nil) (by simp_all [Token.isKeyword, TokenKind.literal?])⟩
  · obtain ⟨v, hv⟩ : ∃ v, t.kind.literal? = some v := by
      unfold TokenKind.literal?
      split at ht <;> simp_all
    exact ⟨_, .literal hv⟩
  · exact ⟨_, .this ht⟩
  · exact ⟨_, .super ha hb hc⟩
  · exact ⟨_, .name ht⟩
  · exact ⟨_, .group ha he hb⟩

theorem written_call (h : Nonterminal.call.form.Matches Written ts) : Written .call ts := by
  obtain ⟨ts, us, rfl, ⟨e, he⟩, hmore⟩ := h
  refine hmore.foldStar (P := Phrase .call) (.lift (t := .call) he) fun ts us e he hus => ?_
  rcases hus with ⟨_, _, rfl, ⟨_, vs, rfl, ⟨a, rfl, ha⟩, hvs⟩, b, rfl, hb⟩ |
    ⟨_, _, rfl, ⟨a, rfl, ha⟩, b, rfl, hb⟩
  · obtain ⟨xs, hlen, hcommas, hxs⟩ := hvs.optList (P := Phrase .expr) fun _ h => h
    exact ⟨_, .call he ha hxs hlen hcommas hb⟩
  · exact ⟨_, .field he ha (by simpa using hb)⟩

theorem written_unary (h : Nonterminal.unary.form.Matches Written ts) : Written .unary ts := by
  rcases h with ⟨_, _, rfl, ⟨a, rfl, ha⟩ | ⟨a, rfl, ha⟩, e, he⟩ | ⟨e, he⟩
  · have hop : a.kind.unaryOp? = some .not := by simp_all [Token.isSymbol, TokenKind.unaryOp?]
    exact ⟨_, .unary hop he⟩
  · have hop : a.kind.unaryOp? = some .negate := by simp_all [Token.isSymbol, TokenKind.unaryOp?]
    exact ⟨_, .unary hop he⟩
  · exact ⟨e, .lift (t := .unary) he⟩

/-- The token of an operator of a level. -/
theorem exists_binaryOp {l : Level} (h : l.operator.Matches Written ts) :
    ∃ a op, ts = [a] ∧ a.kind.binaryOp? = some op ∧ op.level = l := by
  cases l <;>
    simp only [Level.operator, Form.matches_or, Form.matches_sym, Token.isSymbol,
      decide_eq_true_eq] at h
  · rcases h with ⟨a, rfl, ha⟩ | ⟨a, rfl, ha⟩ <;> simp [ha, TokenKind.binaryOp?, BinaryOp.level]
  · rcases h with ((⟨a, rfl, ha⟩ | ⟨a, rfl, ha⟩) | ⟨a, rfl, ha⟩) | ⟨a, rfl, ha⟩ <;>
      simp [ha, TokenKind.binaryOp?, BinaryOp.level]
  · rcases h with ⟨a, rfl, ha⟩ | ⟨a, rfl, ha⟩ <;> simp [ha, TokenKind.binaryOp?, BinaryOp.level]
  · rcases h with ⟨a, rfl, ha⟩ | ⟨a, rfl, ha⟩ <;> simp [ha, TokenKind.binaryOp?, BinaryOp.level]

theorem written_nonterminal {l : Level} :
    Written l.nonterminal ts ↔ ∃ e, Phrase (.level l) ts e := by
  cases l <;> rfl

theorem written_operand {l : Level} :
    Written l.operand ts ↔ ∃ e, Phrase (Tier.level l).below ts e := by
  cases l <;> rfl

theorem written_level {l : Level} (h : l.nonterminal.form.Matches Written ts) :
    Written l.nonterminal ts := by
  rw [l.form_nonterminal] at h
  obtain ⟨ts, us, rfl, hfirst, hmore⟩ := h
  obtain ⟨e, he⟩ := written_operand.1 hfirst
  refine written_nonterminal.2
    (hmore.foldStar (P := Phrase (.level l)) (.lift (t := .level l) he) ?_)
  rintro ts _ e he ⟨_, us, rfl, hop, hus⟩
  obtain ⟨a, op, rfl, ha, hl⟩ := exists_binaryOp hop
  obtain ⟨r, hr⟩ := written_operand.1 hus
  exact ⟨_, .binary he ha hl hr⟩

theorem written_and (h : Nonterminal.and.form.Matches Written ts) : Written .and ts := by
  obtain ⟨ts, us, rfl, ⟨e, he⟩, hmore⟩ := h
  refine hmore.foldStar (P := Phrase (.logic .and)) (.lift (t := .logic .and) he) ?_
  rintro ts _ e he ⟨_, us, rfl, ⟨a, rfl, ha⟩, r, hr⟩
  exact ⟨_, .logical he (by simp_all [Token.isKeyword, TokenKind.logicalOp?]) hr⟩

theorem written_or (h : Nonterminal.or.form.Matches Written ts) : Written .or ts := by
  obtain ⟨ts, us, rfl, ⟨e, he⟩, hmore⟩ := h
  refine hmore.foldStar (P := Phrase (.logic .or)) (.lift (t := .logic .or) he) ?_
  rintro ts _ e he ⟨_, us, rfl, ⟨a, rfl, ha⟩, r, hr⟩
  exact ⟨_, .logical he (by simp_all [Token.isKeyword, TokenKind.logicalOp?]) hr⟩

/-- A phrase of a level as a disjunction. -/
theorem phrase_or_of_level {l : Level} {e : Expr Unit} (h : Phrase (.level l) ts e) :
    Phrase (.logic .or) ts e := by
  have hcomparison : Phrase (.level .comparison) ts e → Phrase (.level .equality) ts e :=
    .lift (t := .level .equality)
  have hterm : Phrase (.level .term) ts e → Phrase (.level .comparison) ts e :=
    .lift (t := .level .comparison)
  have hfactor : Phrase (.level .factor) ts e → Phrase (.level .term) ts e :=
    .lift (t := .level .term)
  refine .lift (t := .logic .or) (.lift (t := .logic .and) ?_)
  cases l with
  | equality => exact h
  | comparison => exact hcomparison h
  | term => exact hcomparison (hterm h)
  | factor => exact hcomparison (hterm (hfactor h))

theorem phrase_or_of_call {e : Expr Unit} (h : Phrase .call ts e) : Phrase (.logic .or) ts e :=
  phrase_or_of_level (l := .factor) (.lift (t := .level .factor) (.lift (t := .unary) h))

theorem phrase_or_of_literal {t : Token} {v : Literal} (h : t.kind.literal? = some v) :
    Phrase (.logic .or) [t] (.literal v) :=
  phrase_or_of_call (.lift (t := .call) (.literal h))

/-- A binary operator as the condition of a conditional. -/
theorem written_condition_binary {l : Level} (hl : ∀ op : BinaryOp, op.level = l → op.isComparison)
    (h : (.rule l.nonterminal ++ l.operator ++ .rule l.operand : Form).Matches Written ts) :
    Written .condition ts := by
  obtain ⟨_, us, rfl, ⟨vs, _, rfl, hv, hop⟩, hr⟩ := h
  obtain ⟨e, he⟩ := written_nonterminal.1 hv
  obtain ⟨a, op, rfl, ha, hlevel⟩ := exists_binaryOp hop
  obtain ⟨r, hr⟩ := written_operand.1 hr
  refine ⟨.binary e op a r, hl op hlevel, ?_⟩
  simpa using phrase_or_of_level (.binary he ha hlevel hr)

theorem written_condition (h : Nonterminal.condition.form.Matches Written ts) :
    Written .condition ts := by
  rcases h with ((⟨t, rfl, ht⟩ | ⟨t, rfl, ht⟩) | h) | h
  · exact ⟨_, rfl, phrase_or_of_literal (v := .bool true)
      (by simp_all [Token.isKeyword, TokenKind.literal?])⟩
  · exact ⟨_, rfl, phrase_or_of_literal (v := .bool false)
      (by simp_all [Token.isKeyword, TokenKind.literal?])⟩
  · exact written_condition_binary (l := .equality) (by simp_all [BinaryOp.isComparison]) h
  · exact written_condition_binary (l := .comparison) (by simp_all [BinaryOp.isComparison]) h

theorem written_target (h : Nonterminal.target.form.Matches Written ts) : Written .target ts := by
  rcases h with h | ⟨_, _, rfl, ⟨us, _, rfl, ⟨e, he⟩, ⟨a, rfl, ha⟩⟩, hname⟩
  · obtain ⟨t, rfl, ht⟩ := Form.matches_name.1 h
    exact ⟨_, rfl, phrase_or_of_call (.lift (t := .call) (.name ht))⟩
  · obtain ⟨b, rfl, hb⟩ := Form.matches_name.1 hname
    exact ⟨.field e b, rfl, by simpa using phrase_or_of_call (.field he ha hb)⟩

theorem written_ternary (h : Nonterminal.ternary.form.Matches Written ts) :
    Written .ternary ts := by
  rcases h with ⟨e, he⟩ | ⟨_, vs, rfl, ⟨_, _, rfl, ⟨_, us, rfl, ⟨_, _, rfl, ⟨c, hc, hcond⟩,
    a, rfl, ha⟩, e, he⟩, b, rfl, hb⟩, r, hr⟩
  · exact ⟨e, .lift (t := .expr) he⟩
  · exact ⟨.ternary a c e r, by simpa using Phrase.ternary hcond hc ha he hb hr⟩

theorem written_expr (h : Nonterminal.expr.form.Matches Written ts) : Written .expr ts := by
  rcases h with ⟨_, us, rfl, ⟨_, _, rfl, ⟨e, he, hphrase⟩, a, rfl, ha⟩, v, hv⟩ | h
  · cases e with
    | «variable» n => exact ⟨.assign n v, by simpa using Phrase.assign hphrase ha hv⟩
    | field o n => exact ⟨.setField o n v, by simpa using Phrase.setField hphrase ha hv⟩
    | _ => cases he
  · exact h

/-! ### Statements -/

theorem phrase?_of_matches (h : (Form.opt (.rule .expr)).Matches Written ts) :
    ∃ v, Phrase? ts v := by
  rcases h with rfl | ⟨e, he⟩
  · exact ⟨none, .absent⟩
  · exact ⟨some e, .present he⟩

theorem announced_of_matches {α : Type} {test : Token → Bool} {form : Form}
    {P : List Token → α → Prop} (h : (Form.opt (.token test ++ form)).Matches Written ts)
    (hpart : ∀ us, form.Matches Written us → ∃ a, P us a) :
    ∃ o, Announced test P ts o := by
  rcases h with rfl | ⟨_, us, rfl, ⟨a, rfl, ha⟩, hus⟩
  · exact ⟨none, .absent⟩
  · obtain ⟨x, hx⟩ := hpart us hus
    exact ⟨some x, .present ha hx⟩

theorem written_varDecl (h : Nonterminal.varDecl.form.Matches Written ts) :
    Written .varDecl ts := by
  obtain ⟨_, _, rfl, ⟨_, us, rfl, ⟨_, _, rfl, ⟨a, rfl, ha⟩, hname⟩, hv⟩, c, rfl, hc⟩ := h
  obtain ⟨b, rfl, hb⟩ := Form.matches_name.1 hname
  obtain ⟨v, hv⟩ := announced_of_matches hv fun _ h => h
  exact ⟨_, .mk ha hb hv hc⟩

theorem written_function (h : Nonterminal.function.form.Matches Written ts) :
    Written .function ts := by
  obtain ⟨_, _, rfl, ⟨_, us, rfl, ⟨_, _, rfl, ⟨_, _, rfl, ⟨_, vs, rfl, ⟨_, _, rfl, hname,
    b, rfl, hb⟩, hparams⟩, c, rfl, hc⟩, d, rfl, hd⟩, hbody⟩, e, rfl, he⟩ := h
  obtain ⟨a, rfl, ha⟩ := Form.matches_name.1 hname
  obtain ⟨xs, hlen, hcommas, hxs⟩ := hparams.optList
    (P := fun us (p : Token) => us = [p] ∧ p.kind = .identifier) fun us hus => by
      simpa using hus
  obtain ⟨body, rfl, hsentences⟩ := hbody.star fun _ h => h
  -- each parameter is written by one token, so what stands between the commas is known
  have hparts : xs.map (·.1) = (xs.map (·.2)).map ([·]) := by
    simpa using fun us p hp => (hxs (us, p) hp).1
  rw [hparts] at hcommas
  refine ⟨.mk a (xs.map (·.2)) (body.map (·.2)), ?_⟩
  simpa using Sentence.function ha hb (by simpa using fun p us hp => (hxs (us, p) hp).2)
    (by simpa using hlen) hcommas hc hd hsentences he

/-- The members of a class. -/
theorem exists_members {us : List Token}
    (h : (Form.star (.opt (.word .classWord) ++ .rule .function)).Matches Written us) :
    ∃ members : List Member, us = (members.map Member.all).flatten ∧
      (∀ m ∈ members, ∀ t ∈ m.marker, t.isKeyword .classWord) ∧
      ∀ m ∈ members, Sentence (.function m.decl) m.tokens := by
  obtain ⟨xs, rfl, hxs⟩ := h.star (P := fun us (m : Member) => us = m.all ∧
    (∀ t ∈ m.marker, t.isKeyword .classWord) ∧ Sentence (.function m.decl) m.tokens) (by
      rintro us ⟨_, vs, rfl, rfl | ⟨a, rfl, ha⟩, f, hf⟩
      · exact ⟨⟨none, vs, f⟩, rfl, by simp, hf⟩
      · exact ⟨⟨some a, vs, f⟩, rfl, by simpa using ha, hf⟩)
  refine ⟨xs.map (·.2), ?_, ?_, ?_⟩
  · rw [List.map_map]
    exact congrArg List.flatten (List.map_congr_left fun x hx => (hxs x hx).1)
  · simpa using fun m us hm => (hxs (us, m) hm).2.1
  · simpa using fun m us hm => (hxs (us, m) hm).2.2

theorem written_declaration (h : Nonterminal.declaration.form.Matches Written ts) :
    Written .declaration ts := by
  rcases h with ((h | ⟨_, us, rfl, ⟨a, rfl, ha⟩, f, hf⟩) | ⟨s, hs⟩) | ⟨o, s, hs⟩
  · obtain ⟨_, _, rfl, ⟨_, us, rfl, ⟨_, _, rfl, ⟨_, vs, rfl, ⟨_, _, rfl, ⟨a, rfl, ha⟩, hname⟩,
      hsuper⟩, c, rfl, hc⟩, hmembers⟩, d, rfl, hd⟩ := h
    obtain ⟨b, rfl, hb⟩ := Form.matches_name.1 hname
    obtain ⟨superclass, hsuper⟩ := announced_of_matches (P := NameSentence) hsuper
      fun us hus => by
        obtain ⟨t, rfl, ht⟩ := Form.matches_name.1 hus
        exact ⟨_, .mk ht⟩
    obtain ⟨members, rfl, hmarker, hfunctions⟩ := exists_members hmembers
    exact ⟨_, by simpa using Sentence.class ha hb hsuper hc hmarker hfunctions hd⟩
  · exact ⟨_, .funDeclaration ha hf⟩
  · exact ⟨s, .varDeclaration hs⟩
  · exact ⟨s, .statement hs⟩

theorem written_expressionStatement
    (h : (.rule .expr ++ .sym .semicolon : Form).Matches Written ts) :
    ∃ s, ExpressionSentence ts s := by
  obtain ⟨_, _, rfl, ⟨e, he⟩, a, rfl, ha⟩ := h
  exact ⟨_, .mk he ha⟩

theorem firstClause_of_matches
    (h : (.sym .semicolon ||| .rule .varDecl ||| .rule .expr ++ .sym .semicolon : Form).Matches
      Written ts) : ∃ first, FirstClause ts first := by
  rcases h with (⟨a, rfl, ha⟩ | ⟨s, hs⟩) | h
  · exact ⟨_, .absent ha⟩
  · exact ⟨_, .var hs⟩
  · obtain ⟨s, hs⟩ := written_expressionStatement h
    exact ⟨_, .expression hs⟩

/-- An `if`: where its branch is open, the `else` moves into it. -/
theorem written_if {a b c : Token} {e : Expr Unit} {us vs : List Token}
    (ha : a.isKeyword .ifWord) (hb : b.isSymbol .leftParen) (he : Phrase .expr ts e)
    (hc : c.isSymbol .rightParen) (hs : Written .statement us)
    (helse : (Form.opt (.word .elseWord ++ .rule .statement)).Matches Written vs) :
    Written .statement (a :: b :: (ts ++ c :: (us ++ vs))) := by
  obtain ⟨o, s, hs⟩ := hs
  rcases helse with rfl | ⟨_, vs, rfl, ⟨d, rfl, hd⟩, o', r, hr⟩
  · exact ⟨true, .ifThen e s, by simpa using Sentence.ifThen ha hb he hc hs⟩
  · cases o with
    | false => exact ⟨o', .ifElse e s r, by simpa using Sentence.ifElse ha hb he hc hs hd hr⟩
    | true =>
      obtain ⟨_, s', hs'⟩ := hs.withElse hd hr
      exact ⟨true, .ifThen e s', by simpa using Sentence.ifThen ha hb he hc hs'⟩

/-- A statement by the alternatives of its rule, in their order; each is taken apart from the
right, as forms that stand side by side associate to the left. -/
theorem written_statement (h : Nonterminal.statement.form.Matches Written ts) :
    Written .statement ts := by
  rcases h with (((((h | h) | h) | h) | h) | h) | h
  · obtain ⟨_, ws, rfl, ⟨_, _, rfl, ⟨_, vs, rfl, ⟨_, _, rfl, ⟨_, us, rfl, ⟨_, ts, rfl, ⟨_, _, rfl,
      ⟨a, rfl, ha⟩, b, rfl, hb⟩, hfirst⟩, hcond⟩, c, rfl, hc⟩, hinc⟩, d, rfl, hd⟩, o, s, hs⟩ := h
    obtain ⟨first, hfirst⟩ := firstClause_of_matches hfirst
    obtain ⟨condition, hcond⟩ := phrase?_of_matches hcond
    obtain ⟨increment, hinc⟩ := phrase?_of_matches hinc
    exact ⟨o, .forLoop first condition increment s, by
      simpa using Sentence.for ha hb hfirst hcond hc hinc hd hs⟩
  · obtain ⟨_, vs, rfl, ⟨_, us, rfl, ⟨_, _, rfl, ⟨_, ts, rfl, ⟨_, _, rfl, ⟨a, rfl, ha⟩, b, rfl, hb⟩,
      e, he⟩, c, rfl, hc⟩, hs⟩, helse⟩ := h
    simpa using written_if ha hb he hc hs helse
  · obtain ⟨_, _, rfl, ⟨_, ts, rfl, ⟨a, rfl, ha⟩, e, he⟩, b, rfl, hb⟩ := h
    exact ⟨_, _, .print ha he hb⟩
  · obtain ⟨_, _, rfl, ⟨_, ts, rfl, ⟨a, rfl, ha⟩, hv⟩, b, rfl, hb⟩ := h
    obtain ⟨v, hv⟩ := phrase?_of_matches hv
    exact ⟨_, _, .return ha hv hb⟩
  · obtain ⟨_, us, rfl, ⟨_, _, rfl, ⟨_, ts, rfl, ⟨_, _, rfl, ⟨a, rfl, ha⟩, b, rfl, hb⟩, e, he⟩,
      c, rfl, hc⟩, o, s, hs⟩ := h
    exact ⟨o, .while e s, by simpa using Sentence.while ha hb he hc hs⟩
  · obtain ⟨_, _, rfl, ⟨_, ts, rfl, ⟨a, rfl, ha⟩, hbody⟩, b, rfl, hb⟩ := h
    obtain ⟨body, rfl, hsentences⟩ := hbody.star fun _ h => h
    exact ⟨_, _, .block ha hsentences hb⟩
  · obtain ⟨s, hs⟩ := written_expressionStatement h
    exact ⟨_, _, .expression hs⟩

theorem written_program (h : Nonterminal.program.form.Matches Written ts) :
    Written .program ts := by
  obtain ⟨_, _, rfl, hbody, last, rfl, hlast⟩ := h
  obtain ⟨body, rfl, hsentences⟩ := hbody.star fun _ h => h
  exact ⟨body, last, rfl, hlast, hsentences⟩

/-- What is made by a rule of parts that are written by trees is written by a tree. -/
theorem written_of_matches (n : Nonterminal) (ts : List Token) (h : n.form.Matches Written ts) :
    Written n ts := by
  cases n with
  | program => exact written_program h
  | declaration => exact written_declaration h
  | function => exact written_function h
  | varDecl => exact written_varDecl h
  | statement => exact written_statement h
  | expr => exact written_expr h
  | target => exact written_target h
  | ternary => exact written_ternary h
  | condition => exact written_condition h
  | or => exact written_or h
  | and => exact written_and h
  | equality => exact written_level (l := .equality) h
  | comparison => exact written_level (l := .comparison) h
  | term => exact written_level (l := .term) h
  | factor => exact written_level (l := .factor) h
  | unary => exact written_unary h
  | call => exact written_call h
  | primary => exact written_primary h

/-- What is derived is written by a tree. -/
theorem written_of_derivable {n : Nonterminal} (h : derivable n ts) : Written n ts :=
  Derives.matches written_of_matches h

end Lox.Grammar
