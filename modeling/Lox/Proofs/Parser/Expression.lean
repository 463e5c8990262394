import Lox.Proofs.Grammar.Productions
import Lox.Proofs.Parser.Reading

/-!
# What the parsers of expressions read

Without a report, the parser of each level of expressions reads what the nonterminal of that
level derives. Two levels look at the expression that was read and not at its tokens: the
target of an assignment and the condition of a conditional. So what a parser reads also tells
which expressions are read from targets and from conditions.

## Main definitions

* `Shaped`: the expressions that are read from targets and from conditions
* `Forms`: an expression of a nonterminal

## Main results

* `Alike.assignment`: expressions are read alike where the expressions nested in them are
* `nested_expression`: what the parser of expressions reads
* `expression_eq`: expressions without their budget
-/

namespace Lox

open Grammar

namespace Parser

/-- An expression that looks like a condition or like a target is read from one. -/
structure Shaped (ts : List Token) (e : Parsed) : Prop where
  /-- Conditions. -/
  condition : e.isComparison → derivable .condition ts
  /-- Targets. -/
  target : e.isTarget → derivable .target ts

/-- Tokens that a nonterminal derives and an expression that fits them. -/
def Forms (n : Nonterminal) (ts : List Token) (e : Parsed) : Prop := derivable n ts ∧ Shaped ts e

theorem Shaped.plain {ts : List Token} {e : Parsed} (hc : e.isComparison = false)
    (ht : e.isTarget = false) : Shaped ts e :=
  ⟨by simp [hc], by simp [ht]⟩

/-- Results that take at least one token. -/
abbrev one {α : Type} (_ : α) : Nat := 1

variable {n : Nat} {m m' : Parser Parsed}

/-- The parsers of nested expressions read alike below a length. -/
abbrev Nested (n : Nat) (m m' : Parser Parsed) : Prop :=
  Alike n one (fun us _ => derivable .expr us) m m'

/-! ## Primary expressions and calls -/

theorem Alike.superMethod {t : Token} (ht : t.isKeyword .superWord) :
    Alike n (fun _ => 0) (fun us e => Forms .primary (t :: us) e) (superMethod t)
      (superMethod t) := by
  refine .expect fun a ha => .expect fun b hb => .pure rfl ?_
  exact ⟨derivable_primary_super ht ha (by simpa using hb), .plain rfl rfl⟩

theorem Alike.grouped {t : Token} (ht : t.isSymbol .leftParen) (h : Nested n m m') :
    Alike n (fun _ => 0) (fun us e => Forms .primary (t :: us) e) (grouped m) (grouped m') := by
  refine h.bind fun e => .expect fun a ha => .pure rfl ?_
  exact fun ts hts => ⟨derivable_primary_group ht hts ha, .plain rfl rfl⟩

theorem Alike.primary (h : Nested n m m') :
    Alike (n + 1) one (Forms .primary) (primary m) (primary m') := by
  refine .acceptMap? (fun t v hv => .pure rfl ?_) <| .accept? (fun t ht => .pure rfl ?_) <|
    .accept? (fun t ht => ?_) <| .accept? (fun t ht => .pure rfl ?_) <|
    .accept (fun t ht => ?_) <| .current fun _ => .fail
  · refine ⟨derivable_primary_literal hv, ?_, by simp [Expr.isTarget]⟩
    cases v with
    | bool b => exact fun _ => derivable_condition_literal hv
    | nil | number | string => simp [Expr.isComparison]
  · exact ⟨derivable_primary_this ht, .plain rfl rfl⟩
  · exact Alike.superMethod ht
  · have hname : t.kind = .identifier := by simpa using ht
    exact ⟨derivable_primary_name hname, by simp [Expr.isComparison],
      fun _ => derivable_target_name hname⟩
  · exact Alike.grouped ht h

theorem Alike.finishCall {t : Token} (ht : t.isSymbol .leftParen) (h : Nested n m m')
    (e : Parsed) :
    Alike n (fun _ => 0) (fun us x => ∀ ts, Forms .call ts e → Forms .call (ts ++ t :: us) x)
      (finishCall m e) (finishCall m' e) := by
  refine (Alike.separated h).bind fun as => .expect fun a ha => .pure rfl ?_
  intro us hus ts hts
  exact ⟨derivable_call_arguments hts.1 ht hus ha, .plain rfl rfl⟩

theorem Alike.callStep (h : Nested n m m') (e : Parsed) :
    Alike (n + 1) taken (Keeps (Forms .call) e) (callStep m e) (callStep m' e) := by
  refine .accept (fun t ht => ?_) <| .accept (fun t ht => ?_) <| .pure rfl rfl
  · refine (Alike.finishCall ht h e).bind fun x => .pure rfl ?_
    intro us hus ts hts
    simpa using hus ts hts
  · refine .expect fun a ha => .pure rfl ?_
    intro ts hts
    have hname : a.kind = .identifier := by simpa using ha
    exact ⟨derivable_call_property hts.1 ht hname, by simp [Expr.isComparison],
      fun _ => derivable_target_property hts.1 ht hname⟩

theorem Alike.call (h : Nested n m m') :
    Alike (n + 1) one (Forms .call) (call m) (call m') := by
  refine (Alike.primary h).bind fun e => ?_
  refine (Alike.iterate (Alike.callStep h) e).mono (by simp) (fun _ => by simp) ?_
  exact fun us x hx ts hts => hx ts ⟨derivable_call_primary hts.1, hts.2⟩

/-! ## Operators -/

/-- Unary operators that wait for their operand. -/
def Prefixed (us : List Token) (ops : List (UnaryOp × Token)) : Prop :=
  ∀ ts e, Forms .unary ts e →
    Forms .unary (us ++ ts) (ops.foldl (fun e op => .unary op.1 op.2 e) e)

theorem alike_unaryStep (ops : List (UnaryOp × Token)) :
    Alike n taken (Keeps Prefixed ops) (unaryStep ops) (unaryStep ops) := by
  refine .acceptMap? (fun t p hp => .pure rfl ?_) (.pure rfl rfl)
  obtain ⟨op, hop, rfl⟩ := Option.map_eq_some_iff.1 hp
  intro us hus ts e hts
  simpa using hus (t :: ts) (.unary op t e)
    ⟨derivable_unary_operator hop hts.1, .plain rfl rfl⟩

theorem Alike.unary (h : Nested n m m') :
    Alike (n + 1) one (Forms .unary) (unary m) (unary m') := by
  refine (Alike.iterate alike_unaryStep []).bind fun ops => ?_
  refine (Alike.call h).bind fun e => .pure rfl ?_
  intro ts hts us hus
  have := hus [] (fun _ _ => id) ts e ⟨derivable_unary_call hts.1, hts.2⟩
  simpa using this

theorem Alike.binaryStep {l : Level} {p p' : Parser Parsed}
    (h : Alike (n + 1) one (Forms l.operand) p p') (e : Parsed) :
    Alike (n + 1) taken (Keeps (Forms l.nonterminal) e) (binaryStep l p e)
      (binaryStep l p' e) := by
  refine .acceptMap? (fun t q hq => ?_) (.pure rfl rfl)
  obtain ⟨op, hfound, rfl⟩ := Option.map_eq_some_iff.1 hq
  obtain ⟨hop, hl⟩ := Option.filter_eq_some_iff.1 hfound
  refine (h.mono (by simp) (fun _ => Nat.le_refl _) fun _ _ => id).bind fun r => .pure rfl ?_
  intro us hus ts hts
  have hl : op.level = l := by simpa using hl
  subst hl
  refine ⟨?_, fun hc => ?_, by simp [Expr.isTarget]⟩
  · simpa using derivable_level_more hts.1 hop rfl hus.1
  · simpa using derivable_condition_binary hts.1 hop hc hus.1

theorem Alike.chain {l : Level} {p p' : Parser Parsed}
    (h : Alike (n + 1) one (Forms l.operand) p p') :
    Alike (n + 1) one (Forms l.nonterminal) (chain l p) (chain l p') := by
  refine h.bind fun e => ?_
  refine (Alike.iterate (Alike.binaryStep h) e).mono (by simp) (fun _ => by simp) ?_
  exact fun us x hx ts hts => hx ts ⟨derivable_level_operand l hts.1, hts.2⟩

theorem Alike.equality (h : Nested n m m') :
    Alike (n + 1) one (Forms .equality) (binary m .equality) (binary m' .equality) :=
  Alike.chain (l := .equality) <| Alike.chain (l := .comparison) <| Alike.chain (l := .term) <|
    Alike.chain (l := .factor) (Alike.unary h)

theorem Alike.logicalStep {k g : Nonterminal} {op : LogicalOp} {p p' : Parser Parsed}
    (hg : ∀ {ts us t}, derivable g ts → t.kind.logicalOp? = some op → derivable k us →
      derivable g (ts ++ t :: us))
    (h : Alike (n + 1) one (Forms k) p p') (e : Parsed) :
    Alike (n + 1) taken (Keeps (Forms g) e) (logicalStep op p e) (logicalStep op p' e) := by
  refine .accept? (fun t ht => ?_) (.pure rfl rfl)
  refine (h.mono (by simp) (fun _ => Nat.le_refl _) fun _ _ => id).bind fun r => .pure rfl ?_
  intro us hus ts hts
  exact ⟨by simpa using hg hts.1 (by simpa using ht) hus.1, .plain rfl rfl⟩

theorem Alike.conjunction (h : Nested n m m') :
    Alike (n + 1) one (Forms .and) (conjunction m) (conjunction m') := by
  refine (Alike.equality h).bind fun e => ?_
  refine (Alike.iterate (Alike.logicalStep derivable_and_more (Alike.equality h)) e).mono (by simp)
    (fun _ => by simp) ?_
  exact fun us x hx ts hts => hx ts ⟨derivable_and_equality hts.1, hts.2⟩

theorem Alike.disjunction (h : Nested n m m') :
    Alike (n + 1) one (Forms .or) (disjunction m) (disjunction m') := by
  refine (Alike.conjunction h).bind fun e => ?_
  refine (Alike.iterate (Alike.logicalStep derivable_or_more (Alike.conjunction h)) e).mono
    (by simp) (fun _ => by simp) ?_
  exact fun us x hx ts hts => hx ts ⟨derivable_or_and hts.1, hts.2⟩

/-! ## Conditionals and assignments -/

/-- What the parser of conditionals reads: targets are no conditionals. -/
def Chosen (ts : List Token) (e : Parsed) : Prop :=
  derivable .ternary ts ∧ (e.isTarget → derivable .target ts)

theorem Alike.ternary (h : Nested n m m') :
    Alike (n + 1) one Chosen (ternary m) (ternary m') := by
  refine (Alike.disjunction h).bind fun c =>
    .accept? (fun t ht => .ite (fun hc => ?_) fun _ => .fail) (.pure rfl fun ts hts => ?_)
  · refine (h.mono (by simp) (fun _ => Nat.le_refl _) fun _ _ => id).bind fun x =>
      .expect fun a ha => (h.mono (by omega) (fun _ => Nat.le_refl _) fun _ _ => id).bind fun y =>
        .pure rfl ?_
    intro vs hvs us hus ts hts
    exact ⟨by simpa using derivable_ternary_choice (hts.2.condition hc) ht hus ha hvs,
      by simp [Expr.isTarget]⟩
  · rw [List.append_nil]
    exact ⟨derivable_ternary_or hts.1, hts.2.target⟩

theorem Alike.assignTo (t : Token) (target value : Parsed) :
    Alike n (fun _ => 0)
      (fun us _ => us = [] ∧ target.isTarget) (assignTo t target value)
      (assignTo t target value) := by
  unfold Parser.assignTo
  split
  · exact .pure rfl ⟨rfl, rfl⟩
  · exact .pure rfl ⟨rfl, rfl⟩
  · exact .report (.pure rfl trivial)

/-- Expressions are read alike where the expressions nested in them are. -/
theorem Alike.assignment (h : Nested n m m') : Nested (n + 1) (assignment m) (assignment m') := by
  refine (Alike.ternary h).bind fun e => .accept? (fun t ht => ?_) (.pure rfl fun ts hts => ?_)
  · refine (h.mono (by simp) (fun _ => Nat.le_refl _) fun _ _ => id).bind fun v => ?_
    refine (Alike.assignTo t e v).mono (Nat.le_refl _) (fun _ => by simp) ?_
    rintro us x ⟨rfl, he⟩ vs hvs ts hts
    simpa using derivable_expr_assign (hts.2 he) ht hvs
  · rw [List.append_nil]
    exact derivable_expr_ternary hts.1

theorem nested_expressionWithin {b c : Budget} (hb : n ≤ b.length) (hc : n ≤ c.length) :
    Nested n (expressionWithin b) (expressionWithin c) := by
  induction n generalizing b c with
  | zero => exact .below_zero
  | succ n ih =>
    obtain ⟨_, b, rfl, hb'⟩ := exists_cons_of_lt hb
    obtain ⟨_, c, rfl, hc'⟩ := exists_cons_of_lt hc
    exact Alike.assignment (ih hb' hc')

/-- What the parser of expressions reads. -/
theorem nested_expression (n : Nat) : Nested n expression expression :=
  .budgeted fun _ _ _ _ hb hc => nested_expressionWithin hb hc

/-- Expressions without their budget. -/
theorem expression_eq : expression = assignment expression := by
  funext s
  have hlong : Nested s.ahead.length (expressionWithin s.ahead) expression := by
    intro t ht
    obtain ⟨heq, hr⟩ := nested_expressionWithin (n := t.ahead.length + 1) (b := s.ahead)
      (c := t.finish :: t.ahead) (by omega) (by simp) t (by omega)
    exact ⟨heq, hr⟩
  rw [← (Alike.assignment hlong s (by omega)).1, expression, budgeted, expressionWithin]

end Parser

end Lox
