import Lox.Proofs.Grammar.Trees
import Lox.Proofs.Parser.Phrase
import Lox.Proofs.Parser.Statement

/-!
# Parsing sentences

A sentence is parsed to its tree. An open statement is, before any token but an `else`; so is a
declaration, which may end in an open statement. A list of sentences is therefore parsed to the
list of their trees, and what is derived as a program is parsed without a report.

## Main definitions

* `Stream.NoElse`: a stream whose first token is no `else`
* `Clause.Completes`: what parsing a sentence comes to

## Main results

* `Sentence.completes`: every sentence is parsed to its tree
* `program_of_sentences`: a list of sentences is parsed to their trees
* `accepts_iff_derivable`: what the parser accepts is what the grammar derives
-/

namespace Lox

open Grammar Lox.Parser

/-- The first token, if there is one, is no `else`. -/
def Stream.NoElse (s : Stream) : Prop := ∀ t ∈ s.ahead.head?, t.isKeyword .elseWord = false

theorem Stream.noElse_behind {s : Stream} {t : Token} {ts : List Token}
    (h : t.isKeyword .elseWord = false) : (s.behind (t :: ts)).NoElse := by
  simpa [NoElse] using h

namespace Parser

variable {α β : Type} {s : Stream} {ts us : List Token} {a b : Token} {x : Symbol}

/-- A symbol that extends no expression stops one. -/
theorem stops_symbol (hb : b.isSymbol x) (hx : (TokenKind.symbol x).joins = 0) :
    (s.behind (b :: us)).Stops 1 := by
  rw [Stream.stops_behind, Token.kind_of_isSymbol hb, hx]
  exact Nat.one_pos

/-! ## Parts of statements -/

theorem identifier_of {e : SyntaxError} (ha : a.kind = .identifier) :
    identifier e (s.behind (a :: us)) = ⟨[], .ok a (s.behind us)⟩ :=
  (accept?_behind _).trans (by simp [ha])

/-- An expression that may be absent before the symbol that excludes it. -/
theorem unless_of_phrase? {v : Option Parsed} (h : Phrase? ts v) (hb : b.isSymbol x)
    (hx : (TokenKind.symbol x).joins = 0) (hstart : (TokenKind.symbol x).startsExpression = false)
    (g : Option Parsed → Parser β) :
    (nextIs x >>= fun c => if c then pure none >>= g else some <$> expression >>= g)
        (s.behind (ts ++ b :: us)) = g v (s.behind (b :: us)) := by
  rw [nextIs_bind]
  cases h with
  | absent => simp [hb]; rfl
  | present h =>
    obtain ⟨a, vs, rfl, hs, -⟩ := h.starts
    have hno : a.isSymbol x = false := Token.isSymbol_eq_false hs hstart
    have hstops : (s.behind (b :: us)).Stops 1 := stops_symbol hb hx
    have hread := expression_of_phrase h hstops
    rw [Stream.behind_behind] at hread
    simp only [List.cons_append, current_behind, hno, Bool.false_eq_true, if_false]
    refine bind_of_ok ?_ g
    exact (bind_of_ok hread _).trans rfl

/-- A part that a token announces, before a token that does not announce it. -/
theorem announced_of {test : Token → Bool} {part : List Token → α → Prop}
    {p : Parser (Option α)} {o : Option α} (h : Announced test part ts o) (hb : test b = false)
    (hp : ∀ vs x, part vs x →
      p ((s.behind (b :: us)).behind vs) = ⟨[], .ok (some x) (s.behind (b :: us))⟩)
    (g : Option α → Parser β) :
    (accept test >>= fun c => if c then p >>= g else pure none >>= g) (s.behind (ts ++ b :: us)) =
      g o (s.behind (b :: us)) := by
  cases h with
  | absent => simp [hb]; rfl
  | present ha h =>
    simp only [List.cons_append, accept_behind, ha, if_true]
    have hread := hp _ _ h
    rw [Stream.behind_behind] at hread
    exact bind_of_ok hread g

theorem varDeclaration_of {st : ParsedStmt} (h : VarSentence ts st) :
    ∃ a us, ts = a :: us ∧ a.isKeyword .varWord ∧
      ∀ s : Stream, varDeclaration (s.behind us) = ⟨[], .ok st s⟩ := by
  cases h with
  | @mk a b c us v ha hb hv hc =>
    refine ⟨a, _, rfl, ha, fun s => ?_⟩
    refine (expect_behind (by simpa using hb) _).trans ?_
    have hequal : c.isSymbol .equal = false := by
      simp [Token.isSymbol, Token.kind_of_isSymbol hc]
    refine (announced_of (s := s) hv hequal (fun us x hx => ?_) _).trans ?_
    · exact (bind_of_ok (expression_of_phrase hx (stops_symbol hc rfl)) _).trans rfl
    · exact (expect_behind hc _).trans rfl

theorem expressionStatement_of {st : ParsedStmt} (h : ExpressionSentence ts st) (s : Stream) :
    expressionStatement (s.behind ts) = ⟨[], .ok st s⟩ := by
  cases h with
  | mk h ha =>
    rw [← Stream.behind_behind]
    refine (bind_of_ok (expression_of_phrase h (stops_symbol ha rfl)) _).trans ?_
    exact (expect_behind ha _).trans rfl

theorem forInitializer_of {first : Option ParsedStmt} (h : FirstClause ts first) (s : Stream) :
    forInitializer (s.behind ts) = ⟨[], .ok first s⟩ := by
  cases h with
  | absent ha => simp [forInitializer, ha]
  | var h =>
    obtain ⟨a, us, rfl, ha, hread⟩ := varDeclaration_of h
    have hsemi : a.isSymbol .semicolon = false := by
      simp [Token.isSymbol, Token.kind_of_isKeyword ha]
    simp only [forInitializer, accept_behind, hsemi, ha, Bool.false_eq_true, if_false, if_true]
    exact (bind_of_ok (hread s) _).trans rfl
  | expression h =>
    obtain ⟨a, us, rfl, hstart⟩ := h.starts
    have hsemi : a.isSymbol .semicolon = false := Token.isSymbol_eq_false hstart rfl
    have hvar : a.isKeyword .varWord = false := Token.isKeyword_eq_false hstart rfl
    simp only [forInitializer, accept_behind, hsemi, hvar, Bool.false_eq_true, if_false]
    exact (bind_of_ok (expressionStatement_of h s) _).trans rfl

/-! ## Lists of sentences -/

/-- Items that are each read to a result, up to a token that stops the loop. -/
theorem itemsWithin_of_parts {item : Parser (Option α)} {stop : Token → Bool} {budget : Budget}
    {parts : List (List Token × α)}
    (h : ∀ x ∈ parts, ∀ s : Stream, s.NoElse → item (s.behind x.1) = ⟨[], .ok (some x.2) s⟩)
    (hstart : ∀ x ∈ parts, ∃ a us, x.1 = a :: us ∧ stop a = false ∧ a.isKeyword .elseWord = false)
    (hb : parts.length < budget.length) (hs : s.NoElse) (hend : stop s.current || s.ahead.isEmpty) :
    itemsWithin stop item budget (s.behind (parts.map (·.1)).flatten) =
      ⟨[], .ok (parts.map (·.2)) s⟩ := by
  induction parts generalizing budget with
  | nil =>
    obtain ⟨_, budget, rfl, -⟩ := exists_cons_of_lt hb
    simp only [itemsWithin, current_bind, atEnd_bind, List.map_nil, List.flatten_nil,
      Stream.behind_nil, if_pos hend]
    rfl
  | cons x parts ih =>
    obtain ⟨_, budget, rfl, hb'⟩ := exists_cons_of_lt hb
    obtain ⟨a, us, hx, hstop, -⟩ := hstart x (by simp)
    have hread := ih (fun y hy => h y (by simp [hy])) (fun y hy => hstart y (by simp [hy])) hb'
    -- no `else` follows, for none starts the next item
    have hnext : (s.behind (parts.map (·.1)).flatten).NoElse := by
      cases parts with
      | nil => exact hs
      | cons y parts =>
        obtain ⟨b, vs, hy, -, helse⟩ := hstart y (by simp)
        simpa [hy] using Stream.noElse_behind helse
    have hcurrent : (s.behind ((x :: parts).map (·.1)).flatten).current = a := by simp [hx]
    have hahead : (s.behind ((x :: parts).map (·.1)).flatten).ahead.isEmpty = false := by simp [hx]
    simp only [itemsWithin, current_bind, atEnd_bind, hcurrent, hahead, hstop, Bool.false_eq_true,
      Bool.or_false, if_false]
    rw [List.map_cons, List.flatten_cons, ← Stream.behind_behind]
    exact (bind_of_ok (h x (by simp) _ hnext) _).trans ((bind_of_ok hread _).trans rfl)

theorem length_le_flatten {parts : List (List Token × α)} {p : Token → Prop}
    (h : ∀ x ∈ parts, ∃ a us, x.1 = a :: us ∧ p a) :
    parts.length ≤ (parts.map (·.1)).flatten.length := by
  induction parts with
  | nil => simp
  | cons x parts ih =>
    obtain ⟨a, us, hx, -⟩ := h x (by simp)
    have := ih fun y hy => h y (by simp [hy])
    simp only [List.map_cons, List.flatten_cons, List.length_append, List.length_cons, hx]
    omega

/-- Items that are each read to a result, without the budget. -/
theorem itemsUntil_of_parts {item : Parser (Option α)} {stop : Token → Bool}
    {parts : List (List Token × α)}
    (h : ∀ x ∈ parts, ∀ s : Stream, s.NoElse → item (s.behind x.1) = ⟨[], .ok (some x.2) s⟩)
    (hstart : ∀ x ∈ parts, ∃ a us, x.1 = a :: us ∧ stop a = false ∧ a.isKeyword .elseWord = false)
    (hs : s.NoElse) (hend : stop s.current || s.ahead.isEmpty) :
    itemsUntil stop item (s.behind (parts.map (·.1)).flatten) = ⟨[], .ok (parts.map (·.2)) s⟩ := by
  have hlen := length_le_flatten hstart
  refine itemsWithin_of_parts h hstart ?_ hs hend
  simp only [List.length_cons, Stream.ahead_behind, List.length_append]
  omega

end Parser

/-! ## What parsing a sentence comes to -/

/-- What parsing a sentence comes to. -/
def Clause.Completes : Clause → List Token → Prop
  | .function f, ts => ∀ (role : String) (s : Stream),
      Parser.function Parser.declaration role (s.behind ts) = ⟨[], .ok f s⟩
  | .statement isOpen st, ts => ∀ s : Stream, (isOpen → s.NoElse) →
      Parser.statement (s.behind ts) = ⟨[], .ok st s⟩
  | .declaration st, ts => ∀ s : Stream, s.NoElse →
      Parser.declaration (s.behind ts) = ⟨[], .ok (some st) s⟩

namespace Sentence

variable {s : Stream} {ts us vs ws : List Token} {a b c d e : Token} {st r : ParsedStmt}

/-- The first token of a declaration closes no block and continues no `if`. -/
theorem starts_declaration (h : Sentence (.declaration st) ts) :
    ∃ a us, ts = a :: us ∧ a.isSymbol .rightBrace = false ∧ a.isKeyword .elseWord = false := by
  obtain ⟨a, us, rfl, hstart⟩ := h.starts
  exact ⟨a, us, rfl, Token.isSymbol_eq_false (p := TokenKind.startsDeclaration) hstart rfl,
    Token.isKeyword_eq_false (p := TokenKind.startsDeclaration) hstart rfl⟩

theorem noElse_symbol {x : Symbol} (hb : b.isSymbol x) : (s.behind (b :: us)).NoElse :=
  Stream.noElse_behind (by simp [Token.isKeyword, Token.kind_of_isSymbol hb])

/-- Declarations in braces, after the opening one. -/
theorem block_of {body : List (List Token × ParsedStmt)}
    (h : ∀ x ∈ body, (Clause.declaration x.2).Completes x.1)
    (hs : ∀ x ∈ body, Sentence (.declaration x.2) x.1) (hb : b.isSymbol .rightBrace) (s : Stream) :
    Parser.block Parser.declaration (s.behind ((body.map (·.1)).flatten ++ [b])) =
      ⟨[], .ok (body.map (·.2)) s⟩ := by
  rw [← Stream.behind_behind]
  refine (bind_of_ok (itemsUntil_of_parts h (fun x hx => (hs x hx).starts_declaration)
    (noElse_symbol hb) (by simp [hb])) _).trans ?_
  exact (expect_behind hb _).trans rfl

theorem completes_function {params : List Token} {body : List (List Token × ParsedStmt)}
    (ha : a.kind = .identifier) (hb : b.isSymbol .leftParen)
    (hparams : ∀ p ∈ params, p.kind = .identifier) (hlimit : params.length ≤ argumentLimit)
    (hcommas : Commas (params.map ([·])) ts) (hc : c.isSymbol .rightParen)
    (hd : d.isSymbol .leftBrace) (h : ∀ x ∈ body, (Clause.declaration x.2).Completes x.1)
    (hs : ∀ x ∈ body, Sentence (.declaration x.2) x.1) (he : e.isSymbol .rightBrace) :
    (Clause.function (.mk a params (body.map (·.2)))).Completes
      (a :: b :: (ts ++ c :: d :: ((body.map (·.1)).flatten ++ [e]))) := by
  intro role s
  have hnames : ∀ x ∈ params.map fun p => ([p], p),
      ReadsPart (identifier .expectParameterName) x := by
    intro x hx s _
    obtain ⟨p, hp, rfl⟩ := List.mem_map.1 hx
    exact identifier_of (hparams p hp)
  have hstart : ∀ x ∈ params.map fun p => ([p], p),
      ∃ t us, x.1 = t :: us ∧ t.isSymbol .rightParen = false := by
    intro x hx
    obtain ⟨p, hp, rfl⟩ := List.mem_map.1 hx
    exact ⟨p, [], rfl, by simp [Token.isSymbol, hparams p hp]⟩
  -- the name, the parameters and the body are read in turn
  refine (expect_behind (by simpa using ha) _).trans ((expect_behind hb _).trans ?_)
  refine (bind_of_ok (separated_of_commas hnames hstart (by simpa [Function.comp_def] using hcommas)
    (by simpa using hlimit) hc) _).trans ?_
  refine (expect_behind hc _).trans ((expect_behind hd _).trans ?_)
  refine (bind_of_ok (block_of h hs he s) _).trans ?_
  simp [Function.comp_def]

/-! ### Statements -/

theorem completes_expression (h : ExpressionSentence ts st) :
    (Clause.statement false st).Completes ts := by
  intro s _
  obtain ⟨a, us, rfl, hstart⟩ := h.starts
  rw [statement_eq]
  have hword : ∀ k : Keyword, (TokenKind.keyword k).startsExpression = false →
      a.isKeyword k = false := fun k hk => Token.isKeyword_eq_false hstart hk
  simp only [statementWith, accept_behind, accept?_behind, hword .forWord rfl, hword .ifWord rfl,
    hword .printWord rfl, hword .returnWord rfl, hword .whileWord rfl,
    Token.isSymbol_eq_false (x := .leftBrace) hstart rfl, Bool.false_eq_true, if_false]
  exact expressionStatement_of h s

section Dispatch

theorem statement_for (ha : a.isKeyword .forWord) :
    Parser.statement (s.behind (a :: us)) = forStatement Parser.statement (s.behind us) := by
  refine (congrFun statement_eq _).trans ?_
  simp [statementWith, ha]

theorem statement_if (ha : a.isKeyword .ifWord) :
    Parser.statement (s.behind (a :: us)) = ifStatement Parser.statement (s.behind us) := by
  refine (congrFun statement_eq _).trans ?_
  simp [statementWith, Token.isKeyword, Token.kind_of_isKeyword ha]

theorem statement_print (ha : a.isKeyword .printWord) :
    Parser.statement (s.behind (a :: us)) = printStatement (s.behind us) := by
  refine (congrFun statement_eq _).trans ?_
  simp [statementWith, Token.isKeyword, Token.kind_of_isKeyword ha]

theorem statement_return (ha : a.isKeyword .returnWord) :
    Parser.statement (s.behind (a :: us)) = returnStatement a (s.behind us) := by
  refine (congrFun statement_eq _).trans ?_
  simp [statementWith, Token.isKeyword, Token.kind_of_isKeyword ha]

theorem statement_while (ha : a.isKeyword .whileWord) :
    Parser.statement (s.behind (a :: us)) = whileStatement Parser.statement (s.behind us) := by
  refine (congrFun statement_eq _).trans ?_
  simp [statementWith, Token.isKeyword, Token.kind_of_isKeyword ha]

theorem statement_block (ha : a.isSymbol .leftBrace) :
    Parser.statement (s.behind (a :: us)) =
      (Stmt.block <$> Parser.block Parser.declaration) (s.behind us) := by
  refine (congrFun statement_eq _).trans ?_
  simp [statementWith, Token.isKeyword, Token.isSymbol, Token.kind_of_isSymbol ha]
  rfl

end Dispatch

theorem completes_print {v : Parsed} (ha : a.isKeyword .printWord) (h : Phrase .expr ts v)
    (hb : b.isSymbol .semicolon) :
    (Clause.statement false (.print v)).Completes (a :: (ts ++ [b])) := by
  intro s _
  rw [statement_print ha, ← Stream.behind_behind]
  refine (bind_of_ok (expression_of_phrase h (stops_symbol hb rfl)) _).trans ?_
  exact (expect_behind hb _).trans rfl

theorem completes_return {v : Option Parsed} (ha : a.isKeyword .returnWord) (h : Phrase? ts v)
    (hb : b.isSymbol .semicolon) :
    (Clause.statement false (.return a v)).Completes (a :: (ts ++ [b])) := by
  intro s _
  rw [statement_return ha]
  exact (unless_of_phrase? h hb rfl rfl _).trans ((expect_behind hb _).trans rfl)

theorem completes_block {body : List (List Token × ParsedStmt)} (ha : a.isSymbol .leftBrace)
    (h : ∀ x ∈ body, (Clause.declaration x.2).Completes x.1)
    (hs : ∀ x ∈ body, Sentence (.declaration x.2) x.1) (hb : b.isSymbol .rightBrace) :
    (Clause.statement false (.block (body.map (·.2)))).Completes
      (a :: ((body.map (·.1)).flatten ++ [b])) := by
  intro s _
  rw [statement_block ha]
  exact (bind_of_ok (block_of h hs hb s) _).trans rfl

/-- A condition in parentheses before a statement. -/
theorem condition_of {α : Type} {v : Parsed} {e₁ e₂ : SyntaxError} (hb : b.isSymbol .leftParen)
    (h : Phrase .expr ts v) (hc : c.isSymbol .rightParen) (g : Parsed → Parser α) :
    (symbol .leftParen e₁ >>= fun _ => Parser.expression >>= fun v =>
      symbol .rightParen e₂ >>= fun _ => g v) (s.behind (b :: (ts ++ c :: us))) =
      g v (s.behind us) := by
  refine (expect_behind hb _).trans ?_
  rw [← Stream.behind_behind]
  refine (bind_of_ok (expression_of_phrase h (stops_symbol hc rfl)) _).trans ?_
  exact expect_behind hc _

theorem completes_ifThen {v : Parsed} {o : Bool} (ha : a.isKeyword .ifWord)
    (hb : b.isSymbol .leftParen) (hv : Phrase .expr ts v) (hc : c.isSymbol .rightParen)
    (h : (Clause.statement o st).Completes us) :
    (Clause.statement true (.ifThen v st)).Completes (a :: b :: (ts ++ c :: us)) := by
  intro s hs
  rw [statement_if ha]
  refine (condition_of hb hv hc _).trans ((bind_of_ok (h s fun _ => hs rfl) _).trans ?_)
  exact (accept_none (hs rfl) _).trans rfl

theorem completes_ifElse {v : Parsed} {o : Bool} (ha : a.isKeyword .ifWord)
    (hb : b.isSymbol .leftParen) (hv : Phrase .expr ts v) (hc : c.isSymbol .rightParen)
    (h : (Clause.statement false st).Completes us) (hd : d.isKeyword .elseWord)
    (hr : (Clause.statement o r).Completes vs) :
    (Clause.statement o (.ifElse v st r)).Completes (a :: b :: (ts ++ c :: (us ++ d :: vs))) := by
  intro s hs
  rw [statement_if ha]
  refine (condition_of hb hv hc _).trans ?_
  rw [← Stream.behind_behind]
  refine (bind_of_ok (h _ (by simp)) _).trans ?_
  simp only [accept_behind, hd, if_true]
  exact (bind_of_ok (hr s hs) _).trans rfl

theorem completes_while {v : Parsed} {o : Bool} (ha : a.isKeyword .whileWord)
    (hb : b.isSymbol .leftParen) (hv : Phrase .expr ts v) (hc : c.isSymbol .rightParen)
    (h : (Clause.statement o st).Completes us) :
    (Clause.statement o (.while v st)).Completes (a :: b :: (ts ++ c :: us)) := by
  intro s hs
  rw [statement_while ha]
  exact (condition_of hb hv hc _).trans ((bind_of_ok (h s hs) _).trans rfl)

theorem completes_for {first : Option ParsedStmt} {condition increment : Option Parsed} {o : Bool}
    (ha : a.isKeyword .forWord) (hb : b.isSymbol .leftParen) (hfirst : FirstClause ts first)
    (hcond : Phrase? us condition) (hc : c.isSymbol .semicolon) (hinc : Phrase? vs increment)
    (hd : d.isSymbol .rightParen) (h : (Clause.statement o st).Completes ws) :
    (Clause.statement o (.forLoop first condition increment st)).Completes
      (a :: b :: (ts ++ (us ++ c :: (vs ++ d :: ws)))) := by
  intro s hs
  rw [statement_for ha]
  refine (expect_behind hb _).trans ?_
  rw [← Stream.behind_behind]
  refine (bind_of_ok (forInitializer_of hfirst _) _).trans ?_
  refine (unless_of_phrase? hcond hc rfl rfl _).trans ((expect_behind hc _).trans ?_)
  refine (unless_of_phrase? hinc hd rfl rfl _).trans ((expect_behind hd _).trans ?_)
  exact (bind_of_ok (h s hs) _).trans rfl

/-! ### Declarations -/

theorem declaration_of_recover {p : Parser ParsedStmt}
    (hp : declarationWith Parser.statement Parser.declaration (s.behind (a :: us)) =
      recover p (s.behind ts)) (h : p (s.behind ts) = ⟨[], .ok st s⟩) :
    Parser.declaration (s.behind (a :: us)) = ⟨[], .ok (some st) s⟩ := by
  rw [declaration_eq (by simp), hp, recover, h]

theorem completes_funDeclaration {f : FunDecl Unit} (ha : a.isKeyword .funWord)
    (h : (Clause.function f).Completes ts) :
    (Clause.declaration (.function f)).Completes (a :: ts) := by
  intro s _
  have hread : (Stmt.function <$> Parser.function Parser.declaration "function") (s.behind ts) =
      ⟨[], .ok (.function f) s⟩ := (bind_of_ok (h _ s) _).trans rfl
  refine declaration_of_recover ?_ hread
  simp [declarationWith, recover, Token.isKeyword, Token.kind_of_isKeyword ha]
  rfl

theorem completes_varDeclaration (h : VarSentence ts st) :
    (Clause.declaration st).Completes ts := by
  intro s _
  obtain ⟨a, us, rfl, ha, hread⟩ := varDeclaration_of h
  refine declaration_of_recover ?_ (hread s)
  simp [declarationWith, recover, Token.isKeyword, Token.kind_of_isKeyword ha]

theorem completes_statement {o : Bool} (hs : Sentence (.statement o st) ts)
    (h : (Clause.statement o st).Completes ts) : (Clause.declaration st).Completes ts := by
  intro s hnext
  obtain ⟨a, us, rfl, hstart⟩ := hs.starts
  have hword : ∀ k : Keyword, (TokenKind.keyword k).startsSentence = false →
      a.isKeyword k = false := fun k hk => Token.isKeyword_eq_false hstart hk
  have hread := h s fun _ => hnext
  rw [congrFun statement_eq] at hread
  refine declaration_of_recover ?_ hread
  simp [declarationWith, recover, hword .classWord rfl, hword .funWord rfl, hword .varWord rfl]

theorem member_of {m : Member} (hmarker : ∀ t ∈ m.marker, t.isKeyword .classWord)
    (h : (Clause.function m.decl).Completes m.tokens) (hs : Sentence (.function m.decl) m.tokens)
    (s : Stream) :
    member Parser.declaration (s.behind m.all) = ⟨[], .ok (some m.entry) s⟩ := by
  obtain ⟨marker, ts, f⟩ := m
  cases marker with
  | none =>
    obtain ⟨a, us, rfl, hstart⟩ := hs.starts
    have hk : a.kind = .identifier := by simpa [Clause.startsWith] using hstart
    simp only [member, Member.all, Option.toList, List.nil_append, accept_behind, Token.isKeyword,
      hk]
    exact (bind_of_ok (h _ s) _).trans rfl
  | some a =>
    have ha : a.isKeyword .classWord := hmarker a rfl
    simp only [member, Member.all, Option.toList, List.cons_append, List.nil_append, accept_behind,
      ha, if_true]
    exact (bind_of_ok (h _ s) _).trans rfl

theorem starts_member {m : Member} (hmarker : ∀ t ∈ m.marker, t.isKeyword .classWord)
    (hs : Sentence (.function m.decl) m.tokens) :
    ∃ a us, m.all = a :: us ∧ a.isSymbol .rightBrace = false ∧ a.isKeyword .elseWord = false := by
  obtain ⟨marker, ts, f⟩ := m
  cases marker with
  | none =>
    obtain ⟨a, us, rfl, hstart⟩ := hs.starts
    have hk : a.kind = .identifier := by simpa [Clause.startsWith] using hstart
    exact ⟨a, us, rfl, by simp [Token.isSymbol, hk], by simp [Token.isKeyword, hk]⟩
  | some a =>
    have hk := Token.kind_of_isKeyword (hmarker a rfl)
    exact ⟨a, ts, rfl, by simp [Token.isSymbol, hk], by simp [Token.isKeyword, hk]⟩

theorem completes_class {superclass : Option (Ref Unit)} {members : List Member}
    (ha : a.isKeyword .classWord) (hb : b.kind = .identifier)
    (hsuper : Announced (·.isSymbol .less) NameSentence ts superclass) (hc : c.isSymbol .leftBrace)
    (hmarker : ∀ m ∈ members, ∀ t ∈ m.marker, t.isKeyword .classWord)
    (h : ∀ m ∈ members, (Clause.function m.decl).Completes m.tokens)
    (hs : ∀ m ∈ members, Sentence (.function m.decl) m.tokens) (hd : d.isSymbol .rightBrace) :
    (Clause.declaration (.class b superclass
        (((members.map Member.entry).filter (·.1)).map (·.2))
        (((members.map Member.entry).filter (!·.1)).map (·.2)))).Completes
      (a :: b :: (ts ++ c :: ((members.map Member.all).flatten ++ [d]))) := by
  intro s _
  have hitems : itemsUntil (·.isSymbol .rightBrace) (member Parser.declaration)
      ((s.behind [d]).behind ((members.map fun m => (m.all, m.entry)).map (·.1)).flatten) =
      ⟨[], .ok ((members.map fun m => (m.all, m.entry)).map (·.2)) (s.behind [d])⟩ :=
    itemsUntil_of_parts
      (by simpa using fun m hm t _ => member_of (hmarker m hm) (h m hm) (hs m hm) t)
      (by simpa using fun m hm => starts_member (hmarker m hm) (hs m hm))
      (noElse_symbol hd) (by simp [hd])
  simp only [List.map_map, Function.comp_def] at hitems
  have hread : Parser.classDeclaration Parser.declaration
      (s.behind (b :: (ts ++ c :: ((members.map Member.all).flatten ++ [d])))) =
      ⟨[], .ok (.class b superclass (((members.map Member.entry).filter (·.1)).map (·.2))
        (((members.map Member.entry).filter (!·.1)).map (·.2))) s⟩ := by
    refine (expect_behind (by simpa using hb) _).trans ?_
    refine (announced_of hsuper (by simp [Token.isSymbol, Token.kind_of_isSymbol hc]) ?_ _).trans ?_
    · rintro vs x ⟨hx⟩
      exact (bind_of_ok (identifier_of hx) _).trans rfl
    · refine (expect_behind hc _).trans ?_
      rw [← Stream.behind_behind]
      exact (bind_of_ok hitems _).trans ((expect_behind hd _).trans rfl)
  refine declaration_of_recover ?_ hread
  simp [declarationWith, recover, ha]

/-! ### All sentences -/

/-- Every sentence is parsed to its tree. -/
theorem completes {c : Clause} (h : Sentence c ts) : c.Completes ts := by
  induction h with
  | expression h => exact completes_expression h
  | print ha h hb => exact completes_print ha h hb
  | «return» ha h hb => exact completes_return ha h hb
  | block ha h hb ih => exact completes_block ha ih h hb
  | ifThen ha hb he hc _ ih => exact completes_ifThen ha hb he hc ih
  | ifElse ha hb he hc _ hd _ ih ihr => exact completes_ifElse ha hb he hc ih hd ihr
  | «while» ha hb he hc _ ih => exact completes_while ha hb he hc ih
  | «for» ha hb hfirst hcond hc hinc hd _ ih =>
    exact completes_for ha hb hfirst hcond hc hinc hd ih
  | function ha hb hparams hlimit hcommas hc hd h he ih =>
    exact completes_function ha hb hparams hlimit hcommas hc hd ih h he
  | funDeclaration ha _ ih => exact completes_funDeclaration ha ih
  | varDeclaration h => exact completes_varDeclaration h
  | «class» ha hb hsuper hc hmarker h hd ih =>
    exact completes_class ha hb hsuper hc hmarker ih h hd
  | statement h ih => exact completes_statement h ih

end Sentence

/-! ## Programs -/

/-- A list of sentences is parsed to the list of their trees. -/
theorem program_of_sentences {body : List (List Token × ParsedStmt)}
    (h : ∀ x ∈ body, Sentence (.declaration x.2) x.1) (last : Token) :
    program ⟨(body.map (·.1)).flatten, last⟩ = ⟨[], .ok (body.map (·.2)) ⟨[], last⟩⟩ := by
  have hstarts : ∀ x ∈ body, ∃ a us, x.1 = a :: us ∧ (fun _ => false) a = false ∧
      a.isKeyword .elseWord = false := fun x hx => by
    obtain ⟨a, us, ha, -, helse⟩ := (h x hx).starts_declaration
    exact ⟨a, us, ha, rfl, helse⟩
  have hread : itemsUntil (fun _ => false) declaration
      ((Stream.mk [] last).behind (body.map (·.1)).flatten) =
      ⟨[], .ok (body.map (·.2)) ⟨[], last⟩⟩ :=
    itemsUntil_of_parts (fun x hx => (h x hx).completes) hstarts (by simp [Stream.NoElse]) (by simp)
  simpa [program, Stream.behind] using hread

/-- What is derived as a program is written by sentences, which are parsed to their trees. -/
theorem program_of_derivable {ts : List Token} {last : Token}
    (h : derivable .program (ts ++ [last])) :
    ∃ body : List (List Token × ParsedStmt), ts = (body.map (·.1)).flatten ∧
      (∀ x ∈ body, Sentence (.declaration x.2) x.1) ∧
      program ⟨ts, last⟩ = ⟨[], .ok (body.map (·.2)) ⟨[], last⟩⟩ := by
  obtain ⟨body, last', heq, -, hbody⟩ := written_of_derivable h
  obtain ⟨rfl, hlast⟩ := List.append_inj' heq rfl
  exact ⟨body, rfl, hbody, program_of_sentences hbody last⟩

/-- The parser reports nothing exactly for what the grammar derives as a program, and then reads
the trees in which operators associate to the left. -/
theorem accepts_iff_derivable {ts : List Token} {last : Token} (hlast : last.isEnd) :
    ((program ⟨ts, last⟩).reports = [] ↔ derivable .program (ts ++ [last])) ∧
      ((program ⟨ts, last⟩).reports = [] →
        ∃ body : List (List Token × ParsedStmt), ts = (body.map (·.1)).flatten ∧
          (∀ x ∈ body, Sentence (.declaration x.2) x.1) ∧
          (program ⟨ts, last⟩).statements = body.map (·.2)) := by
  refine ⟨⟨derivable_of_reports hlast, fun h => ?_⟩, fun h => ?_⟩
  · obtain ⟨body, -, -, hprogram⟩ := program_of_derivable h
    rw [hprogram]
  · obtain ⟨body, hts, hbody, hprogram⟩ := program_of_derivable (derivable_of_reports hlast h)
    exact ⟨body, hts, hbody, by rw [hprogram]; rfl⟩

/-- The tokens of `print nil;` are a program. -/
theorem accepts_iff_derivable_print :
    Token.isEnd ⟨.endOfInput, "", 1, 11⟩ ∧
      derivable .program [⟨.keyword .printWord, "print", 1, 1⟩, ⟨.keyword .nilWord, "nil", 1, 7⟩,
        ⟨.symbol .semicolon, ";", 1, 10⟩, ⟨.endOfInput, "", 1, 11⟩] :=
  ⟨rfl, (@accepts_iff_derivable
    [⟨.keyword .printWord, "print", 1, 1⟩, ⟨.keyword .nilWord, "nil", 1, 7⟩,
      ⟨.symbol .semicolon, ";", 1, 10⟩] ⟨.endOfInput, "", 1, 11⟩ rfl).1.1 (by decide)⟩

end Lox
