import Lox.Proofs.Grammar.Tokens
import Lox.Proofs.Parser.Reading
import Lox.Proofs.Scan.Places

/-!
# The tokens that parsers keep

No parser keeps a token twice. Whatever it reports and wherever it resumes, the tokens of its
result and those that are left were held before or read, each at most as often. So the trees of
any text have no token twice, also those that are put together from the clauses of a loop and
those that are left of a text with mistakes.

## Main definitions

* `Outcome.tokens`: the tokens that an outcome accounts for
* `Parser.Draws`: a parser keeps and leaves no more than it is given

## Main results

* `Draws.bind`: one parser after another
* `Draws.iterate`, `Draws.separated`, `Draws.itemsUntil`, `Draws.recover`: loops and recovery
* `nodup_tokens_parse`: the trees of a text have no token twice
-/

namespace Lox

open Lox.Part (tokens)

/-- Tokens among others, each at most as often. -/
abbrev Within (ts us : List Token) : Prop := ∀ t, ts.count t ≤ us.count t

namespace Outcome

variable {α : Type}

/-- The tokens that an outcome accounts for: those that its result keeps and those left. -/
def tokens (keeps : α → List Token) : Outcome α → List Token
  | ok a rest => keeps a ++ rest.ahead
  | unwound _ rest => rest.ahead
  | exhausted => []

end Outcome

namespace Parser

variable {α β : Type} {held : List Token} {p q : Parser α} {keeps : α → List Token}
  {f : α → Parser β} {keeps' : β → List Token}

/-- A parser that is given the tokens `held` beside those ahead keeps and leaves no others. -/
def Draws (held : List Token) (p : Parser α) (keeps : α → List Token) : Prop :=
  ∀ s : Stream, Within ((p s).outcome.tokens keeps) (held ++ s.ahead)

namespace Draws

/-! ## Ways to put parsers together -/

theorem mono {held' : List Token} {keeps' : α → List Token} (h : Draws held p keeps)
    (hheld : Within held held') (hkeeps : ∀ a, Within (keeps' a) (keeps a)) :
    Draws held' p keeps' := by
  intro s t
  have hp := h s t
  have hh := hheld t
  rw [List.count_append] at hp ⊢
  refine Nat.le_trans ?_ (Nat.add_le_add_right hh _)
  refine Nat.le_trans ?_ hp
  cases (p s).outcome with
  | ok a rest =>
    rw [Outcome.tokens, Outcome.tokens, List.count_append, List.count_append]
    exact Nat.add_le_add_right (hkeeps a t) _
  | unwound | exhausted => exact Nat.le_refl _

/-- A parser that is given more tokens. -/
theorem given {held' : List Token} (h : Draws held p keeps) (hheld : Within held held') :
    Draws held' p keeps :=
  h.mono hheld fun _ _ => Nat.le_refl _

theorem pure {a : α} (h : Within (keeps a) held) : Draws held (Pure.pure a) keeps := by
  intro s t
  have ha := h t
  show (keeps a ++ s.ahead).count t ≤ _
  rw [List.count_append, List.count_append]
  omega

/-- One parser after another: the second is given what the first keeps. -/
theorem bindGiven (hp : Draws held p keeps) (hf : ∀ a, Draws (keeps a) (f a) keeps') :
    Draws held (p >>= f) keeps' := by
  intro s t
  have hfirst := hp s t
  rw [bind_apply]
  revert hfirst
  rcases p s with ⟨reports, ⟨a, rest⟩ | ⟨u, rest⟩ | _⟩ <;> intro hfirst
  · exact Nat.le_trans (hf a rest t) hfirst
  · exact hfirst
  · exact Nat.zero_le _

/-- What is held can be kept. -/
theorem frame (h : Draws [] p keeps) (held : List Token) :
    Draws held p fun a => held ++ keeps a := by
  intro s t
  have hp := h s t
  revert hp
  cases (p s).outcome <;> intro hp <;>
    simp only [Outcome.tokens, List.nil_append, List.count_append, List.count_nil] at hp ⊢ <;> omega

/-- One parser after another, of which the first needs nothing of what is held. -/
theorem bind (hp : Draws [] p keeps) (hf : ∀ a, Draws (held ++ keeps a) (f a) keeps') :
    Draws held (p >>= f) keeps' :=
  (hp.frame held).bindGiven hf

theorem map {g : α → β} (hp : Draws [] p keeps) (hg : ∀ a, Within (keeps' (g a)) (keeps a)) :
    Draws [] (g <$> p) keeps' :=
  hp.bind fun a => .pure (hg a)

theorem ite {b : Bool} (hp : Draws held p keeps) (hq : Draws held q keeps) :
    Draws held (if b then p else q) keeps := by
  cases b
  · exact hq
  · exact hp

theorem exhausted : Draws held (Parser.exhausted : Parser α) keeps := fun _ _ => Nat.zero_le _

theorem fail {t : Token} {e : SyntaxError} : Draws held (Parser.fail t e : Parser α) keeps := by
  intro s t
  show s.ahead.count t ≤ _
  rw [List.count_append]
  omega

theorem report {t : Token} {e : SyntaxError} : Draws [] (Parser.report t e) fun _ => [] :=
  fun _ _ => Nat.le_refl _

theorem current : Draws [] Parser.current fun _ => [] := fun _ _ => Nat.le_refl _

theorem atEnd : Draws [] Parser.atEnd fun _ => [] := fun _ _ => Nat.le_refl _

theorem nextIs {s : Symbol} : Draws [] (Parser.nextIs s) fun _ => [] :=
  current.bind fun _ => .pure fun _ => Nat.le_refl _

theorem acceptMap? {g : Token → Option α} (keeps : α → List Token)
    (hg : ∀ t a, g t = some a → Within (keeps a) [t]) :
    Draws [] (Parser.acceptMap? g) fun o => o.toList.flatMap keeps := by
  rintro ⟨ahead, finish⟩ u
  cases ahead with
  | nil => exact Nat.le_refl _
  | cons t rest =>
    simp only [Parser.acceptMap?]
    cases ha : g t with
    | none => exact Nat.le_refl _
    | some a =>
      have hcount := hg t a ha u
      simp only [Outcome.tokens, Option.toList_some, List.flatMap_singleton, List.nil_append,
        List.count_append, List.count_cons, List.count_nil] at hcount ⊢
      omega

/-- Reading a token that may be kept. -/
theorem accept? {test : Token → Bool} :
    Draws [] (Parser.accept? test) fun o => o.toList := by
  have h : Draws [] (Parser.accept? test) fun o => o.toList.flatMap fun t => [t] := by
    refine acceptMap? (fun t => [t]) fun t a ha => ?_
    split at ha <;> cases ha
    exact fun _ => Nat.le_refl _
  exact h.mono (fun _ => Nat.le_refl _) fun o _ => by simp

theorem accept {test : Token → Bool} : Draws [] (Parser.accept test) fun _ => [] :=
  accept?.bind fun _ => .pure fun _ => by simp

/-- A token decides how to go on. -/
theorem acceptIte {test : Token → Bool} {p q : Parser β} (hp : Draws held p keeps')
    (hq : Draws held q keeps') :
    Draws held (Parser.accept test >>= fun c => if c then p else q) keeps' :=
  accept.bind fun _ => .ite (hp.given fun _ => by simp) (hq.given fun _ => by simp)

theorem nextIte {s : Symbol} {p q : Parser β} (hp : Draws held p keeps')
    (hq : Draws held q keeps') :
    Draws held (Parser.nextIs s >>= fun c => if c then p else q) keeps' :=
  nextIs.bind fun _ => .ite (hp.given fun _ => by simp) (hq.given fun _ => by simp)

theorem expect {test : Token → Bool} {e : SyntaxError} :
    Draws [] (Parser.expect test e) fun t => [t] := by
  refine accept?.bind fun o => ?_
  cases o with
  | none => exact current.bind fun _ => .fail
  | some t => exact .pure fun _ => Nat.le_refl _

/-- A token that has to stand there and is not kept. -/
theorem expectThen {test : Token → Bool} {e : SyntaxError} {p : Parser β}
    (hp : Draws held p keeps') :
    Draws held (Parser.expect test e >>= fun _ => p) keeps' := by
  have hdropped : Draws [] (Parser.expect test e) fun _ => [] :=
    expect.mono (fun _ => Nat.le_refl _) fun _ _ => by simp
  exact hdropped.bind fun _ => hp.given fun _ => by simp

/-- A part that a token announces. -/
theorem announced {test : Token → Bool} {a : α} (hp : Draws [] p keeps)
    (hf : ∀ a, Draws (held ++ keeps a) (f a) keeps') (ha : keeps a = []) :
    Draws held (Parser.accept test >>= fun c => if c then p >>= f else Pure.pure a >>= f) keeps' :=
  acceptIte (hp.bind hf) ((hf a).given fun _ => by simp [ha])

/-- A part that a token in its place excludes. -/
theorem unlessNext {s : Symbol} {a : α} (hp : Draws [] p keeps)
    (hf : ∀ a, Draws (held ++ keeps a) (f a) keeps') (ha : keeps a = []) :
    Draws held (Parser.nextIs s >>= fun c => if c then Pure.pure a >>= f else p >>= f) keeps' :=
  nextIte ((hf a).given fun _ => by simp [ha]) (hp.bind hf)

/-! ## Loops and recovery -/

theorem budgeted {p : Budget → Parser α} (h : ∀ budget, Draws held (p budget) keeps) :
    Draws held (Parser.budgeted p) keeps :=
  fun s => h (s.finish :: s.ahead) s

/-- A loop whose steps keep what they do not add to. -/
theorem iterate {step : α → Parser (Option α)}
    (hstep : ∀ a, Draws (keeps a) (step a) fun o => keeps (o.getD a)) (a : α) :
    Draws (keeps a) (Parser.iterate step a) keeps := by
  refine .budgeted fun budget => ?_
  induction budget generalizing a with
  | nil => exact .exhausted
  | cons _ budget ih =>
    refine (hstep a).bindGiven fun o => ?_
    cases o with
    | none => exact .pure fun _ => Nat.le_refl _
    | some b => exact ih b

theorem separated {tooMany : SyntaxError} (hp : Draws [] p keeps) :
    Draws [] (Parser.separated tooMany p) (·.flatMap keeps) := by
  refine nextIte (.pure fun _ => Nat.le_refl _) (.budgeted fun budget => ?_)
  generalize 0 = count
  induction budget generalizing count with
  | nil => exact .exhausted
  | cons _ budget ih =>
    have hitem : Draws [] (p >>= fun a => Parser.accept (·.isSymbol .comma) >>= fun c =>
        if c then Parser.separatedWithin tooMany p budget (count + 1) >>= fun rest =>
          Pure.pure (a :: rest) else Pure.pure [a]) (·.flatMap keeps) := by
      refine hp.bind fun a => acceptIte ((ih (count + 1)).bind fun rest => .pure ?_) (.pure ?_)
      · exact fun t => by simp
      · exact fun t => by simp
    unfold separatedWithin
    by_cases hmany : argumentLimit ≤ count
    · simp only [hmany, if_true]
      exact current.bind fun _ => report.bind fun _ => hitem
    · simp only [hmany, if_false]
      exact hitem

theorem itemsUntil {stop : Token → Bool} {p : Parser (Option α)}
    (hp : Draws [] p fun o => o.toList.flatMap keeps) :
    Draws [] (Parser.itemsUntil stop p) (·.flatMap keeps) := by
  refine .budgeted fun budget => ?_
  induction budget with
  | nil => exact .exhausted
  | cons _ budget ih =>
    unfold itemsWithin
    refine current.bind fun t => atEnd.bind fun b => .ite (.pure fun _ => Nat.zero_le _) ?_
    refine hp.bind fun o => ih.bind fun rest => .pure fun t => ?_
    simp

theorem recover (hp : Draws [] p keeps) :
    Draws [] (Parser.recover p) fun o => o.toList.flatMap keeps := by
  intro s t
  have hreply := hp s t
  unfold Parser.recover
  revert hreply
  rcases p s with ⟨reports, ⟨a, rest⟩ | ⟨u, rest⟩ | _⟩ <;> intro hreply
  · simpa [Outcome.tokens] using hreply
  · -- resuming skips tokens
    obtain ⟨skipped, hskipped, -⟩ := rest.exists_behind_synchronize
    have hcount : rest.ahead.count t = skipped.count t + rest.synchronize.ahead.count t := by
      rw [← List.count_append, ← Stream.ahead_behind, ← hskipped]
    simp only [Outcome.tokens, Option.toList_none, List.flatMap_nil, List.nil_append] at hreply ⊢
    omega
  · exact Nat.zero_le _

end Draws

/-! ## Expressions -/

/-- The tokens of an expression. -/
def ofExpr (e : Parsed) : List Token := tokens e.parts

theorem tokens_flatMap (parts : α → List (Part Unit)) (as : List α) :
    tokens (as.flatMap parts) = as.flatMap fun a => tokens (parts a) := by
  induction as with
  | nil => rfl
  | cons a as ih => rw [List.flatMap_cons, Part.tokens_append, ih, List.flatMap_cons]

theorem tokens_partsAll (es : List Parsed) : tokens (Expr.partsAll es) = es.flatMap ofExpr := by
  rw [Expr.partsAll_eq, tokens_flatMap]
  rfl

section Expressions

variable {nested : Parser Parsed}

theorem draws_superMethod (keyword : Token) : Draws [keyword] (superMethod keyword) ofExpr :=
  .expectThen <| Draws.expect.bind fun method => .pure fun t => by
    simp [ofExpr, Expr.parts, Token.ref]

theorem draws_grouped (h : Draws [] nested ofExpr) : Draws [] (grouped nested) ofExpr :=
  h.bind fun _ => .expectThen <| .pure fun _ => Nat.le_refl _

theorem draws_primary (h : Draws [] nested ofExpr) : Draws [] (primary nested) ofExpr := by
  refine (Draws.acceptMap? (fun _ => []) fun _ _ _ _ => Nat.zero_le _).bind fun o => ?_
  cases o with
  | some value => exact .pure fun _ => Nat.zero_le _
  | none =>
  refine Draws.accept?.bind fun o => ?_
  cases o with
  | some keyword => exact .pure fun t => Nat.le_refl _
  | none =>
  refine Draws.accept?.bind fun o => ?_
  cases o with
  | some keyword => exact (draws_superMethod keyword).given fun t => Nat.le_refl _
  | none =>
  refine Draws.accept?.bind fun o => ?_
  cases o with
  | some name => exact .pure fun t => Nat.le_refl _
  | none =>
  exact .acceptIte ((draws_grouped h).given fun t => Nat.le_refl _) <|
    Draws.current.bind fun _ => .fail

theorem draws_finishCall (h : Draws [] nested ofExpr) (callee : Parsed) :
    Draws (ofExpr callee) (finishCall nested callee) ofExpr := by
  refine h.separated.bind fun arguments => Draws.expect.bind fun paren => .pure fun t => ?_
  simp only [ofExpr, Expr.parts, Part.tokens_append, Part.tokens_token, tokens_partsAll,
    List.count_append, List.count_cons, List.count_nil]
  omega

theorem draws_callStep (h : Draws [] nested ofExpr) (e : Parsed) :
    Draws (ofExpr e) (callStep nested e) fun o => ofExpr (o.getD e) := by
  refine .acceptIte ?_ (.acceptIte ?_ (.pure fun _ => Nat.le_refl _))
  · exact (draws_finishCall h e).bindGiven fun x => .pure fun _ => Nat.le_refl _
  · exact Draws.expect.bind fun name => .pure fun t => by simp [ofExpr, Expr.parts]

theorem draws_call (h : Draws [] nested ofExpr) : Draws [] (call nested) ofExpr :=
  (draws_primary h).bind fun e => .iterate (draws_callStep h) e

/-- The tokens of the operators before an operand. -/
def ofOperators (ops : List (UnaryOp × Token)) : List Token := ops.map (·.2)

theorem draws_unaryStep (ops : List (UnaryOp × Token)) :
    Draws (ofOperators ops) (unaryStep ops) fun o => ofOperators (o.getD ops) := by
  refine (Draws.acceptMap? (fun op : UnaryOp × Token => [op.2]) fun t op h => ?_).bind
    fun o => .pure ?_
  · obtain ⟨_, -, rfl⟩ := Option.map_eq_some_iff.1 h
    exact fun _ => Nat.le_refl _
  · intro t
    cases o <;> simp [ofOperators, List.count_cons]

theorem within_operators (ops : List (UnaryOp × Token)) (e : Parsed) :
    Within (ofExpr (ops.foldl (fun e op => .unary op.1 op.2 e) e))
      (ofOperators ops ++ ofExpr e) := by
  induction ops generalizing e with
  | nil => exact fun _ => Nat.le_refl _
  | cons op ops ih =>
    intro t
    have hrest := ih (.unary op.1 op.2 e) t
    simp only [ofOperators, ofExpr, Expr.parts, List.map_cons, List.foldl_cons, Part.tokens_token,
      List.count_append, List.count_cons] at hrest ⊢
    omega

theorem draws_unary (h : Draws [] nested ofExpr) : Draws [] (unary nested) ofExpr :=
  Draws.bind (.iterate draws_unaryStep []) fun ops => (draws_call h).bind fun e =>
    .pure (within_operators ops e)

theorem draws_binaryStep {level : Level} {operand : Parser Parsed} (h : Draws [] operand ofExpr)
    (left : Parsed) :
    Draws (ofExpr left) (binaryStep level operand left) fun o => ofExpr (o.getD left) := by
  refine (Draws.acceptMap? (fun op : BinaryOp × Token => [op.2]) fun t op h => ?_).bind
    fun o => ?_
  · obtain ⟨_, -, rfl⟩ := Option.map_eq_some_iff.1 h
    exact fun _ => Nat.le_refl _
  · cases o with
    | none => exact .pure fun t => by simp
    | some op => exact h.bind fun right => .pure fun t => by simp [ofExpr, Expr.parts]

theorem draws_chain {level : Level} {operand : Parser Parsed} (h : Draws [] operand ofExpr) :
    Draws [] (chain level operand) ofExpr :=
  h.bind fun e => .iterate (draws_binaryStep h) e

theorem draws_binary (h : Draws [] nested ofExpr) : Draws [] (binary nested .equality) ofExpr :=
  draws_chain <| draws_chain <| draws_chain <| draws_chain <| draws_unary h

theorem draws_logicalStep {op : LogicalOp} {operand : Parser Parsed}
    (h : Draws [] operand ofExpr) (left : Parsed) :
    Draws (ofExpr left) (logicalStep op operand left) fun o => ofExpr (o.getD left) := by
  refine Draws.accept?.bind fun o => ?_
  cases o with
  | none => exact .pure fun t => by simp
  | some token => exact h.bind fun right => .pure fun t => by simp [ofExpr, Expr.parts]

theorem draws_disjunction (h : Draws [] nested ofExpr) : Draws [] (disjunction nested) ofExpr := by
  have hand : Draws [] (conjunction nested) ofExpr :=
    (draws_binary h).bind fun e => .iterate (draws_logicalStep (draws_binary h)) e
  exact hand.bind fun e => .iterate (draws_logicalStep hand) e

theorem draws_ternary (h : Draws [] nested ofExpr) : Draws [] (ternary nested) ofExpr := by
  refine (draws_disjunction h).bind fun condition => Draws.accept?.bind fun o => ?_
  cases o with
  | none => exact .pure fun t => by simp
  | some question =>
    refine .ite (h.bind fun whenTrue => .expectThen <| h.bind fun whenFalse => .pure fun t => ?_)
      .fail
    simp only [ofExpr, Expr.parts, Part.tokens_append, Part.tokens_token, Option.toList_some,
      List.count_append, List.count_cons, List.count_nil]
    omega

theorem draws_assignTo (equals : Token) (target value : Parsed) :
    Draws (ofExpr target ++ ofExpr value) (assignTo equals target value) ofExpr := by
  cases target with
  | «variable» name => exact .pure fun t => by simp [ofExpr, Expr.parts]
  | field object name => exact .pure fun t => by simp [ofExpr, Expr.parts]
  | _ => exact Draws.report.bind fun _ => .pure fun t => by simp

theorem draws_assignment (h : Draws [] nested ofExpr) : Draws [] (assignment nested) ofExpr := by
  refine (draws_ternary h).bind fun target => Draws.accept?.bind fun o => ?_
  cases o with
  | none => exact .pure fun t => by simp
  | some equals =>
    exact h.bind fun value => (draws_assignTo equals target value).given fun t => by
      simp only [Option.toList_some, List.count_append]
      omega

end Expressions

/-- An expression has its tokens from what is read, whatever is reported. -/
theorem draws_expression : Draws [] expression ofExpr := by
  refine .budgeted fun budget => ?_
  induction budget with
  | nil => exact .exhausted
  | cons _ budget ih => exact draws_assignment ih

/-! ## Statements -/

/-- The tokens of a statement. -/
def ofStmt (s : ParsedStmt) : List Token := tokens s.parts

/-- The tokens of a function. -/
def ofFunction (f : FunDecl Unit) : List Token := tokens f.parts

/-- The tokens of an expression that may be absent. -/
def ofExpr? (o : Option Parsed) : List Token := tokens (Expr.parts? o)

theorem tokens_statements (ss : List ParsedStmt) :
    tokens (Stmt.partsAll ss) = ss.flatMap ofStmt := by
  rw [Stmt.partsAll_eq, tokens_flatMap]
  rfl

theorem draws_someExpression : Draws [] (some <$> expression) ofExpr? :=
  draws_expression.map fun _ _ => Nat.le_refl _

theorem draws_expressionStatement : Draws [] expressionStatement ofStmt :=
  draws_expression.bind fun _ => .expectThen <| .pure fun _ => Nat.le_refl _

theorem draws_varDeclaration : Draws [] varDeclaration ofStmt :=
  Draws.expect.bind fun _ => .announced draws_someExpression
    (fun _ => .expectThen <| .pure fun _ => Nat.le_refl _) rfl

theorem draws_printStatement : Draws [] printStatement ofStmt :=
  draws_expression.bind fun _ => .expectThen <| .pure fun _ => Nat.le_refl _

theorem draws_returnStatement (keyword : Token) :
    Draws [keyword] (returnStatement keyword) ofStmt :=
  .unlessNext draws_someExpression
    (fun _ => .expectThen <| .pure fun _ => Nat.le_refl _) rfl

section Statements

variable {stmt : Parser ParsedStmt} {decl : Parser (Option ParsedStmt)}

/-- The tokens of a declaration, unless it is lost. -/
def ofDeclaration (o : Option ParsedStmt) : List Token := o.toList.flatMap ofStmt

theorem draws_block (h : Draws [] decl ofDeclaration) :
    Draws [] (block decl) (·.flatMap ofStmt) :=
  (Draws.itemsUntil h).bind fun _ => .expectThen <| .pure fun _ => Nat.le_refl _

theorem draws_function (h : Draws [] decl ofDeclaration) (role : String) :
    Draws [] (function decl role) ofFunction := by
  refine Draws.expect.bind fun name => .expectThen <| (Draws.separated .expect).bind fun params =>
    .expectThen <| .expectThen <| (draws_block h).bind fun body => .pure fun t => ?_
  simp [ofFunction, FunDecl.parts, tokens_statements, List.flatMap_singleton']

/-- The tokens of a member of a class. -/
def ofMember (m : Bool × FunDecl Unit) : List Token := ofFunction m.2

theorem draws_member (h : Draws [] decl ofDeclaration) :
    Draws [] (member decl) fun o => o.toList.flatMap ofMember := by
  refine .acceptIte ?_ ?_
  · exact (draws_function h _).bind fun f => .pure fun t => by simp [ofMember]
  · exact (draws_function h _).bind fun f => .pure fun t => by simp [ofMember]

theorem draws_classDeclaration (h : Draws [] decl ofDeclaration) :
    Draws [] (classDeclaration decl) ofStmt := by
  have hsuper : Draws [] ((some ·.ref) <$> identifier .expectSuperclassName)
      fun o => tokens (o.toList.flatMap Ref.use) :=
    Draws.expect.map fun t _ => by simp [Token.ref]
  refine Draws.expect.bind fun name => .announced hsuper (fun superclass => ?_) rfl
  refine .expectThen <| (Draws.itemsUntil (draws_member h)).bind fun members => .expectThen <|
    .pure fun t => ?_
  -- the static methods come before the others
  have hmembers : (tokens (FunDecl.partsAll ((members.filter (·.1)).map (·.2)) ++
      FunDecl.partsAll ((members.filter (!·.1)).map (·.2)))).count t =
      (members.flatMap ofMember).count t := by
    refine (((FunDecl.perm_partsAll members).filterMap Part.token?).count_eq t).symm.trans ?_
    rw [← tokens, tokens_flatMap, List.flatMap_map]
    rfl
  simp only [ofStmt, Stmt.parts, Part.tokens_append, Part.tokens_token, List.count_append,
    List.count_cons, List.count_nil] at hmembers ⊢
  omega

theorem draws_forInitializer : Draws [] forInitializer ofDeclaration := by
  refine .acceptIte (.pure fun _ => Nat.le_refl _) (.acceptIte ?_ ?_)
  · exact draws_varDeclaration.bind fun s => .pure fun t => by simp [ofDeclaration]
  · exact draws_expressionStatement.bind fun s => .pure fun t => by simp [ofDeclaration]

/-- Loops are put together from their clauses, each of which is used once. -/
theorem draws_forStatement (h : Draws [] stmt ofStmt) : Draws [] (forStatement stmt) ofStmt := by
  refine .expectThen <| draws_forInitializer.bind fun first => .unlessNext draws_someExpression
    (fun condition => .expectThen <| .unlessNext draws_someExpression
      (fun increment => .expectThen <| h.bind fun body => .pure fun t => ?_) rfl) rfl
  have hparts := ((Stmt.perm_parts_forLoop first condition increment body).filterMap
    Part.token?).count_eq t
  have hfirst : tokens (Stmt.parts? first) = ofDeclaration first := by
    cases first <;> simp [Stmt.parts?, ofDeclaration, ofStmt]
  rw [← tokens, ← tokens] at hparts
  rw [ofStmt, ← hparts]
  simp [hfirst, ofExpr?, ofStmt]

theorem draws_ifStatement (h : Draws [] stmt ofStmt) : Draws [] (ifStatement stmt) ofStmt := by
  refine .expectThen <| draws_expression.bind fun condition => .expectThen <|
    h.bind fun thenBranch => .acceptIte (h.bind fun elseBranch => .pure fun t => ?_)
      (.pure fun t => ?_)
  · simp [ofStmt, ofExpr, Stmt.parts]
  · simp [ofStmt, ofExpr, Stmt.parts]

theorem draws_whileStatement (h : Draws [] stmt ofStmt) :
    Draws [] (whileStatement stmt) ofStmt :=
  .expectThen <| draws_expression.bind fun condition => .expectThen <| h.bind fun body =>
    .pure fun t => by simp [ofStmt, ofExpr, Stmt.parts]

theorem draws_statementWith (hs : Draws [] stmt ofStmt) (hd : Draws [] decl ofDeclaration) :
    Draws [] (statementWith stmt decl) ofStmt := by
  refine .acceptIte (draws_forStatement hs) <| .acceptIte (draws_ifStatement hs) <|
    .acceptIte draws_printStatement <| Draws.accept?.bind fun o => ?_
  cases o with
  | some keyword => exact draws_returnStatement keyword
  | none =>
    refine .acceptIte (draws_whileStatement hs) <| .acceptIte ?_ draws_expressionStatement
    exact (draws_block hd).bind fun body => .pure fun t => by simp [ofStmt, Stmt.parts,
      tokens_statements]

theorem draws_declarationWith (hs : Draws [] stmt ofStmt) (hd : Draws [] decl ofDeclaration) :
    Draws [] (declarationWith stmt decl) ofDeclaration := by
  refine .recover <| .acceptIte (draws_classDeclaration hd) <| .acceptIte ?_ <|
    .acceptIte draws_varDeclaration (draws_statementWith hs hd)
  exact (draws_function hd _).bind fun f => .pure fun _ => Nat.le_refl _

end Statements

/-- A declaration has its tokens from what is read, whatever is reported. -/
theorem draws_declaration : Draws [] declaration ofDeclaration := by
  refine .budgeted fun budget => ?_
  have hboth : Draws [] (statementWithin budget) ofStmt ∧
      Draws [] (declarationWithin budget) ofDeclaration := by
    induction budget with
    | nil => exact ⟨.exhausted, .exhausted⟩
    | cons _ budget ih =>
      exact ⟨draws_statementWith ih.1 ih.2, draws_declarationWith ih.1 ih.2⟩
  exact hboth.2

end Parser

/-- The trees of a text have their tokens from the text, each at most once. -/
theorem within_parse (source : String) :
    Within (tokens (Stmt.partsAll (parse source).statements)) (scan source).tokens := by
  intro t
  have hprogram : Parser.Draws [] Parser.program _ :=
    Parser.Draws.itemsUntil Parser.draws_declaration
  have hcount := hprogram (scan source).stream t
  have hstatements : (parse source).statements =
      (Parser.program (scan source).stream).statements := rfl
  rw [hstatements, Parser.tokens_statements, Reply.statements]
  revert hcount
  cases (Parser.program (scan source).stream).outcome with
  | ok body rest =>
    intro hcount
    rw [Outcome.tokens, List.count_append] at hcount
    exact Nat.le_trans (Nat.le_add_right _ _) hcount
  | unwound | exhausted => exact fun _ => Nat.zero_le _

/-- No token stands at two places of the trees of a text, whatever is reported of it. -/
theorem nodup_tokens_parse (source : String) :
    (tokens (Stmt.partsAll (parse source).statements)).Nodup :=
  List.nodup_iff_count_le_one.2 fun t => Nat.le_trans (within_parse source t)
    (List.nodup_iff_count_le_one.1 (nodup_tokens source) t)

end Lox
