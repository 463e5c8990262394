import Lox.Proofs.Parser.Tokens

/-!
# The tokens that parsers look at

A parser looks at no token but those of its stream and the token that marks the end: what it
reports is reported at one of them, and what it leaves is made of them. This is kept by every way
to put parsers together, whatever is reported and wherever reading resumes.

## Main definitions

* `Report.Among`: a report of a problem with the grammar at one of some tokens
* `Parser.Confined`: a parser of streams of some tokens leaves and reports no others

## Main results

* `Confined.bind`: one parser after another
* `Confined.iterate`, `Confined.separated`, `Confined.itemsUntil`, `Confined.recover`: loops and
  recovery
* `confined_declaration`: whatever is reported of a declaration is reported at a token
-/

namespace Lox

/-- A report of a problem with the grammar at one of the tokens that satisfy `T`. -/
def Report.Among (T : Token → Prop) (r : Report) : Prop :=
  ∃ t e, T t ∧ r = .ofToken t (.grammar e)

namespace Stream

/-- Every token of a stream and the token that marks its end satisfy `T`. -/
def All (T : Token → Prop) (s : Stream) : Prop := T s.finish ∧ ∀ t ∈ s.ahead, T t

theorem All.current {T : Token → Prop} {s : Stream} (h : s.All T) : T s.current := by
  obtain ⟨ahead, finish⟩ := s
  cases ahead with
  | nil => exact h.1
  | cons t rest => exact h.2 t List.mem_cons_self

theorem All.of_behind {T : Token → Prop} {s : Stream} {ts : List Token} (h : (s.behind ts).All T) :
    s.All T :=
  ⟨h.1, fun t ht => h.2 t (List.mem_append_right ts ht)⟩

end Stream

/-- What an outcome leaves of a stream consists of tokens that satisfy `T`, and its result
satisfies `K`. -/
def Outcome.Confined {α : Type} (T : Token → Prop) (K : α → Prop) : Outcome α → Prop
  | ok a rest => K a ∧ rest.All T
  | unwound _ rest => rest.All T
  | exhausted => True

namespace Parser

variable {α β : Type} {T : Token → Prop} {K : α → Prop} {L : β → Prop} {p q : Parser α}
  {f : α → Parser β}

/-- A parser of streams of tokens that satisfy `T` reports problems at such tokens only, leaves no
others, and has a result that satisfies `K`. -/
def Confined (T : Token → Prop) (K : α → Prop) (p : Parser α) : Prop :=
  ∀ s : Stream, s.All T → (∀ r ∈ (p s).reports, r.Among T) ∧ (p s).outcome.Confined T K

/-- Any result. -/
abbrev anything {α : Type} (_ : α) : Prop := True

namespace Confined

/-! ## Ways to put parsers together -/

theorem pure {a : α} (h : K a) : Confined T K (Pure.pure a) :=
  fun _ hs => ⟨by simp, h, hs⟩

theorem bind (hp : Confined T K p) (hf : ∀ a, K a → Confined T L (f a)) :
    Confined T L (p >>= f) := by
  intro s hs
  have hfirst := hp s hs
  rw [bind_apply]
  revert hfirst
  rcases p s with ⟨reports, ⟨a, rest⟩ | ⟨u, rest⟩ | _⟩
  · rintro ⟨hreports, ha, hrest⟩
    obtain ⟨hmore, hout⟩ := hf a ha rest hrest
    refine ⟨fun r hr => ?_, hout⟩
    cases List.mem_append.1 hr with
    | inl hr => exact hreports r hr
    | inr hr => exact hmore r hr
  · exact id
  · exact id

/-- One parser after another, whatever the result of the first. -/
theorem next (hp : Confined T K p) (hf : ∀ a, Confined T L (f a)) : Confined T L (p >>= f) :=
  hp.bind fun a _ => hf a

theorem map {g : α → β} (hp : Confined T K p) : Confined T anything (g <$> p) :=
  hp.next fun _ => .pure trivial

theorem ite {b : Prop} [Decidable b] (hp : Confined T K p) (hq : Confined T K q) :
    Confined T K (if b then p else q) := by
  by_cases h : b
  · rwa [if_pos h]
  · rwa [if_neg h]

theorem exhausted : Confined T K (Parser.exhausted : Parser α) :=
  fun _ _ => ⟨by simp [Parser.exhausted], trivial⟩

theorem fail {t : Token} {e : SyntaxError} (ht : T t) : Confined T K (Parser.fail t e) :=
  fun _ hs => ⟨by simpa [Parser.fail] using ⟨t, e, ht, rfl⟩, hs⟩

theorem report {t : Token} {e : SyntaxError} (ht : T t) :
    Confined T anything (Parser.report t e) :=
  fun _ hs => ⟨by simpa [Parser.report] using ⟨t, e, ht, rfl⟩, trivial, hs⟩

theorem current : Confined T T Parser.current :=
  fun _ hs => ⟨by simp [Parser.current], hs.current, hs⟩

theorem atEnd : Confined T anything Parser.atEnd :=
  fun _ hs => ⟨by simp [Parser.atEnd], trivial, hs⟩

theorem nextIs {s : Symbol} : Confined T anything (Parser.nextIs s) :=
  current.next fun _ => .pure trivial

/-- What is made of a token that was read is made of a token of the stream. -/
theorem acceptMap? {g : Token → Option α} (hg : ∀ t a, T t → g t = some a → K a) :
    Confined T (fun o => ∀ a ∈ o, K a) (Parser.acceptMap? g) := by
  rintro ⟨ahead, finish⟩ hs
  cases ahead with
  | nil => exact ⟨by simp [Parser.acceptMap?], by simp, hs⟩
  | cons t rest =>
    simp only [Parser.acceptMap?]
    cases ha : g t with
    | none => exact ⟨by simp, by simp, hs⟩
    | some a =>
      refine ⟨by simp, ?_, hs.1, fun u hu => hs.2 u (List.mem_cons_of_mem t hu)⟩
      intro b hb
      cases hb
      exact hg t a (hs.2 t List.mem_cons_self) ha

theorem accept? {test : Token → Bool} :
    Confined T (fun o => ∀ t ∈ o, T t) (Parser.accept? test) := by
  refine acceptMap? fun t a ht ha => ?_
  split at ha <;> cases ha
  exact ht

/-- A token decides how to go on. -/
theorem acceptIte {test : Token → Bool} {p q : Parser β} (hp : Confined T L p)
    (hq : Confined T L q) :
    Confined T L (Parser.accept test >>= fun c => if c then p else q) := by
  rw [accept_bind]
  exact accept?.next fun _ => .ite hp hq

theorem nextIte {s : Symbol} {p q : Parser β} (hp : Confined T L p) (hq : Confined T L q) :
    Confined T L (Parser.nextIs s >>= fun c => if c then p else q) :=
  nextIs.next fun _ => .ite hp hq

theorem expect {test : Token → Bool} {e : SyntaxError} : Confined T T (Parser.expect test e) := by
  refine accept?.bind fun o ho => ?_
  cases o with
  | none => exact current.bind fun t ht => .fail ht
  | some t => exact .pure (ho t rfl)

/-! ## Loops and recovery -/

theorem budgeted {p : Budget → Parser α} (h : ∀ budget, Confined T K (p budget)) :
    Confined T K (Parser.budgeted p) :=
  fun s hs => h (s.finish :: s.ahead) s hs

theorem iterate {step : α → Parser (Option α)} (hstep : ∀ a, Confined T anything (step a))
    (a : α) : Confined T anything (Parser.iterate step a) := by
  refine .budgeted fun budget => ?_
  induction budget generalizing a with
  | nil => exact .exhausted
  | cons _ budget ih =>
    refine (hstep a).next fun o => ?_
    cases o with
    | none => exact .pure trivial
    | some b => exact ih b

theorem separated {tooMany : SyntaxError} (hp : Confined T K p) :
    Confined T anything (Parser.separated tooMany p) := by
  refine .nextIte (.pure trivial) (.budgeted fun budget => ?_)
  generalize 0 = count
  induction budget generalizing count with
  | nil => exact .exhausted
  | cons _ budget ih =>
    have hitem : Confined T anything (p >>= fun a => Parser.accept (·.isSymbol .comma) >>= fun c =>
        if c then Parser.separatedWithin tooMany p budget (count + 1) >>= fun rest =>
          Pure.pure (a :: rest) else Pure.pure [a]) :=
      hp.next fun a => .acceptIte ((ih (count + 1)).next fun _ => .pure trivial) (.pure trivial)
    unfold separatedWithin
    by_cases hmany : argumentLimit ≤ count
    · simp only [hmany, if_true]
      exact current.bind fun t ht => (report ht).next fun _ => hitem
    · simp only [hmany, if_false]
      exact hitem

theorem itemsUntil {stop : Token → Bool} {p : Parser (Option α)} (hp : Confined T anything p) :
    Confined T anything (Parser.itemsUntil stop p) := by
  refine .budgeted fun budget => ?_
  induction budget with
  | nil => exact .exhausted
  | cons _ budget ih =>
    unfold itemsWithin
    exact current.next fun _ => atEnd.next fun _ => .ite (.pure trivial) <|
      hp.next fun _ => ih.next fun _ => .pure trivial

/-- Resuming skips tokens. -/
theorem recover (hp : Confined T K p) : Confined T anything (Parser.recover p) := by
  intro s hs
  have hreply := hp s hs
  unfold Parser.recover
  revert hreply
  rcases p s with ⟨reports, ⟨a, rest⟩ | ⟨u, rest⟩ | _⟩
  · exact fun hreply => ⟨hreply.1, trivial, hreply.2.2⟩
  · intro hreply
    obtain ⟨skipped, hskipped, -⟩ := rest.exists_behind_synchronize
    have hrest : (rest.synchronize.behind skipped).All T := hskipped ▸ hreply.2
    exact ⟨hreply.1, trivial, hrest.of_behind⟩
  · exact id

end Confined

/-! ## Expressions -/

section Expressions

variable {nested : Parser Parsed}

theorem confined_primary (h : Confined T anything nested) :
    Confined T anything (primary nested) := by
  refine (Confined.acceptMap? (K := anything) fun _ _ _ _ => trivial).next fun o => ?_
  cases o with
  | some value => exact .pure trivial
  | none =>
  refine Confined.accept?.next fun o => ?_
  cases o with
  | some keyword => exact .pure trivial
  | none =>
  refine Confined.accept?.next fun o => ?_
  cases o with
  | some keyword => exact Confined.expect.next fun _ => Confined.expect.next fun _ => .pure trivial
  | none =>
  refine Confined.accept?.next fun o => ?_
  cases o with
  | some name => exact .pure trivial
  | none =>
    refine .acceptIte ?_ (Confined.current.bind fun t ht => .fail ht)
    exact h.next fun _ => Confined.expect.next fun _ => .pure trivial

theorem confined_callStep (h : Confined T anything nested) (e : Parsed) :
    Confined T anything (callStep nested e) := by
  refine .acceptIte ?_ (.acceptIte ?_ (.pure trivial))
  · have hfinish : Confined T anything (finishCall nested e) :=
      h.separated.next fun _ => Confined.expect.next fun _ => .pure trivial
    exact hfinish.next fun _ => .pure trivial
  · exact Confined.expect.next fun _ => .pure trivial

theorem confined_unary (h : Confined T anything nested) : Confined T anything (unary nested) := by
  have hstep : ∀ ops, Confined T anything (unaryStep ops) := fun ops =>
    (Confined.acceptMap? (K := anything) fun _ _ _ _ => trivial).next fun _ => .pure trivial
  have hcall : Confined T anything (call nested) :=
    (confined_primary h).next fun e => .iterate (confined_callStep h) e
  exact (Confined.iterate hstep []).next fun _ => hcall.next fun _ => .pure trivial

theorem confined_chain {level : Level} {operand : Parser Parsed}
    (h : Confined T anything operand) : Confined T anything (chain level operand) := by
  refine h.next fun e => .iterate (fun left => ?_) e
  refine (Confined.acceptMap? (K := anything) fun _ _ _ _ => trivial).next fun o => ?_
  cases o with
  | none => exact .pure trivial
  | some op => exact h.next fun _ => .pure trivial

theorem confined_logicalStep {op : LogicalOp} {operand : Parser Parsed}
    (h : Confined T anything operand) (left : Parsed) :
    Confined T anything (logicalStep op operand left) := by
  refine Confined.accept?.next fun o => ?_
  cases o with
  | none => exact .pure trivial
  | some token => exact h.next fun _ => .pure trivial

theorem confined_disjunction (h : Confined T anything nested) :
    Confined T anything (disjunction nested) := by
  have hequality : Confined T anything (binary nested .equality) :=
    confined_chain <| confined_chain <| confined_chain <| confined_chain <| confined_unary h
  have hand : Confined T anything (conjunction nested) :=
    hequality.next fun e => .iterate (confined_logicalStep hequality) e
  exact hand.next fun e => .iterate (confined_logicalStep hand) e

/-- A condition that is no comparison is reported at the sign after it, which has been read. -/
theorem confined_ternary (h : Confined T anything nested) :
    Confined T anything (ternary nested) := by
  refine (confined_disjunction h).next fun condition => Confined.accept?.bind fun o ho => ?_
  cases o with
  | none => exact .pure trivial
  | some question =>
    refine .ite ?_ (.fail (ho question rfl))
    exact h.next fun _ => Confined.expect.next fun _ => h.next fun _ => .pure trivial

theorem confined_assignment (h : Confined T anything nested) :
    Confined T anything (assignment nested) := by
  refine (confined_ternary h).next fun target => Confined.accept?.bind fun o ho => ?_
  cases o with
  | none => exact .pure trivial
  | some equals =>
    refine h.next fun value => ?_
    unfold assignTo
    split
    · exact .pure trivial
    · exact .pure trivial
    · exact (Confined.report (ho equals rfl)).next fun _ => .pure trivial

end Expressions

theorem confined_expression : Confined T anything expression := by
  refine .budgeted fun budget => ?_
  induction budget with
  | nil => exact .exhausted
  | cons _ budget ih => exact confined_assignment ih

/-! ## Statements -/

theorem confined_expressionStatement : Confined T anything expressionStatement :=
  confined_expression.next fun _ => Confined.expect.next fun _ => .pure trivial

theorem confined_varDeclaration : Confined T anything varDeclaration :=
  Confined.expect.next fun _ => .acceptIte
    (confined_expression.map.next fun _ => Confined.expect.next fun _ => .pure trivial)
    (Confined.expect.next fun _ => .pure trivial)

section Statements

variable {stmt : Parser ParsedStmt} {decl : Parser (Option ParsedStmt)}

theorem confined_block (h : Confined T anything decl) : Confined T anything (block decl) :=
  (Confined.itemsUntil h).next fun _ => Confined.expect.next fun _ => .pure trivial

theorem confined_function (h : Confined T anything decl) (role : String) :
    Confined T anything (function decl role) :=
  Confined.expect.next fun _ => Confined.expect.next fun _ =>
    (Confined.separated .expect).next fun _ => Confined.expect.next fun _ =>
      Confined.expect.next fun _ => (confined_block h).next fun _ => .pure trivial

theorem confined_classDeclaration (h : Confined T anything decl) :
    Confined T anything (classDeclaration decl) := by
  have hmember : Confined T anything (member decl) :=
    .acceptIte ((confined_function h _).next fun _ => .pure trivial)
      ((confined_function h _).next fun _ => .pure trivial)
  have hbody : ∀ name superclass, Confined T anything (do
      let _ ← symbol .leftBrace .expectClassOpen
      let members ← Parser.itemsUntil (·.isSymbol .rightBrace) (member decl)
      let _ ← symbol .rightBrace .expectClassClose
      return Stmt.class name superclass ((members.filter (·.1)).map (·.2))
        ((members.filter (!·.1)).map (·.2))) := fun _ _ =>
    Confined.expect.next fun _ => (Confined.itemsUntil hmember).next fun _ =>
      Confined.expect.next fun _ => .pure trivial
  exact Confined.expect.next fun name =>
    .acceptIte (Confined.expect.map.next fun superclass => hbody name superclass) (hbody name none)

theorem confined_forStatement (h : Confined T anything stmt) :
    Confined T anything (forStatement stmt) := by
  have hfirst : Confined T anything forInitializer :=
    .acceptIte (.pure trivial) <|
      .acceptIte (confined_varDeclaration.next fun _ => .pure trivial)
        (confined_expressionStatement.next fun _ => .pure trivial)
  refine Confined.expect.next fun _ => hfirst.next fun first => ?_
  -- the increment and the body come after the condition, whether there is one or not
  have hrest : ∀ condition, Confined T anything (do
      let _ ← symbol .semicolon .expectForConditionEnd
      let increment ← if ← Parser.nextIs .rightParen then Pure.pure none else some <$> expression
      let _ ← symbol .rightParen .expectForClose
      return Stmt.forLoop first condition increment (← stmt)) := fun _ =>
    Confined.expect.next fun _ => .nextIte
      (Confined.expect.next fun _ => h.next fun _ => .pure trivial)
      (confined_expression.map.next fun _ => Confined.expect.next fun _ =>
        h.next fun _ => .pure trivial)
  exact .nextIte (hrest none) (confined_expression.map.next hrest)

theorem confined_ifStatement (h : Confined T anything stmt) :
    Confined T anything (ifStatement stmt) :=
  Confined.expect.next fun _ => confined_expression.next fun _ => Confined.expect.next fun _ =>
    h.next fun _ => .acceptIte (h.next fun _ => .pure trivial) (.pure trivial)

theorem confined_statementWith (hs : Confined T anything stmt) (hd : Confined T anything decl) :
    Confined T anything (statementWith stmt decl) := by
  refine .acceptIte (confined_forStatement hs) <| .acceptIte (confined_ifStatement hs) <|
    .acceptIte ?_ <| Confined.accept?.next fun o => ?_
  · exact confined_expression.next fun _ => Confined.expect.next fun _ => .pure trivial
  cases o with
  | some keyword =>
    exact .nextIte (Confined.expect.next fun _ => .pure trivial)
      (confined_expression.map.next fun _ => Confined.expect.next fun _ => .pure trivial)
  | none =>
    refine .acceptIte ?_ <| .acceptIte ((confined_block hd).next fun _ => .pure trivial)
      confined_expressionStatement
    exact Confined.expect.next fun _ => confined_expression.next fun _ =>
      Confined.expect.next fun _ => hs.next fun _ => .pure trivial

theorem confined_declarationWith (hs : Confined T anything stmt) (hd : Confined T anything decl) :
    Confined T anything (declarationWith stmt decl) :=
  Confined.recover (K := anything) <| .acceptIte (confined_classDeclaration hd) <|
    .acceptIte ((confined_function hd _).next fun _ => .pure trivial) <|
      .acceptIte confined_varDeclaration (confined_statementWith hs hd)

end Statements

/-- Whatever is reported of a declaration is reported at a token of the stream or at its end. -/
theorem confined_declaration : Confined T anything declaration := by
  refine .budgeted fun budget => ?_
  have hboth : Confined T anything (statementWithin budget) ∧
      Confined T anything (declarationWithin budget) := by
    induction budget with
    | nil => exact ⟨.exhausted, .exhausted⟩
    | cons _ budget ih =>
      exact ⟨confined_statementWith ih.1 ih.2, confined_declarationWith ih.1 ih.2⟩
  exact hboth.2

/-- Whatever is reported of a program is reported at a token of the stream or at its end. -/
theorem confined_program : Confined T anything program := .itemsUntil confined_declaration

end Parser

end Lox
