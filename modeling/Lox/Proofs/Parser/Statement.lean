import Lox.Parser.Statement
import Lox.Proofs.Parser.Expression

/-!
# What the parsers of statements read

Without a report, the parsers of statements and declarations read what their nonterminals
derive. A declaration that is lost has been reported, so it counts as read all the same; it
takes at least a token as long as one is left.

## Main definitions

* `NestedStatements`, `NestedDeclarations`: parsers of nested statements that read alike

## Main results

* `Alike.statementWith`, `AlikeOn.declarationWith`: statements are read alike where the
  statements nested in them are
* `statement_eq`, `declaration_eq`: the two nonterminals without their budgets
* `nested_statement`, `nested_declaration`: what the parsers of the two nonterminals read
* `derivable_of_reports`: what is parsed without a report is a program
-/

namespace Lox.Parser

open Grammar

variable {α β : Type} {n : Nat} {t : Token}

/-- The parsers of nested statements read alike below a length. -/
abbrev NestedStatements (n : Nat) (p q : Parser ParsedStmt) : Prop :=
  Alike n one (fun us _ => derivable .statement us) p q

/-- The parsers of nested declarations read alike below a length, unless nothing is left. -/
abbrev NestedDeclarations (n : Nat) (p q : Parser (Option ParsedStmt)) : Prop :=
  ∀ s : Stream, s.ahead.length < n → s.ahead ≠ [] →
    AlikeOn one (fun us _ => derivable .declaration us) p q s

/-! ## Optional parts -/

/-- What follows a part that a token announces. -/
theorem Alike.announced {test : Token → Bool} {F : Form} {p p' : Parser α} {a : α}
    {f f' : α → Parser β} {l : β → Nat} {H : List Token → β → Prop}
    (hp : Alike (n - 1) (fun _ => 0) (fun us _ => Derives F us) p p')
    (hf : ∀ a, Alike n l (fun us b => ∀ ts, Derives (.opt (.token test ++ F)) ts → H (ts ++ us) b)
      (f a) (f' a)) :
    Alike n l H (Parser.accept test >>= fun c => if c then p >>= f else Pure.pure a >>= f)
      (Parser.accept test >>= fun c => if c then p' >>= f' else Pure.pure a >>= f') := by
  refine .accept (fun t ht => ?_) ?_
  · refine hp.bind fun a => (hf a).mono (by simp) (fun _ => by simp) ?_
    intro us b hus ts hts
    simpa using hus (t :: ts) (.present (.seq (u := [t]) (.token ht) hts))
  · refine .pureBind ((hf a).mono (Nat.le_refl _) (fun _ => Nat.le_refl _) ?_)
    exact fun us b hus => by simpa using hus [] .absent

/-- What follows a part that a token in its place excludes. -/
theorem Alike.unless {s : Symbol} {form : Form} {p p' : Parser α} {a : α}
    {f f' : α → Parser β} {l : β → Nat} {H : List Token → β → Prop}
    (hp : Alike n (fun _ => 0) (fun us _ => Derives form us) p p')
    (hf : ∀ a, Alike n l (fun us b => ∀ ts, Derives (.opt form) ts → H (ts ++ us) b)
      (f a) (f' a)) :
    Alike n l H (Parser.nextIs s >>= fun c => if c then Pure.pure a >>= f else p >>= f)
      (Parser.nextIs s >>= fun c => if c then Pure.pure a >>= f' else p' >>= f') := by
  refine .nextIs fun c => .ite (fun _ => ?_) fun _ => ?_
  · refine .pureBind ((hf a).mono (Nat.le_refl _) (fun _ => Nat.le_refl _) ?_)
    exact fun us b hus => by simpa using hus [] .absent
  · refine hp.bind fun a => (hf a).mono (by simp) (fun _ => by simp) ?_
    exact fun us b hus ts hts => hus ts (.present hts)

theorem alike_expression (n : Nat) :
    Alike n (fun _ => 0) (fun us _ => Derives (.rule .expr) us) (some <$> expression)
      (some <$> expression) :=
  (nested_expression n).map (fun _ => Nat.zero_le _) fun _ _ => id

/-! ## Statements without nested ones -/

theorem alike_expressionStatement :
    Alike n one (fun us _ => Derives (.rule .expr ++ .sym .semicolon) us) expressionStatement
      expressionStatement := by
  refine (nested_expression n).bind fun e => .expect fun a ha => .pure rfl ?_
  exact fun ts hts => Derives.append hts (.sym ha)

theorem alike_varDeclaration (ht : t.isKeyword .varWord) :
    Alike n (fun _ => 0) (fun us _ => derivable .varDecl (t :: us)) varDeclaration
      varDeclaration := by
  refine .expect fun a ha => .announced (alike_expression _) fun o => ?_
  refine .expect fun b hb => .pure rfl ?_
  exact fun us hus => derivable_varDecl ht (by simpa using ha) hus hb

theorem alike_printStatement (ht : t.isKeyword .printWord) :
    Alike n (fun _ => 0) (fun us _ => derivable .statement (t :: us))
      printStatement printStatement := by
  refine (nested_expression n).bind fun e => .expect fun a ha => .pure rfl ?_
  exact fun ts hts => derivable_statement_print ht hts ha

theorem alike_returnStatement (ht : t.isKeyword .returnWord) :
    Alike n (fun _ => 0) (fun us _ => derivable .statement (t :: us)) (returnStatement t)
      (returnStatement t) := by
  refine .unless (alike_expression _) fun o => ?_
  refine .expect fun a ha => .pure rfl ?_
  exact fun ts hts => derivable_statement_return ht hts ha

/-! ## Statements around others -/

variable {p q : Parser ParsedStmt} {d e : Parser (Option ParsedStmt)}

/-- Declarations with the brace that closes them. -/
def Closed (us : List Token) : Prop :=
  ∃ ts b, us = ts ++ [b] ∧ Derives (.star (.rule .declaration)) ts ∧ b.isSymbol .rightBrace

theorem Alike.block (h : NestedDeclarations n d e) :
    Alike n one (fun us _ => Closed us) (block d) (block e) := by
  refine (Alike.itemsUntil h).bind fun body => .expect fun a ha => .pure rfl ?_
  exact fun ts hts => ⟨ts, a, rfl, hts, ha⟩

theorem alike_identifier (e : SyntaxError) :
    Alike n one (fun us _ => Derives .name us) (identifier e) (identifier e) := by
  have hsame : identifier e = identifier e >>= Pure.pure := by
    funext s
    rw [bind_apply]
    rcases identifier e s with ⟨reports, ⟨a, rest⟩ | ⟨u, rest⟩ | _⟩ <;> simp
  rw [hsame]
  exact .expect fun a ha => .pure rfl (.token ha)

theorem Alike.function (h : NestedDeclarations n d e) (role : String) :
    Alike n one (fun us _ => derivable .function us) (function d role) (function e role) := by
  refine .expect fun a ha => .expect fun b hb => ?_
  refine (Alike.separated (alike_identifier _)).bind fun params => .expect fun c hc =>
    .expect fun f hf => (Alike.block fun s hs => h s (by omega)).bind fun body => .pure rfl ?_
  rintro _ ⟨us, g, rfl, hus, hg⟩ ts hts
  simpa using derivable_function (by simpa using ha) hb hts hc hf hus hg

theorem Alike.member (h : NestedDeclarations n d e) :
    Alike n one (fun us _ => Derives (.opt (.word .classWord) ++ .rule .function) us)
      (member d) (member e) := by
  refine .accept (fun t ht => ?_) ?_
  · refine (Alike.function (fun s hs => h s (by omega)) _).bind fun f => .pure rfl ?_
    intro us hus
    simpa using Derives.append (.present (.word ht)) hus
  · refine (Alike.function h _).bind fun f => .pure rfl ?_
    intro us hus
    simpa using Derives.append .absent hus

theorem Alike.classDeclaration (ht : t.isKeyword .classWord) (h : NestedDeclarations n d e) :
    Alike n (fun _ => 0) (fun us _ => derivable .declaration (t :: us)) (classDeclaration d)
      (classDeclaration e) := by
  refine .expect fun a ha => ?_
  refine .announced (F := .name) ?_ fun o => ?_
  · exact (alike_identifier _).map (fun _ => Nat.zero_le _) fun _ _ => id
  refine .expect fun b hb => ?_
  refine (Alike.itemsUntil fun s hs _ => Alike.member h s (by omega)).bind fun members => ?_
  refine .expect fun c hc => .pure rfl ?_
  intro us hus ts hts
  simpa using derivable_declaration_class ht (by simpa using ha) hts hb hus hc

/-- What the first clause of a `for` derives. -/
abbrev firstClause : Form :=
  .sym .semicolon ||| .rule .varDecl ||| .rule .expr ++ .sym .semicolon

theorem alike_forInitializer :
    Alike n one (fun us _ => Derives firstClause us) forInitializer forInitializer := by
  refine .accept (fun t ht => .pure rfl (.left (.left (.sym ht)))) <| .accept (fun t ht => ?_) ?_
  · refine (alike_varDeclaration ht).bind fun s => .pure rfl fun us hus => ?_
    rw [List.append_nil]
    exact .left (.right hus)
  · refine alike_expressionStatement.bind fun s => .pure rfl fun us hus => ?_
    rw [List.append_nil]
    exact .right hus

theorem Alike.forStatement (ht : t.isKeyword .forWord) (h : NestedStatements n p q) :
    Alike n (fun _ => 0) (fun us _ => derivable .statement (t :: us))
      (forStatement p) (forStatement q) := by
  refine .expect fun a ha => alike_forInitializer.bind fun first => ?_
  refine .unless (alike_expression _) fun condition => .expect fun b hb => ?_
  refine .unless (alike_expression _) fun increment => .expect fun c hc => ?_
  refine (h.mono (by omega) (fun _ => Nat.le_refl _) fun _ _ => id).bind fun body => .pure rfl ?_
  intro ws hws vs hvs us hus ts hts
  simpa using derivable_statement_for ht ha hts hus hb hvs hc hws

theorem Alike.ifStatement (ht : t.isKeyword .ifWord) (h : NestedStatements n p q) :
    Alike n (fun _ => 0) (fun us _ => derivable .statement (t :: us))
      (ifStatement p) (ifStatement q) := by
  refine .expect fun a ha => (nested_expression _).bind fun c => .expect fun b hb => ?_
  refine (h.mono (by omega) (fun _ => Nat.le_refl _) fun _ _ => id).bind fun s => ?_
  refine .accept (fun f hf => ?_) (.pure rfl ?_)
  · refine (h.mono (by omega) (fun _ => Nat.le_refl _) fun _ _ => id).bind fun r => .pure rfl ?_
    intro vs hvs us hus ts hts
    simpa using derivable_statement_if ht ha hts hb hus (.present ((Derives.word hf).append hvs))
  · intro us hus ts hts
    simpa using derivable_statement_if ht ha hts hb hus .absent

theorem Alike.whileStatement (ht : t.isKeyword .whileWord) (h : NestedStatements n p q) :
    Alike n (fun _ => 0) (fun us _ => derivable .statement (t :: us)) (whileStatement p)
      (whileStatement q) := by
  refine .expect fun a ha => (nested_expression _).bind fun c => .expect fun b hb => ?_
  refine (h.mono (by omega) (fun _ => Nat.le_refl _) fun _ _ => id).bind fun s => .pure rfl ?_
  intro us hus ts hts
  simpa using derivable_statement_while ht ha hts hb hus

/-- Statements are read alike where the statements nested in them are. -/
theorem Alike.statementWith (hs : NestedStatements n p q) (hd : NestedDeclarations n d e) :
    NestedStatements (n + 1) (statementWith p d) (statementWith q e) := by
  refine .accept (fun t ht => ?_) <| .accept (fun t ht => ?_) <| .accept (fun t ht => ?_) <|
    .accept? (fun t ht => ?_) <| .accept (fun t ht => ?_) <| .accept (fun t ht => ?_) ?_
  · exact Alike.forStatement ht hs
  · exact Alike.ifStatement ht hs
  · exact alike_printStatement ht
  · exact alike_returnStatement ht
  · exact Alike.whileStatement ht hs
  · refine (Alike.block hd).bind fun body => .pure rfl ?_
    rintro _ ⟨us, b, rfl, hus, hb⟩
    simpa using derivable_statement_block ht hus hb
  · exact alike_expressionStatement.mono (Nat.le_refl _) (fun _ => Nat.le_refl _) fun us _ hus =>
      .rule (.right hus)

/-- A declaration that is lost has been reported, and takes a token unless none is left. -/
theorem AlikeOn.recover {p q : Parser α} {G : List Token → Prop} {s : Stream}
    (h : AlikeOn one (fun us _ => G us) p q s) (hne : s.ahead ≠ []) :
    AlikeOn one (fun us o => G us ∧ o.isSome) (recover p) (recover q) s := by
  obtain ⟨heq, hr⟩ := h
  unfold AlikeOn Parser.recover
  rw [← heq]
  refine ⟨rfl, ?_⟩
  revert hr
  rcases p s with ⟨reports, ⟨a, rest⟩ | ⟨u, rest⟩ | _⟩
  · rintro ⟨ts, hts, hlen, hfits⟩
    exact ⟨ts, hts, hlen, fun h => ⟨hfits h, rfl⟩⟩
  · rintro ⟨⟨ts, rfl⟩, hreports⟩
    obtain ⟨us, hus, hskip⟩ := rest.exists_behind_synchronize
    refine ⟨ts ++ us, ?_, ?_, fun h => absurd h hreports⟩
    · rw [← Stream.behind_behind, ← hus]
    · refine List.length_pos_iff.2 fun hnil => ?_
      obtain ⟨rfl, rfl⟩ := List.append_eq_nil_iff.1 hnil
      rw [Stream.behind_nil] at hne
      exact hskip hne rfl
  · exact id

/-- Declarations are read alike where the statements nested in them are, and are lost only with a
report. -/
theorem AlikeOn.declarationWith (hs : NestedStatements n p q) (hd : NestedDeclarations n d e)
    {s : Stream} (hlen : s.ahead.length < n + 1) (hne : s.ahead ≠ []) :
    AlikeOn one (fun us o => derivable .declaration us ∧ o.isSome) (declarationWith p d)
      (declarationWith q e) s := by
  refine AlikeOn.recover (Alike.accept (fun t ht => ?_) (.accept (fun t ht => ?_)
    (.accept (fun t ht => ?_) ?_)) s hlen) hne
  · exact Alike.classDeclaration ht hd
  · refine (Alike.function hd _).bind fun f => .pure rfl fun us hus => ?_
    rw [List.append_nil]
    exact derivable_declaration_fun ht hus
  · exact (alike_varDeclaration ht).mono (Nat.le_refl _) (fun _ => Nat.le_refl _)
      fun _ _ => derivable_declaration_var
  · exact (Alike.statementWith hs hd).mono (Nat.le_refl _) (fun _ => Nat.le_refl _)
      fun _ _ => derivable_declaration_statement

/-- Declarations are read alike where the statements nested in them are. -/
theorem NestedDeclarations.declarationWith (hs : NestedStatements n p q)
    (hd : NestedDeclarations n d e) :
    NestedDeclarations (n + 1) (declarationWith p d) (declarationWith q e) :=
  fun _ hlen hne => (AlikeOn.declarationWith hs hd hlen hne).mono fun _ _ => And.left

/-! ## Without budgets -/

theorem nested_within {b c : Budget} (hb : n ≤ b.length) (hc : n ≤ c.length) :
    NestedStatements n (statementWithin b) (statementWithin c) ∧
      NestedDeclarations n (declarationWithin b) (declarationWithin c) := by
  induction n generalizing b c with
  | zero => exact ⟨.below_zero, fun _ h => absurd h (Nat.not_lt_zero _)⟩
  | succ n ih =>
    obtain ⟨_, b, rfl, hb'⟩ := exists_cons_of_lt hb
    obtain ⟨_, c, rfl, hc'⟩ := exists_cons_of_lt hc
    obtain ⟨hs, hd⟩ := ih hb' hc'
    exact ⟨Alike.statementWith hs hd, NestedDeclarations.declarationWith hs hd⟩

/-- What the parser of statements reads. -/
theorem nested_statement (n : Nat) : NestedStatements n statement statement :=
  .budgeted fun _ _ _ _ hb hc => (nested_within hb hc).1

/-- What the parser of declarations reads. -/
theorem nested_declaration (n : Nat) : NestedDeclarations n declaration declaration :=
  fun s _ hne => ⟨rfl, ((nested_within (n := s.ahead.length + 1) (b := s.finish :: s.ahead)
    (c := s.finish :: s.ahead) (by simp) (by simp)).2 s (by simp) hne).2⟩

/-- The nested statements of a stream are read alike on a budget of the tokens left. -/
theorem nested_ahead (s : Stream) :
    NestedStatements s.ahead.length (statementWithin s.ahead) statement ∧
      NestedDeclarations s.ahead.length (declarationWithin s.ahead) declaration := by
  refine ⟨fun t ht => ?_, fun t ht hne => ?_⟩
  · obtain ⟨heq, hr⟩ := (nested_within (n := t.ahead.length + 1) (b := s.ahead)
      (c := t.finish :: t.ahead) (by omega) (by simp)).1 t (by omega)
    exact ⟨heq, hr⟩
  · obtain ⟨heq, hr⟩ := (nested_within (n := t.ahead.length + 1) (b := s.ahead)
      (c := t.finish :: t.ahead) (by omega) (by simp)).2 t (by omega) hne
    exact ⟨heq, hr⟩

/-- Statements without their budget. -/
theorem statement_eq : statement = statementWith statement declaration := by
  funext s
  obtain ⟨hs, hd⟩ := nested_ahead s
  rw [← (Alike.statementWith hs hd s (by omega)).1, statement, budgeted, statementWithin]

/-- Declarations without their budget. -/
theorem declaration_eq {s : Stream} (hne : s.ahead ≠ []) :
    declaration s = declarationWith statement declaration s := by
  obtain ⟨hs, hd⟩ := nested_ahead s
  rw [← (NestedDeclarations.declarationWith hs hd s (by omega) hne).1, declaration, budgeted,
    declarationWithin]

/-- What the parser of declarations reads; a declaration that is lost has been reported. -/
theorem alike_declaration {s : Stream} (hne : s.ahead ≠ []) :
    AlikeOn one (fun us o => derivable .declaration us ∧ o.isSome) declaration declaration s := by
  obtain ⟨-, hr⟩ := AlikeOn.declarationWith (nested_statement (s.ahead.length + 1))
    (nested_declaration _) (Nat.lt_succ_of_lt (Nat.lt_succ_self _)) hne
  rw [← declaration_eq hne] at hr
  exact ⟨rfl, hr⟩

/-- What the parser of programs reads. -/
theorem alike_program (n : Nat) :
    Alike n (fun _ => 0) (fun us _ => Derives (.star (.rule .declaration)) us) program program :=
  .itemsUntil (nested_declaration n)

/-- What is parsed without a report is a program. -/
theorem derivable_of_reports {ts : List Token} {last : Token} (hlast : last.isEnd)
    (h : (program ⟨ts, last⟩).reports = []) : derivable .program (ts ++ [last]) := by
  have hr := (alike_program (ts.length + 1) ⟨ts, last⟩ (by simp)).2
  revert h hr
  rcases hp : program ⟨ts, last⟩ with ⟨reports, ⟨body, rest⟩ | ⟨u, rest⟩ | _⟩
  · rintro rfl ⟨us, hus, -, hfits⟩
    have hrest : rest.ahead = [] := by
      have hstop : ((fun _ : Token => false) rest.current || rest.ahead.isEmpty) = true :=
        rest_itemsWithin hp
      simpa using hstop
    have hts : ts = us := by simpa [hrest] using congrArg Stream.ahead hus
    subst hts
    exact .rule (Derives.append (hfits rfl) (.token hlast))
  · exact fun h hr => absurd h hr.2
  · exact fun _ hr => hr.elim

end Lox.Parser
