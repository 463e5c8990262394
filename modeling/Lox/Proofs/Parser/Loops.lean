import Lox.Proofs.Grammar.Written
import Lox.Proofs.Machine.Loops
import Lox.Proofs.Parser.Twin
import Lox.Proofs.Scan.Layout

/-!
# The loop that a `for` stands for

The clauses of a `for` may be written as a `while`: before it the initializer, in a block around
both, and in each round the increment behind the body, in a block again; what is absent is left out,
but for the condition, in whose place stands what is always true. Both are parsed to the same tree,
and that tree is executed clause by clause.

## Main definitions

* `ForTokens.loop`, `ForTokens.expansion`: the clauses written as a `for` and as a `while`
* `ForTokens.Parsed`: the clauses are parsed, each on its own
* `Parser.ReadsAs`: tokens are parsed to a statement, wherever they stand

## Main results

* `ForTokens.Parsed.loop_and_expansion`: a `for` is parsed to the tree of its `while`, and executed
  clause by clause
-/

namespace Lox

open Grammar Lox.Parser

open Token (ofSymbol ofKeyword isSymbol_ofSymbol isKeyword_ofKeyword)

/-- The tokens of the clauses of a `for` loop. -/
structure ForTokens where
  /-- The initializer with its semicolon. -/
  first : List Token
  /-- The condition. -/
  condition : List Token
  /-- The increment. -/
  increment : List Token
  /-- The body. -/
  body : List Token

/-- What may initialize a loop. -/
inductive Stmt.Initial {μ : Type} : Stmt μ → Prop where
  | var (name : Token) (value : Option (Expr μ)) : Initial (.var name value)
  | expression (e : Expr μ) : Initial (.expression e)

namespace Parser

/-- The tokens of a clause that may be absent. -/
def ParsedClause (last : Token) : List Token → Option (Expr Unit) → Prop
  | ts, none => ts = []
  | ts, some e => expression ⟨ts, last⟩ = ⟨[], .ok e ⟨[], last⟩⟩

/-- The tokens of an initializer: a lone semicolon if there is none. -/
def ParsedFirst (last : Token) : List Token → Option (Stmt Unit) → Prop
  | ts, none => ∃ a, a.isSymbol .semicolon ∧ ts = [a]
  | ts, some s => s.Initial ∧ program ⟨ts, last⟩ = ⟨[], .ok [s] ⟨[], last⟩⟩

/-- Tokens are parsed to a statement without a report: before any token but an `else`, and as a text
of their own. -/
structure ReadsAs (ts : List Token) (s : Stmt Unit) : Prop where
  /-- Before any token but an `else`. -/
  statement (rest : Stream) (h : rest.NoElse) : statement (rest.behind ts) = ⟨[], .ok s rest⟩
  /-- As a text of their own. -/
  program (last : Token) : program ⟨ts, last⟩ = ⟨[], .ok [s] ⟨[], last⟩⟩

end Parser

namespace ForTokens

/-- The clauses are parsed to those of a loop, each on its own. -/
structure Parsed (x : ForTokens) (last : Token) (l : ForLoop Unit) : Prop where
  finish : last.isEnd
  first : ParsedFirst last x.first l.first
  condition : ParsedClause last x.condition l.condition
  increment : ParsedClause last x.increment l.increment
  body : statement ⟨x.body, last⟩ = ⟨[], .ok l.body ⟨[], last⟩⟩

variable (x : ForTokens)

/-- The clauses as a `for` loop, with the tokens `a`, `b`, `c` and `d` around them. -/
def loop (a b c d : Token) : List Token :=
  a :: b :: (x.first ++ (x.condition ++ c :: (x.increment ++ d :: x.body)))

/-- What is executed in each round: `S` without an increment, and `{ S J; }` with one. -/
def roundTokens : List Token :=
  match x.increment with
  | [] => x.body
  | _ :: _ => ofSymbol .leftBrace ::
      (x.body ++ (x.increment ++ [ofSymbol .semicolon, ofSymbol .rightBrace]))

/-- What is tested before each round: `true` without a condition. -/
def testTokens : List Token :=
  match x.condition with
  | [] => [ofKeyword .trueWord]
  | _ :: _ => x.condition

/-- The clauses as a `while` loop. -/
def whileTokens : List Token :=
  ofKeyword .whileWord :: ofSymbol .leftParen ::
    (x.testTokens ++ ofSymbol .rightParen :: x.roundTokens)

/-- What the clauses abbreviate: the `while` loop where the initializer is a lone token, and a block
of the initializer and the loop otherwise. -/
def expansion : List Token :=
  match x.first with
  | [_] => x.whileTokens
  | _ => ofSymbol .leftBrace :: (x.first ++ (x.whileTokens ++ [ofSymbol .rightBrace]))

end ForTokens

/-! ## What is parsed on its own -/

section Parts

variable {ts : List Token} {last : Token}

/-- What is read of tokens that are parsed to their end. -/
theorem Parser.Alike.fits_of_ok {α : Type} {k : α → Nat} {G : List Token → α → Prop} {p : Parser α}
    {a : α} (h : Alike (ts.length + 1) k G p p) (hp : p ⟨ts, last⟩ = ⟨[], .ok a ⟨[], last⟩⟩) :
    G ts a := by
  obtain ⟨-, hreads⟩ := h ⟨ts, last⟩ (Nat.lt_succ_self _)
  rw [hp] at hreads
  obtain ⟨us, hus, -, hfits⟩ := hreads
  have hts : ts = us := by simpa using congrArg Stream.ahead hus
  rw [hts]
  exact hfits rfl

theorem Parser.phrase_of_expression {e : Expr Unit}
    (h : expression ⟨ts, last⟩ = ⟨[], .ok e ⟨[], last⟩⟩) : Phrase .expr ts e := by
  obtain ⟨e', hphrase⟩ := written_of_derivable (Alike.fits_of_ok (nested_expression _) h)
  -- the parser reads one tree only
  have hread := expression_of_phrase (s := ⟨[], last⟩) hphrase nofun
  simp only [Stream.behind, List.append_nil] at hread
  cases h.symm.trans hread
  exact hphrase

theorem Parser.exists_sentence_of_statement {s : Stmt Unit}
    (h : statement ⟨ts, last⟩ = ⟨[], .ok s ⟨[], last⟩⟩) : ∃ o, Sentence (.statement o s) ts := by
  obtain ⟨o, s', hsentence⟩ := written_of_derivable (Alike.fits_of_ok (nested_statement _) h)
  have hread := hsentence.completes ⟨[], last⟩ fun _ => nofun
  simp only [Stream.behind, List.append_nil] at hread
  cases h.symm.trans hread
  exact ⟨o, hsentence⟩

theorem Parser.ParsedClause.phrase? {e : Option (Expr Unit)} (h : ParsedClause last ts e) :
    Phrase? ts e := by
  cases e with
  | none =>
    cases h
    exact .absent
  | some e => exact .present (phrase_of_expression h)

/-- A declaration of a variable, or an expression statement, initializes a loop. -/
theorem FirstClause.of_sentence {s : Stmt Unit} (hs : s.Initial)
    (h : Sentence (.declaration s) ts) : FirstClause ts (some s) := by
  cases h with
  | varDeclaration h => exact .var h
  | funDeclaration | «class» => cases hs
  | statement h =>
    generalize hc : Clause.statement _ s = c at h
    cases h with
    | expression h =>
      cases hc
      exact .expression h
    | @«for» _ _ _ _ _ _ _ _ first =>
      cases hc
      cases first <;> cases hs
    | _ =>
      cases hc
      try cases hs

theorem Parser.ParsedFirst.firstClause {first : Option (Stmt Unit)} (hlast : last.isEnd)
    (h : ParsedFirst last ts first) : FirstClause ts first := by
  cases first with
  | none =>
    obtain ⟨a, ha, rfl⟩ := h
    exact .absent ha
  | some s =>
    obtain ⟨hs, hprogram⟩ := h
    obtain ⟨body, hts, hbody, hread⟩ :=
      program_of_derivable (derivable_of_reports hlast (by rw [hprogram]))
    rw [hprogram] at hread
    -- the initializer is all that is read
    obtain ⟨x, rfl, rfl⟩ : ∃ x, body = [x] ∧ x.2 = s := by
      have hbody : body.map (·.2) = [s] := by
        injection hread with _ hok
        injection hok with hok
        exact hok.symm
      simpa [List.map_eq_singleton_iff] using hbody
    have hsentence := hbody x (by simp)
    simp only [List.map_cons, List.map_nil, List.flatten_cons, List.flatten_nil,
      List.append_nil] at hts
    rw [hts]
    exact .of_sentence hs hsentence

end Parts

/-! ## Both ways to write a loop -/

section Written

variable {ts : List Token} {s : Stmt Unit}

/-- A sentence is parsed wherever no `else` follows it. -/
theorem Sentence.readsAs {o : Bool} (h : Sentence (.statement o s) ts) : ReadsAs ts s where
  statement rest hrest := h.completes rest fun _ => hrest
  program last := by
    have hbody : ∀ x ∈ [(ts, s)], Sentence (.declaration x.2) x.1 := by simpa using .statement h
    simpa using program_of_sentences hbody last

end Written

namespace ForTokens.Parsed

variable {x : ForTokens} {last : Token} {l : ForLoop Unit}

/-- The clauses as a `for` loop. -/
theorem sentence_loop (h : x.Parsed last l) {a b c d : Token} (ha : a.isKeyword .forWord)
    (hb : b.isSymbol .leftParen) (hc : c.isSymbol .semicolon) (hd : d.isSymbol .rightParen) :
    ∃ o, Sentence (.statement o l.tree) (x.loop a b c d) := by
  obtain ⟨o, hbody⟩ := exists_sentence_of_statement h.body
  exact ⟨o, .for ha hb (h.first.firstClause h.finish) h.condition.phrase? hc h.increment.phrase? hd
    hbody⟩

/-- What is executed in each round. -/
theorem sentence_round (h : x.Parsed last l) :
    ∃ o, Sentence (.statement o l.round) x.roundTokens := by
  obtain ⟨o, hbody⟩ := exists_sentence_of_statement h.body
  have hincrement := h.increment.phrase?
  obtain ⟨first, condition, increment, body⟩ := l
  obtain ⟨is, cs, js, ss⟩ := x
  cases hincrement with
  | absent => exact ⟨o, hbody⟩
  | present he =>
    obtain ⟨a, us, rfl, -⟩ := he.starts
    have hpair := Sentence.pair (.statement hbody)
      (.statement (.expression (.mk he (isSymbol_ofSymbol .semicolon))))
    exact ⟨false, by simpa [roundTokens, ForLoop.round, Stmt.round] using hpair⟩

/-- What is tested before each round. -/
theorem phrase_test (h : x.Parsed last l) : Phrase .expr x.testTokens l.test := by
  have hcondition := h.condition.phrase?
  obtain ⟨first, condition, increment, body⟩ := l
  obtain ⟨is, cs, js, ss⟩ := x
  cases hcondition with
  | absent => exact .of_primary (.literal rfl)
  | present he =>
    obtain ⟨a, us, rfl, -⟩ := he.starts
    exact he

/-- The clauses as a `while` loop. -/
theorem sentence_while (h : x.Parsed last l) :
    ∃ o, Sentence (.statement o (.while l.test l.round)) x.whileTokens := by
  obtain ⟨o, hround⟩ := h.sentence_round
  exact ⟨o, .while (isKeyword_ofKeyword _) (isSymbol_ofSymbol _) h.phrase_test (isSymbol_ofSymbol _)
    hround⟩

/-- What the clauses abbreviate is parsed to the tree of the loop. -/
theorem sentence_expansion (h : x.Parsed last l) :
    ∃ o, Sentence (.statement o l.tree) x.expansion := by
  obtain ⟨o, hloop⟩ := h.sentence_while
  have hfirst := h.first.firstClause h.finish
  obtain ⟨first, condition, increment, body⟩ := l
  obtain ⟨is, cs, js, ss⟩ := x
  cases first with
  | none =>
    cases hfirst with
    | absent => exact ⟨o, hloop⟩
  | some s =>
    have hdeclaration : Sentence (.declaration s) is := by
      cases hfirst with
      | var h => exact .varDeclaration h
      | expression h => exact .statement (.expression h)
    -- an initializer has two tokens at least
    obtain ⟨a, b, us, rfl⟩ : ∃ a b us, is = a :: b :: us := by
      cases hfirst with
      | var h =>
        cases h
        exact ⟨_, _, _, rfl⟩
      | expression h =>
        obtain ⟨he, -⟩ := h
        obtain ⟨a, vs, rfl, -⟩ := he.starts
        cases vs <;> exact ⟨_, _, _, rfl⟩
    exact ⟨false, hdeclaration.pair (.statement hloop)⟩

/-- The clauses of a loop, each parsed on its own without a report: as a `for` they are parsed to
one tree, and the tokens of the `while` that they abbreviate, wherever these stand, to one that
differs in the places of tokens only. Numbered from whatever occurrence, that tree is executed in
every state clause by clause: under any continuation the machine comes to the stages of the loop,
which ends exactly as its clauses say, or else goes on for ever in one of them or in rounds. -/
theorem loop_and_expansion (h : x.Parsed last l) :
    (∀ a b c d : Token, a.isKeyword .forWord → b.isSymbol .leftParen → c.isSymbol .semicolon →
      d.isSymbol .rightParen → ReadsAs (x.loop a b c d) l.tree) ∧
    (∀ ts, List.Forall₂ Token.Alike x.expansion ts →
      ∃ tree, ReadsAs ts tree ∧ l.tree.Twin (.tokens Token.Alike) tree) ∧
    ∀ (n : Occurrence) (setup : Setup) (start : State),
      let loop := l.number n
      (l.tree.number n).1 = loop.tree ∧
      (∀ rounds stage st t, loop.Comes setup start rounds stage st t → ∀ k,
        Config.Reaches setup rounds ⟨.execute loop.tree k, start⟩ t
          ⟨loop.control start k stage, st⟩) ∧
      (∀ t r st, Executes setup loop.tree start t r st ↔ loop.Gives setup start t r st) ∧
      ((∃ t r st, loop.Gives setup start t r st) ∨
        (∃ rounds stage st t, loop.Comes setup start rounds stage st t ∧
          stage.Endless setup loop st) ∨
        ∀ rounds, ∃ st t, loop.Comes setup start rounds .test st t) := by
  refine ⟨fun a b c d ha hb hc hd => ?_, fun ts hts => ?_, fun n setup start => ?_⟩
  · obtain ⟨o, hloop⟩ := h.sentence_loop ha hb hc hd
    exact hloop.readsAs
  · obtain ⟨o, hexpansion⟩ := h.sentence_expansion
    obtain ⟨tree, htree, htwin⟩ :=
      Clause.Twin.exists_statement (hexpansion.twin Token.Alike.kind hts)
    exact ⟨tree, htree.readsAs, htwin⟩
  · refine ⟨l.number_tree n, fun _ _ _ _ hcomes => hcomes.reaches, fun _ _ _ =>
      ForLoop.executes_iff, ?_⟩
    by_cases hgives : ∃ t r st, (l.number n).Gives setup start t r st
    · exact .inl hgives
    · exact .inr (ForLoop.endless_or_rounds hgives)

/-- The clauses of `for (var i; ; i) i;`. -/
theorem loop_and_expansion_var :
    let i : Token := ⟨.identifier, "i", 1, 1⟩
    let x : ForTokens := ⟨[ofKeyword .varWord, i, ofSymbol .semicolon], [], [i],
      [i, ofSymbol .semicolon]⟩
    let l : ForLoop Unit := ⟨some (.var i none), none, some (.variable i.ref),
      .expression (.variable i.ref)⟩
    x.Parsed ⟨.endOfInput, "", 1, 1⟩ l ∧
      ReadsAs (x.loop (ofKeyword .forWord) (ofSymbol .leftParen) (ofSymbol .semicolon)
        (ofSymbol .rightParen)) l.tree ∧
      ∃ tree, ReadsAs (x.expansion.map (Token.down 3)) tree ∧
        l.tree.Twin (.tokens Token.Alike) tree := by
  intro i x l
  have hfirst : ParsedFirst ⟨.endOfInput, "", 1, 1⟩ x.first l.first := ⟨.var i none, rfl⟩
  have hname : Phrase .expr [i] (.variable i.ref) := .of_primary (.name rfl)
  have hincrement := expression_of_phrase (s := ⟨[], ⟨.endOfInput, "", 1, 1⟩⟩) hname nofun
  have hsentence : Sentence (.statement false l.body) x.body :=
    .expression (.mk hname (isSymbol_ofSymbol .semicolon))
  have hbody := hsentence.completes ⟨[], ⟨.endOfInput, "", 1, 1⟩⟩ fun _ => nofun
  have h : x.Parsed ⟨.endOfInput, "", 1, 1⟩ l := ⟨rfl, hfirst, rfl, hincrement, hbody⟩
  obtain ⟨hloop, hexpansion, -⟩ := loop_and_expansion h
  have halike : List.Forall₂ Token.Alike x.expansion (x.expansion.map (Token.down 3)) :=
    List.forall₂_map_right_iff.2 (List.forall₂_same.2 fun _ _ => ⟨rfl, rfl⟩)
  exact ⟨h, hloop _ _ _ _ (isKeyword_ofKeyword _) (isSymbol_ofSymbol _) (isSymbol_ofSymbol _)
    (isSymbol_ofSymbol _), hexpansion _ halike⟩

end ForTokens.Parsed

end Lox
