import Lox.Proofs.Parser.Ending
import Lox.Proofs.Parser.Matches
import Lox.Proofs.Parser.Sentence

/-!
# Broken statements

A statement without braces that cannot be read is lost up to its semicolon and no further. Its
parser unwinds at the semicolon at the latest, wherever in the statement the problem lies and
whatever comes after it; resuming skips the token at which it unwound and those up to the
semicolon, none of which starts a statement. So what stands before and after the statement is read
as if it stood alone.

## Main definitions

* `Simple`: the tokens of a statement without braces
* `Parser.Closes`: a parser that reads up to a semicolon or unwinds before it

## Main results

* `closes_statement`: statements without braces
* `synchronize_semicolon`: resuming after a semicolon
* `program_contains_broken`: a broken statement between others
-/

namespace Lox

/-- Tokens that end in their only semicolon, with no brace among them, of which the first is
neither `for` nor `else` and no other starts a statement. -/
structure Simple (ys : List Token) (semi : Token) : Prop where
  /-- The last token is a semicolon. -/
  semicolon : semi.isSymbol .semicolon
  /-- No other is. -/
  only : ∀ t ∈ ys, t.isSymbol .semicolon = false
  /-- There are no braces. -/
  braces : ∀ t ∈ ys, t.isSymbol .leftBrace = false ∧ t.isSymbol .rightBrace = false
  /-- What the first token is not. -/
  first : ∀ t ∈ ys.head?, t.isKeyword .forWord = false ∧ t.isKeyword .elseWord = false
  /-- What the others are not. -/
  others : ∀ t ∈ ys.tail, Stream.startsStatement t = false

namespace Stream

/-- Tokens up to a semicolon are skipped unless one of them starts a statement. -/
theorem fromBoundary_semicolon {last semi : Token} {zs rest : List Token}
    (hlast : last.isSymbol .semicolon = false) (hsemi : semi.isSymbol .semicolon)
    (honly : ∀ t ∈ zs, t.isSymbol .semicolon = false)
    (hstarts : ∀ t ∈ zs, startsStatement t = false) :
    fromBoundary last (zs ++ semi :: rest) = rest := by
  induction zs generalizing last with
  | nil =>
    have hstart : startsStatement semi = false := by
      simp [startsStatement, Token.kind_of_isSymbol hsemi]
    rw [List.nil_append, fromBoundary, if_neg (by simp [hlast, hstart])]
    cases rest with
    | nil => rfl
    | cons t rest => rw [fromBoundary, if_pos (by simp [hsemi])]
  | cons z zs ih =>
    have hstart := hstarts z List.mem_cons_self
    rw [List.cons_append, fromBoundary, if_neg (by simp [hlast, hstart])]
    exact ih (honly z List.mem_cons_self) (fun t ht => honly t (List.mem_cons_of_mem z ht))
      fun t ht => hstarts t (List.mem_cons_of_mem z ht)

/-- Reading resumes after the semicolon: the token at the front is skipped, be it the semicolon or
not, and no other token before the semicolon starts a statement. -/
theorem synchronize_semicolon {s : Stream} {semi : Token} {zs : List Token}
    (hsemi : semi.isSymbol .semicolon) (honly : ∀ t ∈ zs, t.isSymbol .semicolon = false)
    (hstarts : ∀ t ∈ zs.tail, startsStatement t = false) :
    ((s.behind [semi]).behind zs).synchronize = s := by
  cases zs with
  | nil =>
    obtain ⟨ahead, finish⟩ := s
    simp only [behind, synchronize, List.nil_append, List.singleton_append]
    cases ahead with
    | nil => rfl
    | cons t rest => rw [fromBoundary, if_pos (by simp [hsemi])]
  | cons z zs =>
    have hskip : fromBoundary z (zs ++ semi :: s.ahead) = s.ahead :=
      fromBoundary_semicolon (honly z List.mem_cons_self) hsemi
        (fun t ht => honly t (List.mem_cons_of_mem z ht)) hstarts
    simp only [behind, synchronize, List.cons_append, List.nil_append, hskip]

end Stream

/-- A reply to the tokens `ys` before `s`: its result has read everything up to the semicolon there,
or it unwinds before the semicolon, and the reply `r` before `s'` does so in the same way. -/
def Reply.Closes {α : Type} (s s' : Stream) (ys : List Token) : Reply α → Reply α → Prop
  | ⟨_, .ok _ rest⟩, _ => rest.ahead = s.ahead.tail
  | ⟨reports, .unwound u rest⟩, r =>
    ∃ zs, zs <:+ ys ∧ rest = s.behind zs ∧ r = ⟨reports, .unwound u (s'.behind zs)⟩
  | ⟨_, .exhausted⟩, _ => False

namespace Parser

variable {α β : Type} {semi : Token} {s s' : Stream} {ys : List Token} {k : α → Nat}
  {p : Parser α} {f : α → Parser β} {test : Token → Bool} {e : SyntaxError}

/-- Before `s` a parser reads the tokens `ys` and the semicolon after them, or unwinds before the
semicolon, and then does so before `s'` in the same way. -/
structure Closes (s s' : Stream) (ys : List Token) (p : Parser α) : Prop where
  /-- The replies before the two streams. -/
  reply : (p (s.behind ys)).Closes s s' ys (p (s'.behind ys))

/-- Every token is neither a semicolon nor an opening brace nor the word `for`. -/
def Plain (ys : List Token) : Prop :=
  ∀ t ∈ ys, t.isSymbol .semicolon = false ∧ t.isSymbol .leftBrace = false ∧
    t.isKeyword .forWord = false

theorem Plain.suffix {zs : List Token} (h : Plain ys) (hz : zs <:+ ys) : Plain zs :=
  fun t ht => h t (hz.subset ht)

namespace Closes

/-! ## Ways to put parsers together -/

theorem of_suffix {zs : List Token} (h : Closes s s' zs p) (hz : zs <:+ ys)
    {q : Parser α} (hq : q (s.behind ys) = p (s.behind zs))
    (hq' : q (s'.behind ys) = p (s'.behind zs)) : Closes s s' ys q := by
  have hr := h.reply
  constructor
  rw [hq, hq']
  revert hr
  rcases p (s.behind zs) with ⟨reports, ⟨a, rest⟩ | ⟨u, rest⟩ | _⟩
  · exact id
  · rintro ⟨vs, hvs, hrest⟩
    exact ⟨vs, hvs.trans hz, hrest⟩
  · exact id

/-- What is read before the semicolon, and then something that reads up to it. -/
theorem bind (hp : Matches s s' (ys.length + 1) k p p)
    (hf : ∀ a zs, zs <:+ ys → Closes s s' zs (f a)) : Closes s s' ys (p >>= f) := by
  have hfirst := hp ys (Nat.lt_succ_self _)
  constructor
  rw [bind_apply, bind_apply]
  revert hfirst
  rcases p (s.behind ys) with ⟨reports, ⟨a, rest⟩ | ⟨u, rest⟩ | _⟩
  -- the first may give a result, or unwind with what it left
  · rintro ⟨ts, zs, rfl, -, rfl, hq⟩
    have hsecond := (hf a zs ⟨ts, rfl⟩).reply
    rw [hq]
    dsimp only
    revert hsecond
    rcases f a (s.behind zs) with ⟨more, ⟨b, rest⟩ | ⟨u, rest⟩ | _⟩
    · exact id
    · rintro ⟨vs, hvs, rfl, hg⟩
      rw [hg]
      exact ⟨vs, hvs.trans ⟨ts, rfl⟩, rfl, rfl⟩
    · exact id
  · rintro ⟨ts, zs, rfl, rfl, hq⟩
    rw [hq]
    exact ⟨zs, ⟨ts, rfl⟩, rfl, rfl⟩
  · exact id

/-- What reads up to the semicolon, and then something that unwinds nowhere. -/
theorem next (hp : Closes s s' ys p)
    (hf : ∀ a rest, rest.ahead = s.ahead.tail → ∃ reports b, f a rest = ⟨reports, .ok b rest⟩) :
    Closes s s' ys (p >>= f) := by
  have hfirst := hp.reply
  constructor
  rw [bind_apply, bind_apply]
  revert hfirst
  rcases p (s.behind ys) with ⟨reports, ⟨a, rest⟩ | ⟨u, rest⟩ | _⟩
  · intro hrest
    obtain ⟨more, b, hb⟩ := hf a rest hrest
    dsimp only
    rw [hb]
    exact hrest
  · rintro ⟨zs, hzs, rfl, hq⟩
    rw [hq]
    exact ⟨zs, hzs, rfl, rfl⟩
  · exact id

theorem fail {t : Token} : Closes s s' ys (Parser.fail t e : Parser α) where
  reply := ⟨ys, List.suffix_refl ys, rfl, rfl⟩

theorem current {g : Token → Parser β} (hb : Before semi s s') (hf : ∀ t, Closes s s' ys (g t)) :
    Closes s s' ys (Parser.current >>= g) := by
  constructor
  rw [current_bind, current_bind, ← hb.current_eq]
  exact (hf _).reply

theorem nextIte {x : Symbol} {p q : Parser β} (hb : Before semi s s') (hp : Closes s s' ys p)
    (hq : Closes s s' ys q) :
    Closes s s' ys (Parser.nextIs x >>= fun c => if c then p else q) := by
  constructor
  rw [nextIs_bind, nextIs_bind, ← hb.current_eq]
  by_cases h : (s.behind ys).current.isSymbol x
  · rw [if_pos h]
    exact hp.reply
  · rw [if_neg h]
    exact hq.reply

/-- A token is taken, which is not the semicolon, or none is. -/
theorem accept? {g : Option Token → Parser β} (hb : Before semi s s') (hsemi : test semi = false)
    (hsome : ∀ t ts, ys = t :: ts → test t → Closes s s' ts (g (some t)))
    (hnone : (∀ t ∈ ys.head?, test t = false) → Closes s s' ys (g none)) :
    Closes s s' ys (Parser.accept? test >>= g) := by
  cases ys with
  | nil =>
    refine (hnone (by simp)).of_suffix (List.suffix_refl _) ?_ ?_
    · exact accept?_none (by simpa [hb.left] using hsemi) g
    · exact accept?_none (by simpa [hb.right] using hsemi) g
  | cons t ys =>
    by_cases ht : test t
    · refine (hsome t ys rfl ht).of_suffix (List.suffix_cons t ys) ?_ ?_
      · rw [accept?_behind, if_pos ht]
      · rw [accept?_behind, if_pos ht]
    · refine (hnone (by simpa using ht)).of_suffix (List.suffix_refl _) ?_ ?_
      · rw [accept?_behind, if_neg ht]
      · rw [accept?_behind, if_neg ht]

theorem acceptIte {p q : Parser β} (hb : Before semi s s') (hsemi : test semi = false)
    (hp : ∀ t ts, ys = t :: ts → test t → Closes s s' ts p)
    (hq : (∀ t ∈ ys.head?, test t = false) → Closes s s' ys q) :
    Closes s s' ys (Parser.accept test >>= fun c => if c then p else q) := by
  rw [accept_bind]
  exact accept? hb hsemi hp hq

theorem expect {g : Token → Parser β} (hb : Before semi s s') (hsemi : test semi = false)
    (hf : ∀ t ts, ys = t :: ts → test t → Closes s s' ts (g t)) :
    Closes s s' ys (Parser.expect test e >>= g) := by
  rw [expect_bind]
  exact accept? hb hsemi hf fun _ => current hb fun _ => fail

/-- The semicolon itself, which is the first. -/
theorem semicolon (hb : Before semi s s') (hplain : Plain ys) {b : Token → β} :
    Closes s s' ys (symbol .semicolon e >>= fun t => Pure.pure (b t)) := by
  cases ys with
  | nil =>
    -- before `s` the semicolon is read, so nothing is asked of the reply before `s'`
    obtain ⟨rest, rfl⟩ : ∃ rest : Stream, s = rest.behind [semi] := by
      obtain ⟨ahead, finish⟩ := s
      cases ahead with
      | nil => cases hb.left
      | cons t rest =>
        cases hb.left
        exact ⟨⟨rest, finish⟩, rfl⟩
    have hread : (symbol .semicolon e >>= fun t => Pure.pure (b t)) (rest.behind [semi]) =
        ⟨[], .ok (b semi) rest⟩ :=
      expect_behind (by simp [Token.isSymbol, hb.kind]) _
    constructor
    rw [Stream.behind_nil, hread]
    rfl
  | cons y ys =>
    have hy : ¬ y.isSymbol .semicolon := by simp [(hplain y List.mem_cons_self).1]
    unfold symbol
    rw [expect_bind]
    have hfail : Closes s s' (y :: ys) (Parser.current >>= fun t => (Parser.fail t e : Parser β)) :=
      current hb fun _ => fail
    refine hfail.of_suffix (List.suffix_refl _) ?_ ?_
    · rw [accept?_behind, if_neg hy]
    · rw [accept?_behind, if_neg hy]

end Closes

/-! ## Statements -/

section Statements

theorem matches_someExpression (hb : Before semi s s') (n : Nat) :
    Matches s s' n one (some <$> expression) (some <$> expression) :=
  (matches_expression hb).bind fun _ => .pure rfl

theorem closes_expressionStatement (hb : Before semi s s') (hplain : Plain ys) :
    Closes s s' ys expressionStatement :=
  .bind (matches_expression hb) fun _ _ hzs => .semicolon hb (hplain.suffix hzs)

theorem closes_varDeclaration (hb : Before semi s s') (hplain : Plain ys) :
    Closes s s' ys varDeclaration := by
  refine .expect hb (by simp [hb.kind]) ?_
  rintro t ts rfl -
  have htail : Plain ts := hplain.suffix (List.suffix_cons t ts)
  refine .acceptIte hb (by simp [Token.isSymbol, hb.kind]) ?_ fun _ => .semicolon hb htail
  rintro u us rfl -
  exact .bind (matches_someExpression hb _) fun _ _ hzs =>
    .semicolon hb (htail.suffix (hzs.trans (List.suffix_cons u us)))

theorem closes_returnStatement (hb : Before semi s s') (hplain : Plain ys) (keyword : Token) :
    Closes s s' ys (returnStatement keyword) :=
  .nextIte hb (.semicolon hb hplain) <|
    .bind (matches_someExpression hb _) fun _ _ hzs => .semicolon hb (hplain.suffix hzs)

/-- Nothing is read from an opening brace on: there is none. -/
theorem closes_brace (hb : Before semi s s') (hplain : Plain ys) {g : Token → Parser β} :
    Closes s s' ys (symbol .leftBrace e >>= g) := by
  refine .expect hb (by simp [Token.isSymbol, hb.kind]) ?_
  intro t ts hts ht
  have hbrace := (hplain t (by simp [hts])).2.1
  rw [hbrace] at ht
  cases ht

theorem closes_classDeclaration (hb : Before semi s s') (hplain : Plain ys)
    (decl : Parser (Option ParsedStmt)) : Closes s s' ys (classDeclaration decl) := by
  refine .expect hb (by simp [hb.kind]) ?_
  rintro t ts rfl -
  have htail : Plain ts := hplain.suffix (List.suffix_cons t ts)
  refine .acceptIte hb (by simp [Token.isSymbol, hb.kind]) ?_ fun _ => closes_brace hb htail
  rintro u us rfl -
  have hsuper : Matches s s' (us.length + 1) (fun _ => 0)
      ((some ·.ref) <$> identifier .expectSuperclassName)
      ((some ·.ref) <$> identifier .expectSuperclassName) :=
    .expect hb (by simp [hb.kind]) fun _ => .pure rfl
  exact .bind hsuper fun _ _ hzs =>
    closes_brace hb (htail.suffix (hzs.trans (List.suffix_cons u us)))

theorem closes_function (hb : Before semi s s') (hplain : Plain ys)
    (decl : Parser (Option ParsedStmt)) (role : String) :
    Closes s s' ys (function decl role) := by
  have hname : ∀ {n : Nat} {e : SyntaxError}, Matches s s' n one (identifier e) (identifier e) := by
    intro n e
    have hsame : identifier e = identifier e >>= Pure.pure := by
      funext s
      rw [bind_apply]
      rcases identifier e s with ⟨reports, ⟨a, rest⟩ | ⟨u, rest⟩ | _⟩ <;> simp
    rw [hsame]
    exact .expect hb (by simp [hb.kind]) fun _ => .pure rfl
  refine .bind hname fun name zs hzs => ?_
  refine .expect hb (by simp [Token.isSymbol, hb.kind]) ?_
  rintro t ts rfl -
  refine .bind (hname.separated hb) fun params us hus => ?_
  refine .expect hb (by simp [Token.isSymbol, hb.kind]) ?_
  rintro u vs rfl -
  exact closes_brace hb <| hplain.suffix <|
    (((List.suffix_cons u vs).trans hus).trans (List.suffix_cons t ts)).trans hzs

variable {stmt : Parser ParsedStmt}

/-- A condition in parentheses, and then a statement. -/
theorem closes_condition {e₁ e₂ : SyntaxError} (hb : Before semi s s') {g : Parsed → Parser β}
    (hg : ∀ c zs, zs <:+ ys → Closes s s' zs (g c)) :
    Closes s s' ys (symbol .leftParen e₁ >>= fun _ => expression >>= fun c =>
      symbol .rightParen e₂ >>= fun _ => g c) := by
  refine .expect hb (by simp [Token.isSymbol, hb.kind]) ?_
  rintro t ts rfl -
  refine .bind (matches_expression hb) fun c zs hzs => ?_
  refine .expect hb (by simp [Token.isSymbol, hb.kind]) ?_
  rintro u us rfl -
  exact hg c us (((List.suffix_cons u us).trans hzs).trans (List.suffix_cons t ts))

theorem closes_whileStatement (hb : Before semi s s')
    (h : ∀ zs, zs <:+ ys → Closes s s' zs stmt) : Closes s s' ys (whileStatement stmt) :=
  closes_condition hb fun _ zs hzs => (h zs hzs).next fun _ _ _ => ⟨[], _, rfl⟩

/-- Nothing comes after the semicolon that ends the first branch, so no `else` either. -/
theorem closes_ifStatement (hb : Before semi s s') (halone : s.ahead = [semi])
    (h : ∀ zs, zs <:+ ys → Closes s s' zs stmt) : Closes s s' ys (ifStatement stmt) := by
  refine closes_condition hb fun c zs hzs => (h zs hzs).next fun a rest hrest => ?_
  have hnil : rest.ahead = [] := by rw [hrest, halone, List.tail_cons]
  exact ⟨[], _, accept_none (by simp [hnil]) _⟩

/-- A statement without braces and loops with clauses, on its own before `s`. -/
theorem closes_statement (hb : Before semi s s') (halone : s.ahead = [semi]) (hplain : Plain ys) :
    Closes s s' ys statement := by
  induction hn : ys.length using Nat.strong_induction_on generalizing ys with
  | _ n ih =>
  subst hn
  have hk := hb.kind
  -- a nested statement comes after a token of this one
  have hnested : ∀ t ts, ys = t :: ts → ∀ zs, zs <:+ ts → Closes s s' zs statement := by
    rintro t ts rfl zs hzs
    refine ih zs.length ?_ (hplain.suffix (hzs.trans (List.suffix_cons t ts))) rfl
    exact Nat.lt_succ_of_le hzs.length_le
  have hrest : ∀ t ts, ys = t :: ts → Plain ts := by
    rintro t ts rfl
    exact hplain.suffix (List.suffix_cons t ts)
  rw [statement_eq]
  refine .acceptIte hb (by simp [Token.isKeyword, hk]) (fun t ts hts ht => ?_) fun _ =>
    .acceptIte hb (by simp [Token.isKeyword, hk]) (fun t ts hts _ => ?_) fun _ =>
    .acceptIte hb (by simp [Token.isKeyword, hk]) (fun t ts hts _ => ?_) fun _ =>
    .accept? hb (by simp [Token.isKeyword, hk]) (fun t ts hts _ => ?_) fun _ =>
    .acceptIte hb (by simp [Token.isKeyword, hk]) (fun t ts hts _ => ?_) fun _ =>
    .acceptIte hb (by simp [Token.isSymbol, hk]) (fun t ts hts ht => ?_) fun _ => ?_
  · rw [(hplain t (by simp [hts])).2.2] at ht
    cases ht
  · exact closes_ifStatement hb halone (hnested t ts hts)
  · exact .bind (matches_expression hb) fun _ _ hzs => .semicolon hb ((hrest t ts hts).suffix hzs)
  · exact closes_returnStatement hb (hrest t ts hts) t
  · exact closes_whileStatement hb (hnested t ts hts)
  · rw [(hplain t (by simp [hts])).2.1] at ht
    cases ht
  · exact closes_expressionStatement hb hplain

end Statements

/-! ## Declarations -/

/-- What is lost of a parser that reads up to the semicolon or unwinds before it. -/
theorem Closes.exists_lost (h : Closes s s' ys p) {reports : List Report} {rest : Stream}
    (hlost : recover p (s.behind ys) = ⟨reports, .ok none rest⟩) :
    ∃ zs, zs <:+ ys ∧ rest = (s.behind zs).synchronize ∧
      recover p (s'.behind ys) = ⟨reports, .ok none (s'.behind zs).synchronize⟩ := by
  have hr := h.reply
  unfold recover at hlost ⊢
  revert hlost hr
  rcases p (s.behind ys) with ⟨first, ⟨a, mid⟩ | ⟨u, mid⟩ | _⟩
  · intro hlost
    cases hlost
  · rintro hlost ⟨zs, hzs, rfl, hq⟩
    cases hlost
    rw [hq]
    exact ⟨zs, hzs, rfl, rfl⟩
  · intro hlost
    cases hlost

/-- A declaration that is lost on its own is lost before anything else, with the same reports. -/
theorem exists_lost_declaration (hb : Before semi s s') (halone : s.ahead = [semi])
    (hplain : Plain ys) {reports : List Report} {rest : Stream}
    (hlost : declaration (s.behind ys) = ⟨reports, .ok none rest⟩) :
    ∃ zs, zs <:+ ys ∧ rest = (s.behind zs).synchronize ∧
      declaration (s'.behind ys) = ⟨reports, .ok none (s'.behind zs).synchronize⟩ := by
  have hk := hb.kind
  have hne : ∀ {t : Stream}, t.ahead.head? = some semi → (t.behind ys).ahead ≠ [] := by
    intro t ht hnil
    rw [Stream.ahead_behind, List.append_eq_nil_iff] at hnil
    rw [hnil.2] at ht
    cases ht
  have hrest : ∀ t ts, ys = t :: ts → Plain ts := by
    rintro t ts rfl
    exact hplain.suffix (List.suffix_cons t ts)
  rw [declaration_eq (hne hb.left)] at hlost
  rw [declaration_eq (hne hb.right)]
  refine Closes.exists_lost ?_ hlost
  refine .acceptIte hb (by simp [Token.isKeyword, hk]) (fun t ts hts _ => ?_) fun _ =>
    .acceptIte hb (by simp [Token.isKeyword, hk]) (fun t ts hts _ => ?_) fun _ =>
    .acceptIte hb (by simp [Token.isKeyword, hk]) (fun t ts hts _ => ?_) fun _ => ?_
  · exact closes_classDeclaration hb (hrest t ts hts) declaration
  · exact (closes_function hb (hrest t ts hts) declaration _).next fun _ _ _ => ⟨[], _, rfl⟩
  · exact closes_varDeclaration hb (hrest t ts hts)
  · rw [← statement_eq]
    exact closes_statement hb halone hplain

end Parser

namespace Simple

open Lox.Parser

variable {ys : List Token} {semi : Token}

theorem plain (h : Simple ys semi) : Plain ys := by
  intro t ht
  refine ⟨h.only t ht, (h.braces t ht).1, ?_⟩
  cases ys with
  | nil => cases ht
  | cons y ys =>
    cases ht with
    | head => exact (h.first t rfl).1
    | tail _ ht =>
      -- a token that starts no statement is no `for`
      have hstarts := h.others t ht
      by_contra hfor
      have hkind : t.kind = .keyword .forWord :=
        Token.kind_of_isKeyword (by simpa using hfor)
      rw [Stream.startsStatement, hkind] at hstarts
      cases hstarts

/-- A broken statement is lost up to its semicolon, with the reports that it gives alone. -/
theorem exists_lost (h : Simple ys semi) {last : Token}
    (hlost : ∃ rest, (declaration ⟨ys ++ [semi], last⟩).outcome = .ok none rest) :
    ∃ reports, ∀ s : Stream,
      declaration (s.behind (ys ++ [semi])) = ⟨reports, .ok none s⟩ := by
  obtain ⟨rest, hrest⟩ := hlost
  refine ⟨(declaration ⟨ys ++ [semi], last⟩).reports, fun s => ?_⟩
  have hbefore : Before semi ⟨[semi], last⟩ (s.behind [semi]) :=
    ⟨Token.kind_of_isSymbol h.semicolon, rfl, rfl⟩
  have hsource : declaration ((⟨[semi], last⟩ : Stream).behind ys) =
      ⟨(declaration ⟨ys ++ [semi], last⟩).reports, .ok none rest⟩ := by
    rw [← hrest]
    rfl
  obtain ⟨zs, hzs, -, hread⟩ := exists_lost_declaration hbefore rfl h.plain hsource
  rw [← Stream.behind_behind, hread]
  -- where the parser unwound at the first token, all others are left, and otherwise only some
  have htail : zs.tail <:+ ys.tail := by
    cases ys with
    | nil => exact (List.tail_suffix zs).trans hzs
    | cons y ys =>
      cases List.suffix_cons_iff.1 hzs with
      | inl heq => exact heq ▸ List.suffix_refl _
      | inr hle => exact (List.tail_suffix zs).trans hle
  rw [Stream.synchronize_semicolon h.semicolon (fun t ht => h.only t (hzs.subset ht))
    fun t ht => h.others t (htail.subset ht)]

/-- The first token continues no `if`. -/
theorem noElse (h : Simple ys semi) (s : Stream) : (s.behind (ys ++ [semi])).NoElse := by
  cases ys with
  | nil => exact Sentence.noElse_symbol h.semicolon
  | cons y ys => exact Stream.noElse_behind (h.first y rfl).2

end Simple

namespace Parser

/-- Sentences before a program are read one after another. -/
theorem program_behind {body : List (List Token × ParsedStmt)}
    (h : ∀ x ∈ body, Sentence (.declaration x.2) x.1) {s rest : Stream} (hs : s.NoElse)
    {reports : List Report} {more : List ParsedStmt}
    (hprogram : program s = ⟨reports, .ok more rest⟩) :
    program (s.behind (body.map (·.1)).flatten) =
      ⟨reports, .ok (body.map (·.2) ++ more) rest⟩ := by
  induction body with
  | nil => exact hprogram
  | cons x body ih =>
    have hrest := ih fun y hy => h y (List.mem_cons_of_mem x hy)
    obtain ⟨a, us, hx, -⟩ := (h x List.mem_cons_self).starts_declaration
    have hnext : (s.behind (body.map (·.1)).flatten).NoElse := by
      cases body with
      | nil => exact hs
      | cons y body =>
        obtain ⟨b, vs, hy, -, helse⟩ :=
          (h y (List.mem_cons_of_mem x List.mem_cons_self)).starts_declaration
        simpa [hy] using Stream.noElse_behind helse
    rw [List.map_cons, List.flatten_cons, ← Stream.behind_behind]
    exact program_of_declaration (by simp [hx]) ((h x List.mem_cons_self).completes _ hnext) hrest

/-- A broken statement is contained. Where the tokens `as` are read without a report, and those of
a statement without braces give no statement on their own, any text that has the statement between
`as` and other tokens yields the statements of `as` and of the others, read alone, and reports what
the broken statement gives alone and what the others give alone. -/
theorem program_contains_broken {as ys : List Token} {semi endA endX : Token}
    (hend : endA.isEnd) (hfree : (program ⟨as, endA⟩).reports = []) (hsimple : Simple ys semi)
    (hbroken : ∃ rest, (declaration ⟨ys ++ [semi], endX⟩).outcome = .ok none rest)
    (bs : List Token) (last : Token) :
    program ⟨as ++ (ys ++ [semi]) ++ bs, last⟩ =
      ⟨(program ⟨ys ++ [semi], endX⟩).reports ++ (program ⟨bs, last⟩).reports,
        .ok ((program ⟨as, endA⟩).statements ++ (program ⟨bs, last⟩).statements) ⟨[], last⟩⟩ := by
  obtain ⟨body, rfl, hbody, hread⟩ := program_of_derivable (derivable_of_reports hend hfree)
  obtain ⟨reports, hlost⟩ := hsimple.exists_lost hbroken
  obtain ⟨more, stmts, hmore⟩ := exists_program ⟨bs, last⟩
  have hne : ∀ s : Stream, (s.behind (ys ++ [semi])).ahead ≠ [] := fun s => by simp
  -- alone and before the other tokens the broken statement is one lost declaration
  have halone : program ((Stream.mk [] endX).behind (ys ++ [semi])) =
      ⟨reports ++ [], .ok [] ⟨[], endX⟩⟩ :=
    program_of_declaration (hne _) (hlost _) (program_of_nil rfl)
  have hrest : program ((Stream.mk bs last).behind (ys ++ [semi])) =
      ⟨reports ++ more, .ok stmts ⟨[], last⟩⟩ :=
    program_of_declaration (hne _) (hlost _) hmore
  have hwhole := program_behind hbody (hsimple.noElse _) hrest
  simp only [Stream.behind, List.append_nil] at halone hwhole
  rw [List.append_assoc, hwhole, hread, hmore, halone]
  rfl

/-- `nil = nil nil;` between `print nil;` and `nil; )`: the target is reported, and then the token
that stands where the semicolon should. -/
theorem program_contains_broken_target :
    let semi : Token := ⟨.symbol .semicolon, ";", 1, 1⟩
    let null : Token := ⟨.keyword .nilWord, "nil", 1, 1⟩
    let last : Token := ⟨.endOfInput, "", 1, 1⟩
    let as : List Token := [⟨.keyword .printWord, "print", 1, 1⟩, null, semi]
    let ys : List Token := [null, ⟨.symbol .equal, "=", 1, 1⟩, null, null]
    let bs : List Token := [null, semi, ⟨.symbol .rightParen, ")", 1, 1⟩]
    last.isEnd ∧ (program ⟨as, last⟩).reports = [] ∧ Simple ys semi ∧
      (∃ rest, (declaration ⟨ys ++ [semi], last⟩).outcome = .ok none rest) ∧
      program ⟨as ++ (ys ++ [semi]) ++ bs, last⟩ =
        ⟨(program ⟨ys ++ [semi], last⟩).reports ++ (program ⟨bs, last⟩).reports,
          .ok ((program ⟨as, last⟩).statements ++ (program ⟨bs, last⟩).statements) ⟨[], last⟩⟩ := by
  intro semi null last as ys bs
  have hfree : (program ⟨as, last⟩).reports = [] := by decide
  have hsimple : Simple ys semi :=
    ⟨by decide, by decide, by decide, by decide, by decide⟩
  have hbroken : ∃ rest, (declaration ⟨ys ++ [semi], last⟩).outcome = .ok none rest :=
    ⟨⟨[], last⟩, rfl⟩
  exact ⟨rfl, hfree, hsimple, hbroken, program_contains_broken rfl hfree hsimple hbroken bs last⟩

end Parser

end Lox
