import Lox.Proofs.Parser.Phrase

/-!
# Reading before a semicolon

A parser of expressions takes no semicolon, and whatever it reports and wherever it unwinds, it
has looked no further than the semicolon before which it stands. So what stands after the
semicolon makes no difference: before two streams with the same semicolon at the front the same
tokens are read to the same reply, with the same of them left.

## Main definitions

* `Before`: two streams with the same semicolon at the front
* `Reply.Same`: two replies that differ in what stands after the tokens
* `Parser.Matches`: two parsers with the same replies to tokens before two streams

## Main results

* `Matches.bind`: one parser after another
* `Matches.iterate`, `Matches.separated`: loops
* `matches_expression`: an expression before a semicolon
-/

namespace Lox

/-- Two streams with the same semicolon at the front. -/
structure Before (semi : Token) (s s' : Stream) : Prop where
  /-- The token is a semicolon. -/
  kind : semi.kind = .symbol .semicolon
  /-- It is at the front of the one. -/
  left : s.ahead.head? = some semi
  /-- It is at the front of the other. -/
  right : s'.ahead.head? = some semi

/-- Two replies to the tokens `ys`, before `s` and before `s'`: they tell the same reports and the
same end and leave the same of the tokens, of which a result `a` has taken `k a` at least. -/
def Reply.Same {α : Type} (s s' : Stream) (k : α → Nat) (ys : List Token) :
    Reply α → Reply α → Prop
  | ⟨reports, .ok a rest⟩, r => ∃ ts zs, ys = ts ++ zs ∧ k a ≤ ts.length ∧ rest = s.behind zs ∧
    r = ⟨reports, .ok a (s'.behind zs)⟩
  | ⟨reports, .unwound u rest⟩, r => ∃ ts zs, ys = ts ++ zs ∧ rest = s.behind zs ∧
    r = ⟨reports, .unwound u (s'.behind zs)⟩
  | ⟨_, .exhausted⟩, _ => False

/-- A reply to the tokens after the first one is a reply to all. -/
theorem Reply.Same.cons {α : Type} {s s' : Stream} {k : α → Nat} {ys : List Token}
    {r r' : Reply α} (t : Token) (h : r.Same s s' (fun a => k a - 1) ys r') :
    r.Same s s' k (t :: ys) r' := by
  revert h
  rcases r with ⟨reports, ⟨a, rest⟩ | ⟨u, rest⟩ | _⟩
  · rintro ⟨ts, zs, rfl, hlen, hrest⟩
    refine ⟨t :: ts, zs, rfl, ?_, hrest⟩
    dsimp only at hlen
    rw [List.length_cons]
    omega
  · rintro ⟨ts, zs, rfl, hrest⟩
    exact ⟨t :: ts, zs, rfl, hrest⟩
  · exact id

/-- What a stream with a semicolon at the front starts with behind further tokens. -/
theorem Before.current_eq {semi : Token} {s s' : Stream} (h : Before semi s s') (ys : List Token) :
    (s.behind ys).current = (s'.behind ys).current := by
  have hs := h.left
  have hs' := h.right
  cases ys with
  | nil =>
    simp only [Stream.behind_nil, Stream.current, List.headD_eq_head?_getD, hs, hs']
    rfl
  | cons y ys => rfl

namespace Parser

variable {α β : Type} {semi : Token} {s s' : Stream} {n m : Nat} {p q : Parser α} {k : α → Nat}
  {f g : α → Parser β} {l : β → Nat}

/-- Before `s` the one parser gives the same reply to tokens that the other gives before `s'`, if
there are less than `n` of them. -/
def Matches (s s' : Stream) (n : Nat) (k : α → Nat) (p q : Parser α) : Prop :=
  ∀ ys : List Token, ys.length < n → (p (s.behind ys)).Same s s' k ys (q (s'.behind ys))

namespace Matches

/-! ## Ways to put parsers together -/

theorem mono {k' : α → Nat} (h : Matches s s' n k p q) (hn : m ≤ n) (hk : ∀ a, k' a ≤ k a) :
    Matches s s' m k' p q := by
  intro ys hys
  have hr := h ys (by omega)
  revert hr
  rcases p (s.behind ys) with ⟨reports, ⟨a, rest⟩ | ⟨u, rest⟩ | _⟩
  · rintro ⟨ts, zs, hts, hlen, hrest⟩
    exact ⟨ts, zs, hts, Nat.le_trans (hk a) hlen, hrest⟩
  · exact id
  · exact id

theorem below_zero : Matches s s' 0 k p q := fun _ h => absurd h (Nat.not_lt_zero _)

theorem pure {a : α} (hk : k a = 0) : Matches s s' n k (Pure.pure a) (Pure.pure a) :=
  fun ys _ => ⟨[], ys, rfl, by simp [hk], rfl, rfl⟩

theorem fail {t : Token} {e : SyntaxError} :
    Matches s s' n k (Parser.fail t e) (Parser.fail t e) :=
  fun ys _ => ⟨[], ys, rfl, rfl, rfl⟩

/-- One parser after another, on the tokens that the first leaves. -/
theorem bind (hp : Matches s s' n k p q)
    (hf : ∀ a, Matches s s' (n - k a) (fun b => l b - k a) (f a) (g a)) :
    Matches s s' n l (p >>= f) (q >>= g) := by
  intro ys hys
  have hfirst := hp ys hys
  rw [bind_apply, bind_apply]
  revert hfirst
  rcases p (s.behind ys) with ⟨reports, ⟨a, rest⟩ | ⟨u, rest⟩ | _⟩
  -- only after a result is the second parser asked
  · rintro ⟨ts, zs, rfl, hlen, rfl, hq⟩
    rw [List.length_append] at hys
    have hsecond := hf a zs (by omega)
    rw [hq]
    dsimp only
    revert hsecond
    rcases f a (s.behind zs) with ⟨more, ⟨b, rest⟩ | ⟨u, rest⟩ | _⟩
    · rintro ⟨us, vs, rfl, hlen', rfl, hg⟩
      dsimp only at hlen'
      rw [hg]
      refine ⟨ts ++ us, vs, by simp, ?_, rfl, rfl⟩
      rw [List.length_append]
      omega
    · rintro ⟨us, vs, rfl, rfl, hg⟩
      rw [hg]
      exact ⟨ts ++ us, vs, by simp, rfl, rfl⟩
    · exact fun h => h.elim
  · rintro ⟨ts, zs, hts, rfl, hq⟩
    rw [hq]
    exact ⟨ts, zs, hts, rfl, rfl⟩
  · exact fun h => h.elim

theorem ite {c : Prop} [Decidable c] {p' q' : Parser α} (ht : Matches s s' n k p q)
    (hf : Matches s s' n k p' q') :
    Matches s s' n k (if c then p else p') (if c then q else q') := by
  by_cases h : c
  · rwa [if_pos h, if_pos h]
  · rwa [if_neg h, if_neg h]

/-- Budgets of a step for each token left and one for the end are long enough. -/
theorem budgeted {p q : Budget → Parser α}
    (h : ∀ m b c, m ≤ n → m ≤ b.length → m ≤ c.length → Matches s s' m k (p b) (q c)) :
    Matches s s' n k (Parser.budgeted p) (Parser.budgeted q) := by
  intro ys hys
  refine h (ys.length + 1) _ _ hys ?_ ?_ ys (Nat.lt_succ_self _)
  · simp only [List.length_cons, Stream.ahead_behind, List.length_append]
    omega
  · simp only [List.length_cons, Stream.ahead_behind, List.length_append]
    omega

/-! ## Reading one token -/

section Tokens

variable {x : Token → Option α} {g h : Option α → Parser β} {test : Token → Bool}

/-- A token is taken, which is not the semicolon, or none is. -/
theorem acceptMap? (hb : Before semi s s') (hx : x semi = none)
    (hsome : ∀ t a, x t = some a →
      Matches s s' (n - 1) (fun b => l b - 1) (g (some a)) (h (some a)))
    (hnone : Matches s s' n l (g none) (h none)) :
    Matches s s' n l (Parser.acceptMap? x >>= g) (Parser.acceptMap? x >>= h) := by
  intro ys hys
  cases ys with
  | nil =>
    have hleft : ∀ t ∈ (s.behind []).ahead.head?, x t = none := by simpa [hb.left] using hx
    have hright : ∀ t ∈ (s'.behind []).ahead.head?, x t = none := by simpa [hb.right] using hx
    rw [acceptMap?_none hleft, acceptMap?_none hright]
    exact hnone [] hys
  | cons t ys =>
    rw [acceptMap?_behind, acceptMap?_behind]
    cases ht : x t with
    | none => exact hnone (t :: ys) hys
    | some a => exact (hsome t a ht ys (by simp only [List.length_cons] at hys; omega)).cons t

theorem accept? {g h : Option Token → Parser β} (hb : Before semi s s')
    (hsemi : test semi = false)
    (hsome : ∀ t, test t →
      Matches s s' (n - 1) (fun b => l b - 1) (g (some t)) (h (some t)))
    (hnone : Matches s s' n l (g none) (h none)) :
    Matches s s' n l (Parser.accept? test >>= g) (Parser.accept? test >>= h) := by
  refine acceptMap? hb (by simp [hsemi]) ?_ hnone
  intro t a ht
  split at ht
  · next hpass =>
    cases ht
    exact hsome t hpass
  · cases ht

theorem accept {g h : Bool → Parser β} (hb : Before semi s s') (hsemi : test semi = false)
    (htrue : Matches s s' (n - 1) (fun b => l b - 1) (g true) (h true))
    (hfalse : Matches s s' n l (g false) (h false)) :
    Matches s s' n l (Parser.accept test >>= g) (Parser.accept test >>= h) := by
  rw [accept_bind, accept_bind]
  exact accept? hb hsemi (fun _ _ => htrue) hfalse

/-- The token at the front is the same before both streams. -/
theorem current {g h : Token → Parser β} (hb : Before semi s s')
    (hf : ∀ t, Matches s s' n l (g t) (h t)) :
    Matches s s' n l (Parser.current >>= g) (Parser.current >>= h) := by
  intro ys hys
  rw [current_bind, current_bind, ← hb.current_eq]
  exact hf _ ys hys

theorem nextIs {y : Symbol} {g h : Bool → Parser β} (hb : Before semi s s')
    (hf : ∀ c, Matches s s' n l (g c) (h c)) :
    Matches s s' n l (Parser.nextIs y >>= g) (Parser.nextIs y >>= h) := by
  intro ys hys
  rw [nextIs_bind, nextIs_bind, ← hb.current_eq]
  exact hf _ ys hys

theorem expect {e : SyntaxError} {g h : Token → Parser β} (hb : Before semi s s')
    (hsemi : test semi = false)
    (hf : ∀ t, Matches s s' (n - 1) (fun b => l b - 1) (g t) (h t)) :
    Matches s s' n l (Parser.expect test e >>= g) (Parser.expect test e >>= h) := by
  rw [expect_bind, expect_bind]
  exact accept? hb hsemi (fun t _ => hf t) (current hb fun _ => fail)

theorem report {t : Token} {e : SyntaxError} {g h : Unit → Parser β}
    (hf : Matches s s' n l (g ()) (h ())) :
    Matches s s' n l (Parser.report t e >>= g) (Parser.report t e >>= h) := by
  have hreport : Matches s s' n (fun _ => 0) (Parser.report t e) (Parser.report t e) :=
    fun ys _ => ⟨[], ys, rfl, Nat.zero_le _, rfl, rfl⟩
  exact hreport.bind fun _ => hf

end Tokens

/-! ## Loops -/

section Loops

variable {step step' : α → Parser (Option α)} {tooMany : SyntaxError}

theorem iterateWithin (h : ∀ a, Matches s s' n taken (step a) (step' a)) {b c : Budget}
    (hb : n ≤ b.length) (hc : n ≤ c.length) (a : α) :
    Matches s s' n (fun _ => 0) (Parser.iterateWithin step b a)
      (Parser.iterateWithin step' c a) := by
  induction n generalizing b c a with
  | zero => exact below_zero
  | succ n ih =>
    obtain ⟨_, b, rfl, hb'⟩ := exists_cons_of_lt hb
    obtain ⟨_, c, rfl, hc'⟩ := exists_cons_of_lt hc
    -- a step that goes on takes a token, so one less is left for as many steps of the budgets
    refine (h a).bind fun o => ?_
    cases o with
    | none => exact .pure rfl
    | some x =>
      have hless : ∀ a, Matches s s' n taken (step a) (step' a) := fun a =>
        (h a).mono (Nat.le_succ n) fun _ => Nat.le_refl _
      exact (ih hless hb' hc' x).mono (by simp [taken]) fun _ => by simp

theorem iterate (h : ∀ a, Matches s s' n taken (step a) (step' a)) (a : α) :
    Matches s s' n (fun _ => 0) (Parser.iterate step a) (Parser.iterate step' a) :=
  .budgeted fun _ _ _ hm hb hc =>
    .iterateWithin (fun a => (h a).mono hm fun _ => Nat.le_refl _) hb hc a

theorem separatedWithin (hbefore : Before semi s s') (h : Matches s s' n one p q) {b c : Budget}
    (hb : n ≤ b.length) (hc : n ≤ c.length) (count : Nat) :
    Matches s s' n (fun _ => 0) (Parser.separatedWithin tooMany p b count)
      (Parser.separatedWithin tooMany q c count) := by
  induction n generalizing b c count with
  | zero => exact below_zero
  | succ n ih =>
    obtain ⟨_, b, rfl, hb'⟩ := exists_cons_of_lt hb
    obtain ⟨_, c, rfl, hc'⟩ := exists_cons_of_lt hc
    have hmore := ih (h.mono (Nat.le_succ n) fun _ => Nat.le_refl _) hb' hc' (count + 1)
    -- what follows the check of the limit, which is the same on either side of it
    have hitem : Matches s s' (n + 1) (fun _ => 0)
        (do
          let a ← p
          if ← Parser.accept (·.isSymbol .comma) then
            return a :: (← Parser.separatedWithin tooMany p b (count + 1))
          else return [a])
        (do
          let a ← q
          if ← Parser.accept (·.isSymbol .comma) then
            return a :: (← Parser.separatedWithin tooMany q c (count + 1))
          else return [a]) := by
      refine h.bind fun a => accept hbefore (by simp [Token.isSymbol, hbefore.kind]) ?_ (.pure rfl)
      exact (hmore.mono (by simp) fun _ => Nat.le_refl _).bind fun _ => .pure rfl
    unfold Parser.separatedWithin
    by_cases hlimit : argumentLimit ≤ count
    · simp only [if_pos hlimit]
      exact current hbefore fun t => .report hitem
    · simp only [if_neg hlimit]
      exact hitem

theorem separated (hbefore : Before semi s s') (h : Matches s s' n one p q) :
    Matches s s' n (fun _ => 0) (Parser.separated tooMany p) (Parser.separated tooMany q) := by
  refine nextIs hbefore fun c => .ite (.pure rfl) (.budgeted fun m b c hm hb hc => ?_)
  exact separatedWithin hbefore (h.mono hm fun _ => Nat.le_refl _) hb hc 0

end Loops

end Matches

/-! ## Expressions -/

section Expressions

variable {nested nested' : Parser Parsed}

theorem matches_primary (hb : Before semi s s') (h : Matches s s' n one nested nested') :
    Matches s s' (n + 1) one (primary nested) (primary nested') := by
  have hk := hb.kind
  refine .acceptMap? hb (by simp [hk, TokenKind.literal?]) (fun t v _ => .pure rfl) <|
    .accept? hb (by simp [Token.isKeyword, hk]) (fun t _ => .pure rfl) <|
    .accept? hb (by simp [Token.isKeyword, hk]) (fun t _ => ?_) <|
    .accept? hb (by simp [hk]) (fun t _ => .pure rfl) <|
    .accept hb (by simp [Token.isSymbol, hk]) ?_ <| .current hb fun _ => .fail
  · exact .expect hb (by simp [Token.isSymbol, hk]) fun _ =>
      .expect hb (by simp [hk]) fun _ => .pure rfl
  · exact h.bind fun e => .expect hb (by simp [Token.isSymbol, hk]) fun _ => .pure (by simp)

theorem matches_callStep (hb : Before semi s s') (h : Matches s s' n one nested nested')
    (e : Parsed) :
    Matches s s' (n + 1) taken (callStep nested e) (callStep nested' e) := by
  have hk := hb.kind
  refine .accept hb (by simp [Token.isSymbol, hk]) ?_ <|
    .accept hb (by simp [Token.isSymbol, hk]) ?_ (.pure rfl)
  · have hfinish : Matches s s' n (fun _ => 0) (finishCall nested e) (finishCall nested' e) :=
      (h.separated hb).bind fun _ => .expect hb (by simp [Token.isSymbol, hk]) fun _ => .pure rfl
    exact hfinish.bind fun x => .pure rfl
  · exact .expect hb (by simp [hk]) fun _ => .pure rfl

theorem matches_unary (hb : Before semi s s') (h : Matches s s' n one nested nested') :
    Matches s s' (n + 1) one (unary nested) (unary nested') := by
  have hstep : ∀ ops, Matches s s' (n + 1) taken (unaryStep ops) (unaryStep ops) := fun ops =>
    .acceptMap? hb (by simp [hb.kind, TokenKind.unaryOp?]) (fun _ _ _ => .pure rfl) (.pure rfl)
  have hcall : Matches s s' (n + 1) one (call nested) (call nested') :=
    (matches_primary hb h).bind fun e => (Matches.iterate (matches_callStep hb h) e).mono
      (by simp) fun _ => by simp
  exact (Matches.iterate hstep []).bind fun ops => hcall.bind fun e => .pure rfl

theorem matches_chain {level : Level} {operand operand' : Parser Parsed}
    (hb : Before semi s s') (h : Matches s s' (n + 1) one operand operand') :
    Matches s s' (n + 1) one (chain level operand) (chain level operand') := by
  have hstep : ∀ left, Matches s s' (n + 1) taken (binaryStep level operand left)
      (binaryStep level operand' left) := fun left => by
    refine .acceptMap? hb (by simp [hb.kind, TokenKind.binaryOp?]) (fun t op _ => ?_) (.pure rfl)
    exact (h.mono (by simp) fun _ => Nat.le_refl _).bind fun r => .pure rfl
  exact h.bind fun e => (Matches.iterate hstep e).mono (by simp) fun _ => by simp

theorem matches_logical {op : LogicalOp} {operand operand' : Parser Parsed}
    (hb : Before semi s s') (h : Matches s s' (n + 1) one operand operand') :
    Matches s s' (n + 1) one (operand >>= fun e => iterate (logicalStep op operand) e)
      (operand' >>= fun e => iterate (logicalStep op operand') e) := by
  have hstep : ∀ left, Matches s s' (n + 1) taken (logicalStep op operand left)
      (logicalStep op operand' left) := fun left => by
    refine .accept? hb (by simp [hb.kind, TokenKind.logicalOp?]) (fun t _ => ?_) (.pure rfl)
    exact (h.mono (by simp) fun _ => Nat.le_refl _).bind fun r => .pure rfl
  exact h.bind fun e => (Matches.iterate hstep e).mono (by simp) fun _ => by simp

theorem matches_ternary (hb : Before semi s s') (h : Matches s s' n one nested nested') :
    Matches s s' (n + 1) one (ternary nested) (ternary nested') := by
  have hequality : Matches s s' (n + 1) one (binary nested .equality) (binary nested' .equality) :=
    matches_chain hb <| matches_chain hb <| matches_chain hb <| matches_chain hb <|
      matches_unary hb h
  have hor : Matches s s' (n + 1) one (disjunction nested) (disjunction nested') :=
    matches_logical hb (matches_logical hb hequality)
  refine hor.bind fun c => .accept? hb (by simp [Token.isSymbol, hb.kind])
    (fun t _ => .ite ?_ .fail) (.pure rfl)
  -- the condition has taken a token, so none is asked of the branches
  have hnext : Matches s s' n (fun _ => 0) nested nested' :=
    h.mono (Nat.le_refl n) fun _ => Nat.zero_le _
  refine (hnext.mono (by simp) fun _ => Nat.le_refl _).bind fun x =>
    .expect hb (by simp [Token.isSymbol, hb.kind]) fun _ => ?_
  exact (hnext.mono (by simp; omega) fun _ => Nat.le_refl _).bind fun y => .pure rfl

theorem matches_assignment (hb : Before semi s s') (h : Matches s s' n one nested nested') :
    Matches s s' (n + 1) one (assignment nested) (assignment nested') := by
  refine (matches_ternary hb h).bind fun target =>
    .accept? hb (by simp [Token.isSymbol, hb.kind]) (fun t _ => ?_) (.pure rfl)
  refine (h.mono (by simp) fun _ => Nat.le_refl _).bind fun value => ?_
  unfold assignTo
  split
  · exact .pure rfl
  · exact .pure rfl
  · exact .report (.pure rfl)

theorem matches_expressionWithin (hbefore : Before semi s s') {b c : Budget} (hb : n ≤ b.length)
    (hc : n ≤ c.length) :
    Matches s s' n one (expressionWithin b) (expressionWithin c) := by
  induction n generalizing b c with
  | zero => exact Matches.below_zero
  | succ n ih =>
    obtain ⟨_, b, rfl, hb'⟩ := exists_cons_of_lt hb
    obtain ⟨_, c, rfl, hc'⟩ := exists_cons_of_lt hc
    -- an expression within another stands behind a token of it
    exact matches_assignment hbefore (ih hb' hc')

end Expressions

/-- The same tokens before the same semicolon are read as an expression to the same reply, whatever
stands after the semicolon. -/
theorem matches_expression (hb : Before semi s s') : Matches s s' n one expression expression :=
  .budgeted fun _ _ _ _ hb' hc => matches_expressionWithin hb hb' hc

end Parser

end Lox
