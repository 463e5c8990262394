import Lox.Proofs.Grammar.Phrase
import Lox.Proofs.Parser.Expression

/-!
# Parsing phrases

A phrase before a token that does not extend it is read completely, and what is read is its
tree. On the tiers whose operators repeat, more is true of a phrase before any token that does
not extend its operands: reading it leaves the loop of the tier to go on from its tree.

## Main definitions

* `TokenKind.joins`: the tightest tier that a token extends
* `Stream.Stops`: a stream whose first token extends no phrase of a rank
* `Tier.parser`, `Tier.step`: the parser of a tier and the step of its loop
* `Tier.Completes`: what parsing a phrase comes to

## Main results

* `Phrase.completes`: every phrase is parsed to its tree
* `expression_of_phrase`: the same for whole expressions
-/

namespace Lox

open Grammar Lox.Parser

/-! ## Reading known tokens -/

namespace Parser

variable {α β : Type} {s : Stream} {t : Token} {ts : List Token} {test : Token → Bool}

@[simp] theorem acceptMap?_behind {f : Token → Option α} (g : Option α → Parser β) :
    (acceptMap? f >>= g) (s.behind (t :: ts)) =
      match f t with
      | some a => g (some a) (s.behind ts)
      | none => g none (s.behind (t :: ts)) := by
  cases h : f t with
  | some a =>
    rw [← List.singleton_append, ← Stream.behind_behind]
    exact bind_of_ok (acceptMap?_of_some h _) g
  | none => exact bind_of_ok (acceptMap?_of_none (by simp [h])) g

@[simp] theorem accept?_behind (g : Option Token → Parser β) :
    (accept? test >>= g) (s.behind (t :: ts)) =
      if test t then g (some t) (s.behind ts) else g none (s.behind (t :: ts)) := by
  rw [accept?, acceptMap?_behind]
  by_cases h : test t <;> simp [h]

@[simp] theorem accept_behind (g : Bool → Parser β) :
    (accept test >>= g) (s.behind (t :: ts)) =
      if test t then g true (s.behind ts) else g false (s.behind (t :: ts)) := by
  rw [accept_bind, accept?_behind]
  rfl

theorem expect_behind {e : SyntaxError} (h : test t) (g : Token → Parser β) :
    (expect test e >>= g) (s.behind (t :: ts)) = g t (s.behind ts) := by
  rw [expect_bind, accept?_behind, if_pos h]

theorem acceptMap?_none {f : Token → Option α} (h : ∀ t ∈ s.ahead.head?, f t = none)
    (g : Option α → Parser β) : (acceptMap? f >>= g) s = g none s :=
  bind_of_ok (acceptMap?_of_none h) g

theorem accept?_none (h : ∀ t ∈ s.ahead.head?, test t = false) (g : Option Token → Parser β) :
    (accept? test >>= g) s = g none s :=
  acceptMap?_none (fun t ht => by simp [h t ht]) g

theorem accept_none (h : ∀ t ∈ s.ahead.head?, test t = false) (g : Bool → Parser β) :
    (accept test >>= g) s = g false s := by
  rw [accept_bind, accept?_none h]
  rfl

end Parser

/-! ## Ranks -/

namespace Tier

/-- The rank of a tier, from the loosest to the tightest. -/
def rank : Tier → Nat
  | expr => 1
  | logic .or => 3
  | logic .and => 4
  | level .equality => 5
  | level .comparison => 6
  | level .term => 7
  | level .factor => 8
  | unary => 9
  | call => 10
  | primary => 11

theorem rank_le_below (t : Tier) : t.rank ≤ t.below.rank := by
  rcases t with _ | op | l | _ | _ | _
  · decide
  · cases op <;> decide
  · cases l <;> decide
  all_goals decide

end Tier

/-- The rank of the tightest tier whose phrases a token extends; zero if it extends none. -/
def TokenKind.joins : TokenKind → Nat
  | symbol .equal => 1
  | symbol .question => 2
  | keyword .orWord => 3
  | keyword .andWord => 4
  | symbol .equalEqual | symbol .bangEqual => 5
  | symbol .less | symbol .lessEqual | symbol .greater | symbol .greaterEqual => 6
  | symbol .plus | symbol .minus => 7
  | symbol .star | symbol .slash => 8
  | symbol .leftParen | symbol .dot => 10
  | _ => 0

/-- The first token, if there is one, extends no phrase of a rank or a tighter one. -/
def Stream.Stops (n : Nat) (s : Stream) : Prop := ∀ t ∈ s.ahead.head?, t.kind.joins < n

theorem Stream.Stops.mono {n m : Nat} {s : Stream} (h : s.Stops n) (hn : n ≤ m) : s.Stops m :=
  fun t ht => Nat.lt_of_lt_of_le (h t ht) hn

theorem Stream.stops_behind {n : Nat} {s : Stream} {t : Token} {ts : List Token} :
    (s.behind (t :: ts)).Stops n ↔ t.kind.joins < n := by
  simp [Stops]

theorem TokenKind.joins_of_binaryOp? {k : TokenKind} {op : BinaryOp}
    (h : k.binaryOp? = some op) : k.joins = (Tier.level op.level).rank := by
  unfold binaryOp? at h
  split at h <;> cases h <;> rfl

theorem TokenKind.joins_of_logicalOp? {k : TokenKind} {op : LogicalOp}
    (h : k.logicalOp? = some op) : k.joins = (Tier.logic op).rank := by
  unfold logicalOp? at h
  split at h <;> cases h <;> rfl

theorem Stream.Stops.isSymbol {n : Nat} {s : Stream} {x : Symbol} (h : s.Stops n)
    (hx : n ≤ (TokenKind.symbol x).joins) : ∀ t ∈ s.ahead.head?, t.isSymbol x = false := by
  intro t ht
  have hlt := h t ht
  refine decide_eq_false fun hk => ?_
  rw [hk] at hlt
  omega

/-! ## Items between commas -/

theorem Commas.length_le {parts : List (List Token)} {us : List Token} (h : Commas parts us) :
    parts.length ≤ us.length + 1 := by
  induction h with
  | none => simp
  | one => simp
  | more ts hc _ ih => simp at ih ⊢; omega

theorem Commas.exists_append {ts us : List Token} {parts : List (List Token)}
    (h : Commas (ts :: parts) us) : ∃ vs, us = ts ++ vs := by
  cases h with
  | one => exact ⟨[], by simp⟩
  | more => exact ⟨_, rfl⟩

namespace Parser

variable {α : Type} {item : Parser α} {s : Stream} {tooMany : SyntaxError}

theorem nextIs_bind {β : Type} (x : Symbol) (g : Bool → Parser β) (s : Stream) :
    (nextIs x >>= g) s = g (s.current.isSymbol x) s := rfl

@[simp] theorem current_behind (t : Token) (ts : List Token) :
    (s.behind (t :: ts)).current = t := rfl

/-- A parser reads tokens to a result before any token that extends no expression. -/
def ReadsPart (item : Parser α) (x : List Token × α) : Prop :=
  ∀ s : Stream, s.Stops 1 → item (s.behind x.1) = ⟨[], .ok x.2 s⟩

theorem separatedWithin_of_commas {parts : List (List Token × α)} {us : List Token} {b : Budget}
    {n : Nat} (h : ∀ x ∈ parts, ReadsPart item x) (hcommas : Commas (parts.map (·.1)) us)
    (hne : parts ≠ []) (hlimit : n + parts.length ≤ argumentLimit) (hb : parts.length ≤ b.length)
    (hs : s.Stops 1) (hcomma : ∀ t ∈ s.ahead.head?, t.isSymbol .comma = false) :
    separatedWithin tooMany item b n (s.behind us) = ⟨[], .ok (parts.map (·.2)) s⟩ := by
  induction parts generalizing us b n with
  | nil => exact absurd rfl hne
  | cons x parts ih =>
    obtain ⟨t, b, rfl, hb'⟩ := exists_cons_of_lt hb
    have hcount : ¬ argumentLimit ≤ n := by
      simp only [List.length_cons] at hlimit
      omega
    rw [separatedWithin]
    simp only [if_neg hcount]
    cases parts with
    | nil =>
      cases hcommas with
      | one =>
        refine (bind_of_ok (h x (by simp) s hs) _).trans ?_
        exact (accept_none hcomma _).trans rfl
    | cons y parts =>
      cases hcommas with
      | @more _ _ vs c _ hc hrest =>
        have hmore := ih (b := b) (n := n + 1) (fun z hz => h z (by simp [hz])) hrest (by simp)
          (by simp only [List.length_cons] at hlimit ⊢; omega) hb'
        -- a comma extends no expression
        have hstops : (s.behind (c :: vs)).Stops 1 := by
          have hk : c.kind = .symbol .comma := Token.kind_of_isSymbol hc
          simp [Stream.stops_behind, hk, TokenKind.joins]
        rw [← Stream.behind_behind]
        refine (bind_of_ok (h x (by simp) _ hstops) _).trans ?_
        simp only [accept_behind, if_pos hc]
        exact (bind_of_ok hmore _).trans rfl

/-- Items with commas between them before a closing parenthesis. -/
theorem separated_of_commas {parts : List (List Token × α)} {us vs : List Token} {a : Token}
    (h : ∀ x ∈ parts, ReadsPart item x)
    (hstart : ∀ x ∈ parts, ∃ t ts, x.1 = t :: ts ∧ t.isSymbol .rightParen = false)
    (hcommas : Commas (parts.map (·.1)) us) (hlimit : parts.length ≤ argumentLimit)
    (ha : a.isSymbol .rightParen) :
    separated tooMany item (s.behind (us ++ a :: vs)) =
      ⟨[], .ok (parts.map (·.2)) (s.behind (a :: vs))⟩ := by
  have hk : a.kind = .symbol .rightParen := Token.kind_of_isSymbol ha
  rw [separated, nextIs_bind]
  cases parts with
  | nil =>
    cases hcommas
    simp [ha]
  | cons x parts =>
    obtain ⟨t, ts, ht, hparen⟩ := hstart x (by simp)
    obtain ⟨us', rfl⟩ := Commas.exists_append hcommas
    -- the first token tells that the list is not empty
    have hcurrent : (s.behind (x.1 ++ us' ++ a :: vs)).current = t := by simp [ht]
    have hlen := hcommas.length_le
    have hstops : (s.behind (a :: vs)).Stops 1 := by
      simp [Stream.stops_behind, hk, TokenKind.joins]
    have hread : separatedWithin tooMany item (s.finish :: (x.1 ++ us' ++ a :: vs ++ s.ahead)) 0
        ((s.behind (a :: vs)).behind (x.1 ++ us')) =
        ⟨[], .ok ((x :: parts).map (·.2)) (s.behind (a :: vs))⟩ :=
      separatedWithin_of_commas h hcommas (by simp) (by simpa using hlimit)
        (by simp at hlen ⊢; omega) hstops (by simp [Token.isSymbol, hk])
    rw [Stream.behind_behind] at hread
    rw [hcurrent, hparen]
    exact hread

end Parser

/-! ## The parser of a tier -/

namespace Tier

/-- The parser of a tier. -/
def parser : Tier → Parser Parsed
  | expr => expression
  | logic .or => disjunction expression
  | logic .and => conjunction expression
  | level l => binary expression l
  | unary => Parser.unary expression
  | call => Parser.call expression
  | primary => Parser.primary expression

/-- The tiers whose operators repeat. -/
inductive Loops : Tier → Prop where
  | logic (op : LogicalOp) : Loops (logic op)
  | level (l : Level) : Loops (level l)
  | call : Loops call

/-- One more operator of a tier that repeats. -/
def step : Tier → Parsed → Parser (Option Parsed)
  | logic op => logicalStep op (logic op).below.parser
  | level l => binaryStep l (level l).below.parser
  | call => callStep expression
  | _ => fun _ => pure none

variable {t : Tier} {s : Stream} {e : Parsed}

theorem Loops.parser_eq (h : Loops t) (s : Stream) :
    t.parser s = (t.below.parser >>= iterate t.step) s := by
  cases h with
  | logic op => cases op <;> rfl
  | level l => cases l <;> rfl
  | call => rfl

theorem alike_operand (l : Level) (n : Nat) :
    Alike (n + 1) one (Forms l.operand) (level l).below.parser (level l).below.parser := by
  have hunary := Alike.unary (nested_expression n)
  cases l with
  | equality =>
    exact Alike.chain (l := .comparison)
      (Alike.chain (l := .term) (Alike.chain (l := .factor) hunary))
  | comparison => exact Alike.chain (l := .term) (Alike.chain (l := .factor) hunary)
  | term => exact Alike.chain (l := .factor) hunary
  | factor => exact hunary

theorem Loops.alike_step (h : Loops t) :
    ∃ inv, ∀ n e, Alike n taken (Keeps inv e) (t.step e) (t.step e) := by
  cases h with
  | logic op =>
    cases op with
    | or =>
      exact ⟨Forms .or, fun n e => (Alike.logicalStep derivable_or_more
        (Alike.conjunction (nested_expression n)) e).mono (Nat.le_succ n) (fun _ => Nat.le_refl _)
        fun _ _ => id⟩
    | and =>
      exact ⟨Forms .and, fun n e => (Alike.logicalStep derivable_and_more
        (Alike.equality (nested_expression n)) e).mono (Nat.le_succ n) (fun _ => Nat.le_refl _)
        fun _ _ => id⟩
  | level l =>
    exact ⟨Forms l.nonterminal, fun n e => (Alike.binaryStep (alike_operand l n) e).mono
      (Nat.le_succ n) (fun _ => Nat.le_refl _) fun _ _ => id⟩
  | call =>
    exact ⟨Forms .call, fun n e => (Alike.callStep (nested_expression n) e).mono
      (Nat.le_succ n) (fun _ => Nat.le_refl _) fun _ _ => id⟩

theorem Loops.iterate_of_some (h : Loops t) {x : Parsed} {rest : Stream}
    (hs : t.step e s = ⟨[], .ok (some x) rest⟩) :
    iterate t.step e s = iterate t.step x rest := by
  obtain ⟨inv, halike⟩ := h.alike_step
  rw [iterate_eq halike]
  exact bind_of_ok hs _

theorem Loops.iterate_of_none (h : Loops t) (hs : t.step e s = ⟨[], .ok none s⟩) :
    iterate t.step e s = ⟨[], .ok e s⟩ := by
  obtain ⟨inv, halike⟩ := h.alike_step
  rw [iterate_eq halike]
  exact bind_of_ok hs _

theorem step_level_none {l : Level} (h : ∀ t ∈ s.ahead.head?, t.kind.joins < (level l).rank)
    (e : Parsed) : (level l).step e s = ⟨[], .ok none s⟩ := by
  refine (acceptMap?_none (fun t ht => ?_) _).trans rfl
  cases hop : t.kind.binaryOp? with
  | none => rfl
  | some op =>
    have hrank := h t ht
    rw [TokenKind.joins_of_binaryOp? hop] at hrank
    have hl : op.level ≠ l := by
      rintro rfl
      omega
    simp [hl]

theorem step_logic_none {op : LogicalOp} (h : s.Stops (logic op).rank) (e : Parsed) :
    (logic op).step e s = ⟨[], .ok none s⟩ := by
  refine (accept?_none (fun t ht => ?_) _).trans rfl
  have hop : t.kind.logicalOp? ≠ some op := by
    intro hop
    have := h t ht
    rw [TokenKind.joins_of_logicalOp? hop] at this
    omega
  simpa using hop

theorem step_call_none (h : s.Stops call.rank) (e : Parsed) :
    call.step e s = ⟨[], .ok none s⟩ :=
  (accept_none (h.isSymbol (by decide)) _).trans
    ((accept_none (h.isSymbol (by decide)) _).trans rfl)

/-- A loop ends before a token that does not extend its tier. -/
theorem Loops.step_of_stops (h : Loops t) (hs : s.Stops t.rank) (e : Parsed) :
    t.step e s = ⟨[], .ok none s⟩ := by
  cases h with
  | logic op => exact step_logic_none hs e
  | level l => exact step_level_none hs e
  | call => exact step_call_none hs e

/-! ## What parsing a phrase comes to -/

/-- Unary operators, after some that were read, and a call. -/
def unaryFrom (ops : List (UnaryOp × Token)) : Parser Parsed := do
  let ops ← iterate unaryStep ops
  return ops.foldl (fun e op => .unary op.1 op.2 e) (← Parser.call expression)

/-- What parsing a phrase of a tier comes to: its tree, or the loop of the tier that goes on
from its tree. -/
def Completes : Tier → List Token → Parsed → Prop
  | expr, ts, e => ∀ s : Stream, s.Stops expr.rank → expression (s.behind ts) = ⟨[], .ok e s⟩
  | unary, ts, e => ∀ (ops : List (UnaryOp × Token)) (s : Stream), s.Stops call.rank →
      unaryFrom ops (s.behind ts) =
        ⟨[], .ok (ops.foldl (fun e op => .unary op.1 op.2 e) e) s⟩
  | primary, ts, e => ∀ s : Stream, Parser.primary expression (s.behind ts) = ⟨[], .ok e s⟩
  | t, ts, e => ∀ s : Stream, s.Stops t.below.rank →
      t.parser (s.behind ts) = iterate t.step e s

theorem Loops.completes_iff (h : Loops t) {ts : List Token} :
    t.Completes ts e ↔ ∀ s : Stream, s.Stops t.below.rank →
      t.parser (s.behind ts) = iterate t.step e s := by
  cases h <;> rfl

variable {ts us : List Token}

/-- A phrase is read before a token that does not extend it. -/
theorem Completes.reads (h : t.Completes ts e) (hs : s.Stops t.rank) :
    t.parser (s.behind ts) = ⟨[], .ok e s⟩ := by
  have hloop : Loops t → t.parser (s.behind ts) = ⟨[], .ok e s⟩ := fun hl => by
    rw [hl.completes_iff.1 h s (hs.mono t.rank_le_below)]
    exact hl.iterate_of_none (hl.step_of_stops hs e)
  cases t with
  | expr => exact h s hs
  | logic op => exact hloop (.logic op)
  | level l => exact hloop (.level l)
  | unary => exact h [] s (hs.mono (by decide))
  | call => exact hloop .call
  | primary => exact h s

/-- One more round of a loop. -/
theorem Loops.completes_more (h : Loops t) (hc : t.Completes ts e) {a : Token} {x : Parsed}
    (ha : a.kind.joins < t.below.rank)
    (hstep : ∀ s : Stream, s.Stops t.below.rank →
      t.step e (s.behind (a :: us)) = ⟨[], .ok (some x) s⟩) :
    t.Completes (ts ++ a :: us) x := by
  refine h.completes_iff.2 fun s hs => ?_
  rw [← Stream.behind_behind, h.completes_iff.1 hc _ (Stream.stops_behind.2 ha)]
  exact h.iterate_of_some (hstep s hs)

theorem Loops.completes_lift (h : Loops t) (hc : t.below.Completes ts e) :
    t.Completes ts e := by
  refine h.completes_iff.2 fun s hs => ?_
  rw [h.parser_eq]
  exact bind_of_ok (hc.reads hs) _

/-! ### Primary expressions and calls -/

variable {a b c : Token}

theorem completes_literal {v : Literal} (h : a.kind.literal? = some v) :
    primary.Completes [a] (.literal v) := by
  intro s
  simp [Parser.primary, h]

theorem completes_this (h : a.isKeyword .thisWord) : primary.Completes [a] (.this a.ref) := by
  intro s
  have hk : a.kind = .keyword .thisWord := Token.kind_of_isKeyword h
  simp [Parser.primary, hk, h, TokenKind.literal?]

theorem completes_super (ha : a.isKeyword .superWord) (hb : b.isSymbol .dot)
    (hc : c.kind = .identifier) : primary.Completes [a, b, c] (.super a.ref c) := by
  intro s
  have hk : a.kind = .keyword .superWord := Token.kind_of_isKeyword ha
  simp only [Parser.primary, acceptMap?_behind, accept?_behind, hk, TokenKind.literal?,
    Token.isKeyword]
  refine (expect_behind hb _).trans ?_
  exact (expect_behind (by simpa using hc) _).trans rfl

theorem completes_name (h : a.kind = .identifier) :
    primary.Completes [a] (.variable a.ref) := by
  intro s
  simp [Parser.primary, h, TokenKind.literal?, Token.isKeyword]

theorem completes_group (ha : a.isSymbol .leftParen) (h : expr.Completes ts e)
    (hb : b.isSymbol .rightParen) : primary.Completes (a :: (ts ++ [b])) (.group e) := by
  intro s
  have hk : a.kind = .symbol .leftParen := Token.kind_of_isSymbol ha
  have hstops : (s.behind [b]).Stops 1 := by
    have hkb : b.kind = .symbol .rightParen := Token.kind_of_isSymbol hb
    simp [Stream.stops_behind, hkb, TokenKind.joins]
  have hopen : Parser.primary expression (s.behind (a :: (ts ++ [b]))) =
      grouped expression (s.behind (ts ++ [b])) := by
    simp [Parser.primary, hk, TokenKind.literal?, Token.isKeyword, Token.isSymbol]
  rw [hopen, ← Stream.behind_behind]
  refine (bind_of_ok (h _ hstops) _).trans ?_
  exact (expect_behind hb _).trans rfl

theorem completes_field (h : call.Completes ts e) (ha : a.isSymbol .dot)
    (hb : b.kind = .identifier) : call.Completes (ts ++ [a, b]) (.field e b) := by
  have hk : a.kind = .symbol .dot := Token.kind_of_isSymbol ha
  refine Loops.call.completes_more h (by simp [hk, TokenKind.joins, rank, below]) fun s _ => ?_
  have hparen : a.isSymbol .leftParen = false := by simp [Token.isSymbol, hk]
  simp only [step, callStep, accept_behind, hparen, ha, Bool.false_eq_true, if_false, if_true]
  exact (expect_behind (by simpa using hb) _).trans rfl

theorem completes_call {arguments : List (List Token × Parsed)} (h : call.Completes ts e)
    (ha : a.isSymbol .leftParen) (hargs : ∀ x ∈ arguments, expr.Completes x.1 x.2)
    (hstart : ∀ x ∈ arguments, ∃ t us, x.1 = t :: us ∧ t.isSymbol .rightParen = false)
    (hlimit : arguments.length ≤ argumentLimit) (hcommas : Commas (arguments.map (·.1)) us)
    (hb : b.isSymbol .rightParen) :
    call.Completes (ts ++ a :: (us ++ [b])) (.call e b (arguments.map (·.2))) := by
  have hk : a.kind = .symbol .leftParen := Token.kind_of_isSymbol ha
  refine Loops.call.completes_more h (by simp [hk, TokenKind.joins, rank, below]) fun s _ => ?_
  simp only [step, callStep, accept_behind, ha]
  refine (bind_of_ok (a := .call e b (arguments.map (·.2))) ?_ _).trans rfl
  refine (bind_of_ok (separated_of_commas hargs hstart hcommas hlimit hb) _).trans ?_
  exact (expect_behind hb _).trans rfl

/-! ### Operators -/

variable {r v : Parsed} {vs : List Token}

theorem unaryFrom_cons {ops : List (UnaryOp × Token)} {op : UnaryOp}
    (ha : a.kind.unaryOp? = some op) :
    unaryFrom ops (s.behind (a :: ts)) = unaryFrom ((op, a) :: ops) (s.behind ts) := by
  have hstep : unaryStep ops (s.behind (a :: ts)) =
      ⟨[], .ok (some ((op, a) :: ops)) (s.behind ts)⟩ := by
    simp [unaryStep, ha]
  have hloop : iterate unaryStep ops (s.behind (a :: ts)) =
      iterate unaryStep ((op, a) :: ops) (s.behind ts) := by
    rw [iterate_eq (I := Prefixed) (fun _ => alike_unaryStep)]
    exact bind_of_ok hstep _
  rw [unaryFrom, bind_apply, hloop]
  rfl

theorem unaryFrom_call {ops : List (UnaryOp × Token)} (ha : a.kind.startsCall)
    (h : call.Completes (a :: ts) e) (hs : s.Stops call.rank) :
    unaryFrom ops (s.behind (a :: ts)) =
      ⟨[], .ok (ops.foldl (fun e op => .unary op.1 op.2 e) e) s⟩ := by
  have hstep : unaryStep ops (s.behind (a :: ts)) = ⟨[], .ok none (s.behind (a :: ts))⟩ := by
    simp [unaryStep, TokenKind.unaryOp?_of_startsCall ha]
  have hloop : iterate unaryStep ops (s.behind (a :: ts)) = ⟨[], .ok ops (s.behind (a :: ts))⟩ := by
    rw [iterate_eq (I := Prefixed) (fun _ => alike_unaryStep)]
    exact bind_of_ok hstep _
  exact (bind_of_ok hloop _).trans ((bind_of_ok (h.reads hs) _).trans rfl)

theorem completes_unary {op : UnaryOp} (ha : a.kind.unaryOp? = some op)
    (h : unary.Completes ts e) : unary.Completes (a :: ts) (.unary op a e) := by
  intro ops s hs
  rw [unaryFrom_cons ha]
  exact h _ s hs

theorem completes_binary {op : BinaryOp} {l : Level} (h : (level l).Completes ts e)
    (ha : a.kind.binaryOp? = some op) (hl : op.level = l)
    (hr : (level l).below.Completes us r) :
    (level l).Completes (ts ++ a :: us) (.binary e op a r) := by
  have hjoins := TokenKind.joins_of_binaryOp? ha
  refine (Loops.level l).completes_more h ?_ fun s hs => ?_
  · rw [hjoins, hl]
    cases l <;> decide
  · simp only [step, binaryStep, acceptMap?_behind, ha, hl, Option.filter, Option.map,
      decide_true, if_true]
    exact (bind_of_ok (hr.reads hs) _).trans rfl

theorem completes_logical {op : LogicalOp} (h : (logic op).Completes ts e)
    (ha : a.kind.logicalOp? = some op) (hr : (logic op).below.Completes us r) :
    (logic op).Completes (ts ++ a :: us) (.logical e op a r) := by
  have hjoins := TokenKind.joins_of_logicalOp? ha
  refine (Loops.logic op).completes_more h ?_ fun s hs => ?_
  · rw [hjoins]
    cases op <;> decide
  · simp only [step, logicalStep, accept?_behind, ha, decide_true, if_true]
    exact (bind_of_ok (hr.reads hs) _).trans rfl

/-! ### Conditionals and assignments -/

theorem ternary_of_completes (h : (logic .or).Completes ts e) (hs : s.Stops 2) :
    Parser.ternary expression (s.behind ts) = ⟨[], .ok e s⟩ :=
  (bind_of_ok (h.reads (hs.mono (by decide))) _).trans
    ((accept?_none (hs.isSymbol (by decide)) _).trans rfl)

theorem completes_expr_lift (h : (logic .or).Completes ts e) : expr.Completes ts e := by
  intro s hs
  rw [expression_eq]
  exact (bind_of_ok (ternary_of_completes h (hs.mono (by decide))) _).trans
    ((accept?_none (hs.isSymbol (by decide)) _).trans rfl)

theorem completes_ternary (h : (logic .or).Completes ts e) (hc : e.isComparison)
    (ha : a.isSymbol .question) (ht : expr.Completes us r) (hb : b.isSymbol .colon)
    (hf : expr.Completes vs v) :
    expr.Completes (ts ++ a :: (us ++ b :: vs)) (.ternary a e r v) := by
  intro s hs
  have hka : a.kind = .symbol .question := Token.kind_of_isSymbol ha
  have hkb : b.kind = .symbol .colon := Token.kind_of_isSymbol hb
  have hcond := h.reads (s := s.behind (a :: (us ++ b :: vs)))
    (by simp [Stream.stops_behind, hka, TokenKind.joins, rank])
  have htrue := ht (s.behind (b :: vs)) (by simp [Stream.stops_behind, hkb, TokenKind.joins, rank])
  have hternary : Parser.ternary expression (s.behind (ts ++ a :: (us ++ b :: vs))) =
      ⟨[], .ok (.ternary a e r v) s⟩ := by
    rw [← Stream.behind_behind]
    refine (bind_of_ok hcond _).trans ?_
    simp only [accept?_behind, ha, if_true, hc]
    rw [← Stream.behind_behind]
    refine (bind_of_ok htrue _).trans ((expect_behind hb _).trans ?_)
    exact (bind_of_ok (hf s hs) _).trans rfl
  rw [expression_eq]
  exact (bind_of_ok hternary _).trans ((accept?_none (hs.isSymbol (by decide)) _).trans rfl)

theorem completes_assignment (h : (logic .or).Completes ts e) (ha : a.isSymbol .equal)
    (hv : expr.Completes us v) (hr : assignTo a e v = pure r) :
    expr.Completes (ts ++ a :: us) r := by
  intro s hs
  have hk : a.kind = .symbol .equal := Token.kind_of_isSymbol ha
  rw [expression_eq, ← Stream.behind_behind]
  refine (bind_of_ok (ternary_of_completes h
    (by simp [Stream.stops_behind, hk, TokenKind.joins])) _).trans ?_
  simp only [accept?_behind, ha, if_true]
  refine (bind_of_ok (hv s hs) _).trans ?_
  rw [hr]
  rfl

/-- A phrase of a tighter tier is one of the next looser. -/
theorem completes_lift (hstart : Phrase.Starts t.below ts) (h : t.below.Completes ts e) :
    t.Completes ts e := by
  cases t with
  | expr => exact completes_expr_lift h
  | logic op => exact (Loops.logic op).completes_lift h
  | level l => exact (Loops.level l).completes_lift h
  | unary =>
    obtain ⟨a, us, rfl, -, hcall⟩ := hstart
    exact fun ops s hs => unaryFrom_call (hcall (.inl rfl)) h hs
  | call => exact Loops.call.completes_lift h
  | primary => exact h

end Tier

/-- Every phrase is parsed to its tree. -/
theorem Phrase.completes {t : Tier} {ts : List Token} {e : Parsed} (h : Phrase t ts e) :
    t.Completes ts e := by
  induction h with
  | literal h => exact Tier.completes_literal h
  | this h => exact Tier.completes_this h
  | super ha hb hc => exact Tier.completes_super ha hb hc
  | name h => exact Tier.completes_name h
  | group ha _ hb ih => exact Tier.completes_group ha ih hb
  | field _ ha hb ih => exact Tier.completes_field ih ha hb
  | call _ ha hargs hlimit hcommas hb ih ihargs =>
    refine Tier.completes_call ih ha ihargs (fun x hx => ?_) hlimit hcommas hb
    obtain ⟨t, us, ht, hstart, -⟩ := (hargs x hx).starts
    exact ⟨t, us, ht, Token.isSymbol_eq_false hstart rfl⟩
  | unary ha _ ih => exact Tier.completes_unary ha ih
  | binary _ ha hl _ ih ihr => exact Tier.completes_binary ih ha hl ihr
  | logical _ ha _ ih ihr => exact Tier.completes_logical ih ha ihr
  | ternary _ hc ha _ hb _ ih iht ihf => exact Tier.completes_ternary ih hc ha iht hb ihf
  | assign _ ha _ ih ihv => exact Tier.completes_assignment ih ha ihv rfl
  | setField _ ha _ ih ihv => exact Tier.completes_assignment ih ha ihv rfl
  | lift h ih => exact Tier.completes_lift h.starts ih

/-- A whole expression is parsed to its tree before a token that does not extend it. -/
theorem expression_of_phrase {ts : List Token} {e : Parsed} {s : Stream}
    (h : Phrase .expr ts e) (hs : s.Stops 1) : expression (s.behind ts) = ⟨[], .ok e s⟩ :=
  h.completes s hs

end Lox
