import Lox.Proofs.Parser.Scanned
import Lox.Proofs.Parser.Tokens
import Lox.Proofs.Scope.InOrder

/-!
# The order of what is parsed

A parser reads tokens from the front of what is left and never goes back. So what it keeps and
what it leaves is a sublist of what there was, in the order of the text, also where it reports
something, where tokens are skipped, and where a declaration is lost. From the tokens that the
parts of a tree are made of it follows that the tree is in the order of the text, and from the
texts of these tokens that it is genuine.

## Main definitions

* `Scanned`: tokens as a scanner yields them
* `Parser.Yields`: what a parser yields of the tokens that are held and those that it keeps
* `Parser.Each`: results one after another

## Main results

* `Yields.bind`, `Yields.iterate`, `Yields.itemsUntil`, `Yields.recover`: parsers put together
* `yields_expression`, `yields_declaration`: what expressions and declarations are made of
* `wellFormed_parse`: the trees of any text are genuine and in its order
-/

namespace Lox

open Lox.Part (tokens)

/-- Tokens as a scanner yields them: each starts before the later ones and has the right text. -/
structure Scanned (ts : List Token) : Prop where
  order : ts.Pairwise (·.start.Before ·.start)
  faithful : ∀ t ∈ ts, t.Faithful

namespace Scanned

variable {ts us : List Token}

theorem sublist (h : Scanned us) (hts : ts.Sublist us) : Scanned ts :=
  ⟨h.order.sublist hts, fun t ht => h.faithful t (hts.subset ht)⟩

theorem precede (h : Scanned (ts ++ us)) : Precede ts us :=
  fun t ht u hu => (List.pairwise_append.1 h.order).2.2 t ht u hu

theorem isName {t : Token} (h : Scanned ts) (ht : t ∈ ts) (hkind : decide (t.kind = .identifier)) :
    t.IsName :=
  (h.faithful t ht).isName (of_decide_eq_true hkind)

end Scanned

/-- What an outcome keeps and leaves of the tokens ahead stands there in this order, and its
result is related to the held tokens and those that it keeps. -/
def Outcome.Leaves {α : Type} (held ahead : List Token) (G : List Token → α → Prop) :
    Outcome α → Prop
  | ok a rest => ∃ kept, (kept ++ rest.ahead).Sublist ahead ∧ G (held ++ kept) a
  | unwound _ rest => rest.ahead.Sublist ahead
  | exhausted => True

namespace Parser

variable {α β : Type} {held : List Token} {p q : Parser α} {f : α → Parser β}
  {G : List Token → α → Prop} {K : List Token → β → Prop}

/-- What a parser yields of any stream of scanned tokens, beside those that are held. -/
def Yields (held : List Token) (p : Parser α) (G : List Token → α → Prop) : Prop :=
  ∀ s : Stream, Scanned (held ++ s.ahead) → (p s).outcome.Leaves held s.ahead G

/-- Results one after another, each related to its share of the tokens. -/
inductive Each (G : List Token → α → Prop) : List Token → List α → Prop where
  | nil : Each G [] []
  | cons {us vs : List Token} {a : α} {as : List α} (h : G us a) (hrest : Each G vs as) :
      Each G (us ++ vs) (a :: as)

namespace Each

theorem one {us : List Token} {a : α} (h : G us a) : Each G us [a] := by
  have hone := Each.cons h .nil
  rwa [List.append_nil] at hone

theorem append {us vs : List Token} {as bs : List α} (ha : Each G us as) (hb : Each G vs bs) :
    Each G (us ++ vs) (as ++ bs) := by
  induction ha with
  | nil => exact hb
  | cons h _ ih =>
    rw [List.append_assoc]
    exact .cons h ih

theorem exists_of_mem {us : List Token} {as : List α} (h : Each G us as) {a : α} (ha : a ∈ as) :
    ∃ vs, vs ⊆ us ∧ G vs a := by
  induction h with
  | nil => cases ha
  | cons hfirst _ ih =>
    rcases List.mem_cons.1 ha with rfl | ha
    · exact ⟨_, List.subset_append_left _ _, hfirst⟩
    · obtain ⟨vs, hvs, h⟩ := ih ha
      exact ⟨vs, List.subset_append_of_subset_right _ hvs, h⟩

end Each

namespace Yields

/-! ## Ways to put parsers together -/

theorem mono {G' : List Token → α → Prop} (h : Yields held p G)
    (hG : ∀ ks a, Scanned ks → G ks a → G' ks a) : Yields held p G' := by
  intro s hs
  have hp := h s hs
  revert hp
  cases (p s).outcome with
  | ok a rest =>
    rintro ⟨kept, hkept, ha⟩
    have hscanned := hs.sublist
      (((List.sublist_append_left kept rest.ahead).trans hkept).append_left held)
    exact ⟨kept, hkept, hG _ a hscanned ha⟩
  | unwound | exhausted => exact id

theorem pure {a : α} (h : Scanned held → G held a) : Yields held (Pure.pure a) G := by
  intro s hs
  refine ⟨[], List.Sublist.refl _, ?_⟩
  rw [List.append_nil]
  exact h (hs.sublist (List.sublist_append_left _ _))

/-- One parser after another: the second holds what the first holds and keeps. -/
theorem bindGiven (hp : Yields held p G) (hf : ∀ ks a, G ks a → Yields ks (f a) K) :
    Yields held (p >>= f) K := by
  intro s hs
  have hfirst := hp s hs
  rw [bind_apply]
  revert hfirst
  rcases p s with ⟨reports, ⟨a, rest⟩ | ⟨u, rest⟩ | _⟩
  · rintro ⟨kept, hkept, ha⟩
    -- the second parser holds what the first has kept, in front of what that leaves
    have hscanned : Scanned ((held ++ kept) ++ rest.ahead) := by
      rw [List.append_assoc]
      exact hs.sublist (hkept.append_left held)
    have hsecond := hf _ a ha rest hscanned
    show (f a rest).outcome.Leaves held s.ahead K
    revert hsecond
    cases (f a rest).outcome with
    | ok b rest' =>
      rintro ⟨kept', hkept', hb⟩
      refine ⟨kept ++ kept', ?_, by rwa [← List.append_assoc]⟩
      rw [List.append_assoc]
      exact (hkept'.append_left kept).trans hkept
    | unwound u rest' =>
      intro hrest
      exact hrest.trans ((List.sublist_append_right kept rest.ahead).trans hkept)
    | exhausted => exact id
  · exact id
  · exact id

/-- What is held can be kept aside. -/
theorem frame (h : Yields [] p G) (held : List Token) :
    Yields held p fun ks a => ∃ kept, ks = held ++ kept ∧ G kept a := by
  intro s hs
  have hp := h s (hs.sublist (List.sublist_append_right _ _))
  revert hp
  cases (p s).outcome with
  | ok a rest =>
    rintro ⟨kept, hkept, ha⟩
    exact ⟨kept, hkept, kept, rfl, ha⟩
  | unwound | exhausted => exact id

/-- One parser after another, of which the first needs nothing of what is held. -/
theorem bind (hp : Yields [] p G) (hf : ∀ ks a, G ks a → Yields (held ++ ks) (f a) K) :
    Yields held (p >>= f) K := by
  refine (hp.frame held).bindGiven ?_
  rintro _ a ⟨kept, rfl, ha⟩
  exact hf kept a ha

/-- What the first parser keeps is dropped. -/
theorem bindDrop (hp : Yields [] p G) (hf : ∀ a, Yields held (f a) K) :
    Yields held (p >>= f) K := by
  -- what is left is a sublist of what was ahead whether anything is kept or not
  have hdropped : Yields [] p fun ks _ => ks = [] := by
    intro s hs
    have h := hp s hs
    revert h
    cases (p s).outcome with
    | ok a rest =>
      rintro ⟨kept, hkept, -⟩
      exact ⟨[], (List.sublist_append_right kept rest.ahead).trans hkept, rfl⟩
    | unwound | exhausted => exact id
  refine hdropped.bind ?_
  rintro _ a rfl
  rw [List.append_nil]
  exact hf a

theorem map {g : α → β} (hp : Yields [] p G) (hg : ∀ ks a, G ks a → K ks (g a)) :
    Yields [] (g <$> p) K :=
  hp.bind fun ks a h => .pure fun _ => hg ks a h

theorem ite {b : Bool} (hp : Yields held p G) (hq : Yields held q G) :
    Yields held (if b then p else q) G := by
  cases b
  · exact hq
  · exact hp

theorem exhausted : Yields held (Parser.exhausted : Parser α) G := fun _ _ => trivial

theorem fail {t : Token} {e : SyntaxError} : Yields held (Parser.fail t e : Parser α) G :=
  fun _ _ => List.Sublist.refl _

theorem report {t : Token} {e : SyntaxError} : Yields [] (Parser.report t e) fun _ _ => True :=
  fun _ _ => ⟨[], List.Sublist.refl _, trivial⟩

theorem current : Yields [] Parser.current fun _ _ => True :=
  fun _ _ => ⟨[], List.Sublist.refl _, trivial⟩

theorem atEnd : Yields [] Parser.atEnd fun _ _ => True :=
  fun _ _ => ⟨[], List.Sublist.refl _, trivial⟩

theorem nextIs {s : Symbol} : Yields [] (Parser.nextIs s) fun _ _ => True :=
  current.bind fun _ _ _ => .pure fun _ => trivial

/-- Reading a token that may be kept. -/
theorem acceptMap? {g : Token → Option α} :
    Yields [] (Parser.acceptMap? g) fun ks o => ks = [] ∧ o = none ∨
      ∃ t a, ks = [t] ∧ o = some a ∧ g t = some a := by
  rintro ⟨ahead, finish⟩ -
  cases ahead with
  | nil => exact ⟨[], List.Sublist.refl _, .inl ⟨rfl, rfl⟩⟩
  | cons t rest =>
    simp only [Parser.acceptMap?]
    cases ha : g t with
    | none => exact ⟨[], List.Sublist.refl _, .inl ⟨rfl, rfl⟩⟩
    | some a => exact ⟨[t], List.Sublist.refl _, .inr ⟨t, a, rfl, rfl, ha⟩⟩

theorem accept? {test : Token → Bool} :
    Yields [] (Parser.accept? test) fun ks o => ks = o.toList ∧ ∀ t ∈ o, test t := by
  refine acceptMap?.mono ?_
  rintro _ _ - (⟨rfl, rfl⟩ | ⟨t, u, rfl, rfl, hu⟩)
  · exact ⟨rfl, by simp⟩
  · split at hu
    · next htest =>
      cases hu
      exact ⟨rfl, by simpa using htest⟩
    · cases hu

/-- Reading a token that decides how to go on and may be kept. -/
theorem acceptThen {test : Token → Bool} {f : Option Token → Parser β}
    (hsome : ∀ t, test t → Yields (held ++ [t]) (f (some t)) K) (hnone : Yields held (f none) K) :
    Yields held (Parser.accept? test >>= f) K := by
  refine accept?.bind ?_
  rintro _ (_ | t) ⟨rfl, htest⟩
  · rwa [Option.toList_none, List.append_nil]
  · exact hsome t (htest t rfl)

/-- A token decides how to go on. -/
theorem acceptIte {test : Token → Bool} {p q : Parser β} (hp : Yields held p K)
    (hq : Yields held q K) :
    Yields held (Parser.accept test >>= fun c => if c then p else q) K := by
  have haccept : Yields [] (Parser.accept test) fun _ _ => True :=
    accept?.bindDrop fun _ => .pure fun _ => trivial
  exact haccept.bindDrop fun _ => .ite hp hq

theorem nextIte {s : Symbol} {p q : Parser β} (hp : Yields held p K) (hq : Yields held q K) :
    Yields held (Parser.nextIs s >>= fun c => if c then p else q) K :=
  nextIs.bindDrop fun _ => .ite hp hq

theorem expect {test : Token → Bool} {e : SyntaxError} :
    Yields [] (Parser.expect test e) fun ks t => ks = [t] ∧ test t :=
  .acceptThen (fun _ ht => .pure fun _ => ⟨rfl, ht⟩) (current.bindDrop fun _ => .fail)

/-- A token that has to stand there and is not kept. -/
theorem expectThen {test : Token → Bool} {e : SyntaxError} {p : Parser β}
    (hp : Yields held p K) : Yields held (Parser.expect test e >>= fun _ => p) K :=
  expect.bindDrop fun _ => hp

/-- A part that a token announces. -/
theorem announced {test : Token → Bool} {a : α} (hp : Yields [] p G)
    (hf : ∀ ks a, G ks a → Yields (held ++ ks) (f a) K) (ha : G [] a) :
    Yields held (Parser.accept test >>= fun c => if c then p >>= f else Pure.pure a >>= f) K := by
  refine acceptIte (hp.bind hf) ?_
  have hf := hf [] a ha
  rwa [List.append_nil] at hf

/-- A part that a token in its place excludes. -/
theorem unlessNext {s : Symbol} {a : α} (hp : Yields [] p G)
    (hf : ∀ ks a, G ks a → Yields (held ++ ks) (f a) K) (ha : G [] a) :
    Yields held (Parser.nextIs s >>= fun c => if c then Pure.pure a >>= f else p >>= f) K := by
  refine nextIte ?_ (hp.bind hf)
  have hf := hf [] a ha
  rwa [List.append_nil] at hf

/-! ## Loops and recovery -/

theorem budgeted {p : Budget → Parser α} (h : ∀ budget, Yields held (p budget) G) :
    Yields held (Parser.budgeted p) G :=
  fun s => h (s.finish :: s.ahead) s

/-- A loop whose steps keep what their result is made of. -/
theorem iterate {step : α → Parser (Option α)}
    (hstep : ∀ ks a, G ks a → Yields ks (step a) fun ks o => G ks (o.getD a)) {ks : List Token}
    {a : α} (ha : G ks a) : Yields ks (Parser.iterate step a) G := by
  refine .budgeted fun budget => ?_
  -- what is held grows with each round of the loop
  induction budget generalizing ks a with
  | nil => exact .exhausted
  | cons _ budget ih =>
    refine (hstep ks a ha).bindGiven fun ks o h => ?_
    cases o with
    | none => exact .pure fun _ => h
    | some b => exact ih h

theorem separated {tooMany : SyntaxError} (hp : Yields [] p G) :
    Yields [] (Parser.separated tooMany p) (Each G) := by
  refine nextIte (.pure fun _ => .nil) (.budgeted fun budget => ?_)
  generalize 0 = count
  induction budget generalizing count with
  | nil => exact .exhausted
  | cons _ budget ih =>
    -- one item, and behind a comma the others
    have hitem : Yields [] (p >>= fun a => Parser.accept (·.isSymbol .comma) >>= fun c =>
        if c then Parser.separatedWithin tooMany p budget (count + 1) >>= fun rest =>
          Pure.pure (a :: rest) else Pure.pure [a]) (Each G) := by
      refine hp.bind fun ks a ha => acceptIte ?_ (.pure fun _ => .one ha)
      exact (ih (count + 1)).bind fun ks' rest hrest => .pure fun _ => .cons ha hrest
    unfold separatedWithin
    by_cases hmany : argumentLimit ≤ count
    · simp only [hmany, if_true]
      exact current.bindDrop fun _ => report.bindDrop fun _ => hitem
    · simp only [hmany, if_false]
      exact hitem

theorem itemsUntil {stop : Token → Bool} {p : Parser (Option α)}
    (hp : Yields [] p fun ks o => Each G ks o.toList) :
    Yields [] (Parser.itemsUntil stop p) (Each G) := by
  refine .budgeted fun budget => ?_
  induction budget with
  | nil => exact .exhausted
  | cons _ budget ih =>
    unfold itemsWithin
    refine current.bindDrop fun t => atEnd.bindDrop fun b => .ite (.pure fun _ => .nil) ?_
    exact hp.bind fun ks o ho => ih.bind fun ks' rest hrest => .pure fun _ => ho.append hrest

theorem recover (hp : Yields [] p G) :
    Yields [] (Parser.recover p) fun ks o => Each G ks o.toList := by
  intro s hs
  have hreply := hp s hs
  unfold Parser.recover
  revert hreply
  rcases p s with ⟨reports, ⟨a, rest⟩ | ⟨u, rest⟩ | _⟩
  · rintro ⟨kept, hkept, ha⟩
    exact ⟨kept, hkept, .one ha⟩
  · -- resuming skips tokens
    intro hrest
    have hrest : rest.ahead.Sublist s.ahead := hrest
    obtain ⟨skipped, hskipped, -⟩ := rest.exists_behind_synchronize
    have hahead : rest.ahead = skipped ++ rest.synchronize.ahead := by
      rw [← Stream.ahead_behind, ← hskipped]
    rw [hahead] at hrest
    exact ⟨[], (List.sublist_append_right skipped _).trans hrest, .nil⟩
  · exact id

end Yields

/-! ## Expressions -/

/-- An expression that is genuine and made of some tokens. -/
structure FitsExpr (ks : List Token) (e : Parsed) : Prop where
  tokens : ofExpr e ⊆ ks
  genuine : e.Genuine

/-- An expression that may be absent. -/
def FitsExpr? (ks : List Token) (o : Option Parsed) : Prop := ∀ e ∈ o, FitsExpr ks e

theorem FitsExpr.mono {ks ks' : List Token} {e : Parsed} (h : FitsExpr ks e) (hks : ks ⊆ ks') :
    FitsExpr ks' e :=
  ⟨List.Subset.trans h.tokens hks, h.genuine⟩

theorem Each.fitsExpr {ks : List Token} {es : List Parsed} (h : Each FitsExpr ks es) :
    ∀ e ∈ es, FitsExpr ks e := by
  intro e he
  obtain ⟨us, hus, hfits⟩ := h.exists_of_mem he
  exact hfits.mono hus

section Expressions

variable {nested : Parser Parsed}

theorem yields_superMethod {keyword : Token} (hk : keyword.isKeyword .superWord) :
    Yields [keyword] (superMethod keyword) FitsExpr := by
  refine .expectThen <| Yields.expect.bind ?_
  rintro _ method ⟨rfl, -⟩
  refine .pure fun hs => ⟨List.Subset.refl _, ?_⟩
  exact (hs.faithful keyword (by simp)).lexeme hk

theorem yields_grouped (h : Yields [] nested FitsExpr) : Yields [] (grouped nested) FitsExpr :=
  h.bind fun _ _ he => .expectThen <| .pure fun _ => ⟨he.tokens, he.genuine⟩

theorem yields_primary (h : Yields [] nested FitsExpr) : Yields [] (primary nested) FitsExpr := by
  refine Yields.acceptMap?.bindDrop fun o => ?_
  cases o with
  | some value => exact .pure fun _ => ⟨List.nil_subset _, trivial⟩
  | none =>
  refine .acceptThen (fun keyword hk => .pure fun hs => ?_) <|
    .acceptThen (fun keyword hk => yields_superMethod hk) <|
    .acceptThen (fun name hname => .pure fun hs => ?_) <|
    .acceptIte (yields_grouped h) <| Yields.current.bindDrop fun _ => .fail
  · exact ⟨List.Subset.refl _, (hs.faithful keyword (by simp)).lexeme hk⟩
  · exact ⟨List.Subset.refl _, hs.isName (List.mem_singleton.2 rfl) hname⟩

theorem yields_finishCall (h : Yields [] nested FitsExpr) {ks : List Token} {callee : Parsed}
    (hcallee : FitsExpr ks callee) : Yields ks (finishCall nested callee) FitsExpr := by
  refine h.separated.bind fun ks' arguments hargs => Yields.expect.bind ?_
  rintro _ paren ⟨rfl, -⟩
  have hall : arguments.flatMap ofExpr ⊆ ks' := by
    intro t ht
    obtain ⟨e, he, ht⟩ := List.mem_flatMap.1 ht
    exact (hargs.fitsExpr e he).tokens ht
  refine .pure fun _ => ⟨?_, hcallee.genuine,
    Expr.genuineAll_iff.2 fun e he => (hargs.fitsExpr e he).genuine⟩
  have htokens : ofExpr (.call callee paren arguments) =
      ofExpr callee ++ paren :: arguments.flatMap ofExpr := by
    simp [ofExpr, Expr.parts, tokens_partsAll]
  rw [htokens]
  have hcalled := hcallee.tokens
  grind

theorem yields_callStep (h : Yields [] nested FitsExpr) {ks : List Token} {e : Parsed}
    (he : FitsExpr ks e) : Yields ks (callStep nested e) fun ks o => FitsExpr ks (o.getD e) := by
  refine .acceptIte ?_ (.acceptIte ?_ (.pure fun _ => he))
  · exact (yields_finishCall h he).bindGiven fun _ _ hcall => .pure fun _ => hcall
  · refine Yields.expect.bind ?_
    rintro _ name ⟨rfl, -⟩
    refine .pure fun _ => ⟨?_, he.genuine⟩
    have htokens : ofExpr (.field e name) = ofExpr e ++ [name] := by simp [ofExpr, Expr.parts]
    have hobject := he.tokens
    simp only [Option.getD_some, htokens]
    grind

theorem yields_call (h : Yields [] nested FitsExpr) : Yields [] (call nested) FitsExpr :=
  (yields_primary h).bind fun _ _ he => .iterate (fun _ _ => yields_callStep h) he

theorem yields_unaryStep {ks : List Token} {ops : List (UnaryOp × Token)}
    (hops : ofOperators ops ⊆ ks) :
    Yields ks (unaryStep ops) fun ks o => ofOperators (o.getD ops) ⊆ ks := by
  refine Yields.acceptMap?.bind ?_
  rintro _ _ (⟨rfl, rfl⟩ | ⟨t, op, rfl, rfl, h⟩)
  · exact .pure fun _ => List.subset_append_of_subset_left _ hops
  · obtain ⟨_, -, rfl⟩ := Option.map_eq_some_iff.1 h
    refine .pure fun _ => ?_
    simp only [Option.map_some, Option.getD_some, ofOperators, List.map_cons] at hops ⊢
    grind

theorem fits_operators {ks : List Token} {ops : List (UnaryOp × Token)} {e : Parsed}
    (hops : ofOperators ops ⊆ ks) (he : FitsExpr ks e) :
    FitsExpr ks (ops.foldl (fun e op => .unary op.1 op.2 e) e) := by
  induction ops generalizing e with
  | nil => exact he
  | cons op ops ih =>
    obtain ⟨hop, hops⟩ := List.cons_subset.1 hops
    exact ih hops ⟨List.cons_subset.2 ⟨hop, he.tokens⟩, he.genuine⟩

theorem yields_unary (h : Yields [] nested FitsExpr) : Yields [] (unary nested) FitsExpr := by
  refine .bind (.iterate (fun _ _ => yields_unaryStep) (List.nil_subset _)) fun ks ops hops =>
    (yields_call h).bind fun ks' e he => .pure fun _ => ?_
  exact fits_operators (List.subset_append_of_subset_left _ hops)
    (he.mono (List.subset_append_right _ _))

/-- Two operands with a token between them. -/
theorem FitsExpr.operands {ks ks' : List Token} {left right e : Parsed} {t : Token}
    (hleft : FitsExpr ks left) (hright : FitsExpr ks' right)
    (htokens : ofExpr e = ofExpr left ++ t :: ofExpr right)
    (hgenuine : left.Genuine → right.Genuine → e.Genuine) : FitsExpr (ks ++ [t] ++ ks') e := by
  refine ⟨?_, hgenuine hleft.genuine hright.genuine⟩
  have hl := hleft.tokens
  have hr := hright.tokens
  rw [htokens]
  grind

theorem yields_binaryStep {level : Level} {operand : Parser Parsed}
    (h : Yields [] operand FitsExpr) {ks : List Token} {left : Parsed} (hleft : FitsExpr ks left) :
    Yields ks (binaryStep level operand left) fun ks o => FitsExpr ks (o.getD left) := by
  refine Yields.acceptMap?.bind ?_
  rintro _ _ (⟨rfl, rfl⟩ | ⟨t, op, rfl, rfl, hop⟩)
  · exact .pure fun _ => hleft.mono (List.subset_append_left _ _)
  · obtain ⟨_, -, rfl⟩ := Option.map_eq_some_iff.1 hop
    exact h.bind fun ks' right hright => .pure fun _ =>
      hleft.operands hright (by simp [ofExpr, Expr.parts]) fun hl hr => ⟨hl, hr⟩

theorem yields_chain {level : Level} {operand : Parser Parsed} (h : Yields [] operand FitsExpr) :
    Yields [] (chain level operand) FitsExpr :=
  h.bind fun _ _ he => .iterate (fun _ _ => yields_binaryStep h) he

theorem yields_binary (h : Yields [] nested FitsExpr) :
    Yields [] (binary nested .equality) FitsExpr :=
  yields_chain <| yields_chain <| yields_chain <| yields_chain <| yields_unary h

theorem yields_logicalStep {op : LogicalOp} {operand : Parser Parsed}
    (h : Yields [] operand FitsExpr) {ks : List Token} {left : Parsed} (hleft : FitsExpr ks left) :
    Yields ks (logicalStep op operand left) fun ks o => FitsExpr ks (o.getD left) :=
  .acceptThen
    (fun _ _ => h.bind fun ks' right hright => .pure fun _ =>
      hleft.operands hright (by simp [ofExpr, Expr.parts]) fun hl hr => ⟨hl, hr⟩)
    (.pure fun _ => hleft)

theorem yields_disjunction (h : Yields [] nested FitsExpr) :
    Yields [] (disjunction nested) FitsExpr := by
  have hand : Yields [] (conjunction nested) FitsExpr :=
    (yields_binary h).bind fun _ _ he =>
      .iterate (fun _ _ => yields_logicalStep (yields_binary h)) he
  exact hand.bind fun _ _ he => .iterate (fun _ _ => yields_logicalStep hand) he

theorem yields_ternary (h : Yields [] nested FitsExpr) : Yields [] (ternary nested) FitsExpr := by
  refine (yields_disjunction h).bind fun ks condition hc =>
    .acceptThen (fun question _ => .ite ?_ .fail) (.pure fun _ => hc)
  refine h.bind fun ks' whenTrue ht => .expectThen <| h.bind fun ks'' whenFalse hf =>
    .pure fun _ => ⟨?_, hc.genuine, ht.genuine, hf.genuine⟩
  have htokens : ofExpr (.ternary question condition whenTrue whenFalse) =
      question :: (ofExpr condition ++ (ofExpr whenTrue ++ ofExpr whenFalse)) := by
    simp [ofExpr, Expr.parts]
  have hcond := hc.tokens
  have htrue := ht.tokens
  have hfalse := hf.tokens
  rw [htokens]
  grind

theorem yields_assignTo {equals : Token} {ks ks' : List Token} {target value : Parsed}
    (ht : FitsExpr ks target) (hv : FitsExpr ks' value) :
    Yields (ks ++ [equals] ++ ks') (assignTo equals target value) FitsExpr := by
  have htarget := ht.tokens
  have hvalue := hv.tokens
  cases target with
  | «variable» name =>
    refine .pure fun _ => ⟨?_, ht.genuine, hv.genuine⟩
    simp only [ofExpr, Expr.parts, Part.tokens_append, Part.tokens_use] at htarget hvalue ⊢
    grind
  | field object name =>
    refine .pure fun _ => ⟨?_, ht.genuine, hv.genuine⟩
    simp only [ofExpr, Expr.parts, Part.tokens_append, Part.tokens_token, Part.tokens_nil]
      at htarget hvalue ⊢
    grind
  | _ =>
    -- of what is no target only the report is left
    exact Yields.report.bindDrop fun _ => .pure fun _ => ht.mono (by grind)

theorem yields_assignment (h : Yields [] nested FitsExpr) :
    Yields [] (assignment nested) FitsExpr :=
  (yields_ternary h).bind fun _ _ ht =>
    .acceptThen (fun _ _ => h.bind fun _ _ hv => yields_assignTo ht hv) (.pure fun _ => ht)

end Expressions

/-- An expression is genuine and made of the tokens that are read for it. -/
theorem yields_expression : Yields [] expression FitsExpr := by
  refine .budgeted fun budget => ?_
  induction budget with
  | nil => exact .exhausted
  | cons _ budget ih => exact yields_assignment ih

/-! ## Statements -/

/-- A statement that is genuine, in order, and made of some tokens. -/
structure FitsStmt (ks : List Token) (s : ParsedStmt) : Prop where
  tokens : ofStmt s ⊆ ks
  genuine : s.Genuine
  inOrder : s.InOrder

/-- A statement that declares nothing where it stands. -/
structure FitsBranch (ks : List Token) (s : ParsedStmt) : Prop extends FitsStmt ks s where
  declared : s.declared? = none

/-- A function that is genuine, in order, and made of some tokens. -/
structure FitsFunction (ks : List Token) (f : FunDecl Unit) : Prop where
  tokens : ofFunction f ⊆ ks
  genuine : Stmt.GenuineFunction f
  inOrder : Stmt.InOrderFunction f

/-- Statements that are genuine, in order one after another, and made of some tokens. -/
structure FitsBody (ks : List Token) (ss : List ParsedStmt) : Prop where
  tokens : tokens (Stmt.partsAll ss) ⊆ ks
  genuine : Stmt.GenuineAll ss
  inOrder : Stmt.InOrderAll ss

/-- A declaration, unless it is lost. -/
def FitsDeclaration (ks : List Token) (o : Option ParsedStmt) : Prop := Each FitsStmt ks o.toList

/-- Statements from tokens that follow one another are in order. -/
theorem Each.fitsBody {ks : List Token} {ss : List ParsedStmt} (h : Each FitsStmt ks ss)
    (hks : Scanned ks) : FitsBody ks ss := by
  induction h with
  | nil => exact ⟨List.nil_subset _, trivial, trivial⟩
  | @cons us vs s rest hs _ ih =>
    -- the tokens of the first statement start before those of the others
    have hrest := ih (hks.sublist (List.sublist_append_right us vs))
    refine ⟨?_, ⟨hs.genuine, hrest.genuine⟩, hs.inOrder, ?_, ?_, hrest.inOrder⟩
    · rw [Stmt.partsAll, Part.tokens_append]
      exact List.append_subset.2 ⟨List.subset_append_of_subset_left vs hs.tokens,
        List.subset_append_of_subset_right us hrest.tokens⟩
    · refine hks.precede.mono (fun t ht => hs.tokens ?_) hrest.tokens
      exact Stmt.mem_tokens_declared (Option.mem_toList.1 ht)
    · refine hks.precede.mono hs.tokens fun t ht => hrest.tokens ?_
      exact Stmt.mem_tokens_declaredTokens ht

theorem FitsExpr?.tokens {ks : List Token} {o : Option Parsed} (h : FitsExpr? ks o) :
    ofExpr? o ⊆ ks := by
  cases o with
  | none => exact List.nil_subset _
  | some e => exact (h e rfl).tokens

theorem FitsExpr?.genuine {ks : List Token} {o : Option Parsed} (h : FitsExpr? ks o) :
    Expr.Genuine? o := by
  cases o with
  | none => trivial
  | some e => exact (h e rfl).genuine

theorem yields_someExpression : Yields [] (some <$> expression) FitsExpr? :=
  yields_expression.map fun _ _ he _ ho => by
    cases ho
    exact he

theorem yields_expressionStatement : Yields [] expressionStatement FitsBranch :=
  yields_expression.bind fun _ _ he => .expectThen <| .pure fun _ =>
    ⟨⟨he.tokens, he.genuine, trivial⟩, rfl⟩

theorem yields_varDeclaration : Yields [] varDeclaration FitsStmt := by
  refine Yields.expect.bind ?_
  rintro _ name ⟨rfl, hname⟩
  refine .announced yields_someExpression (fun ks initializer h => ?_) (by simp [FitsExpr?])
  refine .expectThen <| .pure fun hs => ⟨?_, ⟨?_, h.genuine⟩, ?_⟩
  · exact List.cons_subset_cons name h.tokens
  · exact hs.isName (by simp) hname
  · exact hs.precede.mono (List.Subset.refl _) h.tokens

theorem yields_printStatement : Yields [] printStatement FitsBranch :=
  yields_expression.bind fun _ _ he => .expectThen <| .pure fun _ =>
    ⟨⟨he.tokens, he.genuine, trivial⟩, rfl⟩

theorem yields_returnStatement (keyword : Token) :
    Yields [keyword] (returnStatement keyword) FitsBranch :=
  .unlessNext yields_someExpression
    (fun _ _ h => .expectThen <| .pure fun _ =>
      ⟨⟨List.cons_subset_cons keyword h.tokens, h.genuine, trivial⟩, rfl⟩)
    (by simp [FitsExpr?])

section Statements

variable {stmt : Parser ParsedStmt} {decl : Parser (Option ParsedStmt)}

theorem yields_block (h : Yields [] decl FitsDeclaration) : Yields [] (block decl) FitsBody :=
  (Yields.itemsUntil h).bind fun _ _ hbody => .expectThen <| .pure fun hs => hbody.fitsBody hs

/-- Names one after another. -/
theorem Each.eq_of_single {test : Token → Bool} {ks ts : List Token}
    (h : Each (fun ks t => ks = [t] ∧ test t) ks ts) : ks = ts := by
  induction h with
  | nil => rfl
  | cons h _ ih => rw [h.1, ih, List.singleton_append]

theorem yields_function (h : Yields [] decl FitsDeclaration) (role : String) :
    Yields [] (function decl role) FitsFunction := by
  refine Yields.expect.bind ?_
  rintro _ name ⟨rfl, hname⟩
  refine .expectThen <| (Yields.separated .expect).bind fun ks params hparams =>
    .expectThen <| .expectThen <| (yields_block h).bind fun ks' body hbody => .pure fun hs => ?_
  -- the name, the parameters and the body are read in this order
  obtain rfl := hparams.eq_of_single
  refine ⟨?tokens, ⟨?name, fun p hp => ?parameter, hbody.genuine⟩, ?beforeParameters, ?beforeBody,
    hbody.inOrder⟩
  case tokens =>
    have htokens : ofFunction (.mk name ks body) = [name] ++ ks ++ tokens (Stmt.partsAll body) := by
      simp [ofFunction, FunDecl.parts]
    rw [htokens]
    exact List.append_subset.2 ⟨List.subset_append_left _ _,
      List.subset_append_of_subset_right _ hbody.tokens⟩
  case name => exact hs.isName (by simp) hname
  case parameter =>
    obtain ⟨us, -, rfl, htest⟩ := hparams.exists_of_mem hp
    exact hs.isName (by simp [hp]) htest
  case beforeParameters => exact (hs.sublist (List.sublist_append_left _ ks')).precede
  case beforeBody => exact hs.precede.mono (List.Subset.refl _) hbody.tokens

/-- A member of a class. -/
def FitsMember (ks : List Token) (m : Bool × FunDecl Unit) : Prop := FitsFunction ks m.2

theorem yields_member (h : Yields [] decl FitsDeclaration) :
    Yields [] (member decl) fun ks o => Each FitsMember ks o.toList :=
  .acceptIte ((yields_function h _).bind fun _ _ hf => .pure fun _ => .one hf)
    ((yields_function h _).bind fun _ _ hf => .pure fun _ => .one hf)

/-- Functions that are genuine, in order, and made of some tokens. -/
structure FitsFunctions (ks : List Token) (fs : List (FunDecl Unit)) : Prop where
  tokens : tokens (FunDecl.partsAll fs) ⊆ ks
  genuine : Stmt.GenuineFunctions fs
  inOrder : Stmt.InOrderFunctions fs

/-- Any of the members of a class. -/
theorem Each.fitsFunctions {ks : List Token} {members : List (Bool × FunDecl Unit)}
    (h : Each FitsMember ks members) {fs : List (FunDecl Unit)}
    (hfs : fs ⊆ members.map (·.2)) : FitsFunctions ks fs := by
  have hfit : ∀ f ∈ fs, ∃ us, us ⊆ ks ∧ FitsFunction us f := by
    intro f hf
    obtain ⟨m, hm, rfl⟩ := List.mem_map.1 (hfs hf)
    exact h.exists_of_mem hm
  refine ⟨fun t ht => ?_, Stmt.genuineFunctions_iff.2 fun f hf => ?_,
    Stmt.inOrderFunctions_iff.2 fun f hf => ?_⟩
  · rw [FunDecl.partsAll_eq, tokens_flatMap] at ht
    obtain ⟨f, hf, ht⟩ := List.mem_flatMap.1 ht
    obtain ⟨us, hus, hfits⟩ := hfit f hf
    exact hus (hfits.tokens ht)
  · obtain ⟨_, -, hfits⟩ := hfit f hf
    exact hfits.genuine
  · obtain ⟨_, -, hfits⟩ := hfit f hf
    exact hfits.inOrder

theorem yields_classDeclaration (h : Yields [] decl FitsDeclaration) :
    Yields [] (classDeclaration decl) FitsStmt := by
  have hsuper : Yields [] ((some ·.ref) <$> identifier .expectSuperclassName)
      fun ks (o : Option (Ref Unit)) => ks = o.toList.map (·.token) ∧
        ∀ r ∈ o, decide (r.token.kind = .identifier) := by
    refine Yields.expect.map ?_
    rintro _ t ⟨rfl, ht⟩
    exact ⟨rfl, by simpa [Token.ref] using ht⟩
  refine Yields.expect.bind ?_
  rintro _ name ⟨rfl, hname⟩
  refine .announced hsuper (fun ks superclass hsuper => ?_) ⟨rfl, by simp⟩
  refine .expectThen <| (Yields.itemsUntil (yields_member h)).bind fun ks' members hmembers =>
    .expectThen <| .pure fun hs => ?_
  -- the members are sorted into two lists, each in the order of the text with gaps
  have hpart : ∀ keep : Bool × FunDecl Unit → Bool,
      FitsFunctions ks' ((members.filter keep).map (·.2)) := fun keep =>
    hmembers.fitsFunctions (List.map_subset _ (List.filter_subset_self _))
  have hstatics := hpart (·.1)
  have hmethods := hpart (!·.1)
  have hsupers : tokens (superclass.toList.flatMap Ref.use) = ks := by
    rw [hsuper.1]
    cases superclass <;> rfl
  have hbefore : Precede [name] (ks ++ ks') := by
    rw [List.append_assoc] at hs
    exact hs.precede
  refine ⟨?tokens, ⟨?name, fun r hr => ?superclass, hstatics.genuine, hmethods.genuine⟩,
    ?beforeSuperclass, ?beforeStatics, ?beforeMethods, hstatics.inOrder, hmethods.inOrder⟩
  case tokens =>
    have hst := hstatics.tokens
    have hme := hmethods.tokens
    simp only [ofStmt, Stmt.parts, Part.tokens_append, Part.tokens_token, hsupers]
    grind
  case name => exact hs.isName (by simp) hname
  case superclass =>
    have hmem : r.token ∈ ks := by
      rw [hsuper.1]
      exact List.mem_map_of_mem (Option.mem_toList.2 hr)
    exact hs.isName (by simp [hmem]) (hsuper.2 r hr)
  case beforeSuperclass =>
    rw [hsupers]
    exact hbefore.mono (List.Subset.refl _) (List.subset_append_left _ _)
  case beforeStatics =>
    exact hbefore.mono (List.Subset.refl _) (List.subset_append_of_subset_right _ hstatics.tokens)
  case beforeMethods =>
    exact hbefore.mono (List.Subset.refl _) (List.subset_append_of_subset_right _ hmethods.tokens)

theorem yields_forInitializer :
    Yields [] forInitializer fun ks o => ∀ s ∈ o, FitsStmt ks s := by
  refine .acceptIte (.pure fun _ => by simp) (.acceptIte ?_ ?_)
  · exact yields_varDeclaration.bind fun _ _ hs => .pure fun _ => by simpa using hs
  · exact yields_expressionStatement.bind fun _ _ hs => .pure fun _ => by
      simpa using hs.toFitsStmt

theorem yields_forStatement (h : Yields [] stmt FitsBranch) :
    Yields [] (forStatement stmt) FitsBranch := by
  refine .expectThen <| yields_forInitializer.bind fun ks first hfirst =>
    .unlessNext yields_someExpression (fun kc condition hcondition => .expectThen <|
      .unlessNext yields_someExpression (fun ki increment hincrement => .expectThen <|
        h.bind fun kb body hbody => .pure fun hs => ?_) (by simp [FitsExpr?]))
      (by simp [FitsExpr?])
  -- the increment comes to stand behind the body, but only the first clause declares a name
  have htokens : ∀ first, ofStmt (.forLoop first condition increment body) ⊆
      tokens (Stmt.parts? first) ++ (kc ++ ki ++ kb) := by
    intro first
    have hperm := (Stmt.perm_parts_forLoop first condition increment body).filterMap Part.token?
    refine List.Subset.trans hperm.symm.subset ?_
    have hcond := hcondition.tokens
    have hincr := hincrement.tokens
    have hround := hbody.tokens
    show tokens _ ⊆ _
    simp only [Part.tokens_append, ofExpr?, ofStmt] at hcond hincr hround ⊢
    grind
  have hks : tokens (Stmt.parts? first) ⊆ ks := by
    cases first with
    | none => exact List.nil_subset _
    | some s => exact (hfirst s rfl).tokens
  refine ⟨⟨?_, ?_, ?_⟩, Stmt.declared?_forLoop first condition increment body⟩
  · refine List.Subset.trans (htokens first) ?_
    grind
  · exact Stmt.genuine_forLoop (fun s hs => (hfirst s hs).genuine) hcondition.genuine
      hincrement.genuine hbody.genuine hbody.declared
  · refine Stmt.inOrder_forLoop (fun s hs => (hfirst s hs).inOrder) hbody.inOrder hbody.declared
      fun s hs' => ?_
    have hdeclared : s.declared?.toList ⊆ ks := fun t ht =>
      (hfirst s hs').tokens (Stmt.mem_tokens_declared (Option.mem_toList.1 ht))
    have hbefore : Precede ks (kc ++ ki ++ kb) := by
      simp only [List.nil_append, List.append_assoc] at hs ⊢
      exact hs.precede
    exact hbefore.mono hdeclared (htokens none)

theorem yields_ifStatement (h : Yields [] stmt FitsBranch) :
    Yields [] (ifStatement stmt) FitsBranch := by
  refine .expectThen <| yields_expression.bind fun ks condition hc => .expectThen <|
    h.bind fun ks' thenBranch ht => .acceptIte
      (h.bind fun ks'' elseBranch he => .pure fun _ => ⟨⟨?_, ?_, ht.inOrder, he.inOrder⟩, rfl⟩)
      (.pure fun _ => ⟨⟨?_, ⟨hc.genuine, ht.genuine, ht.declared⟩, ht.inOrder⟩, rfl⟩)
  · have hcond := hc.tokens
    have hthen := ht.tokens
    have helse := he.tokens
    simp only [ofStmt, ofExpr, Stmt.parts, Part.tokens_append] at hcond hthen helse ⊢
    grind
  · exact ⟨hc.genuine, ht.genuine, he.genuine, ht.declared, he.declared⟩
  · have hcond := hc.tokens
    have hthen := ht.tokens
    simp only [ofStmt, ofExpr, Stmt.parts, Part.tokens_append] at hcond hthen ⊢
    grind

theorem yields_whileStatement (h : Yields [] stmt FitsBranch) :
    Yields [] (whileStatement stmt) FitsBranch := by
  refine .expectThen <| yields_expression.bind fun ks condition hc => .expectThen <|
    h.bind fun ks' body hb => .pure fun _ =>
      ⟨⟨?_, ⟨hc.genuine, hb.genuine, hb.declared⟩, hb.inOrder⟩, rfl⟩
  have hcond := hc.tokens
  have hbody := hb.tokens
  simp only [ofStmt, ofExpr, Stmt.parts, Part.tokens_append] at hcond hbody ⊢
  grind

theorem yields_statementWith (hs : Yields [] stmt FitsBranch)
    (hd : Yields [] decl FitsDeclaration) : Yields [] (statementWith stmt decl) FitsBranch := by
  refine .acceptIte (yields_forStatement hs) <| .acceptIte (yields_ifStatement hs) <|
    .acceptIte yields_printStatement <|
    .acceptThen (fun keyword _ => yields_returnStatement keyword) <|
    .acceptIte (yields_whileStatement hs) <| .acceptIte ?_ yields_expressionStatement
  exact (yields_block hd).bind fun _ _ hbody => .pure fun _ =>
    ⟨⟨hbody.tokens, hbody.genuine, hbody.inOrder⟩, rfl⟩

theorem yields_declarationWith (hs : Yields [] stmt FitsBranch)
    (hd : Yields [] decl FitsDeclaration) :
    Yields [] (declarationWith stmt decl) FitsDeclaration := by
  refine .recover <| .acceptIte (yields_classDeclaration hd) <| .acceptIte ?_ <|
    .acceptIte yields_varDeclaration <|
    (yields_statementWith hs hd).mono fun _ _ _ h => h.toFitsStmt
  exact (yields_function hd _).bind fun _ _ hf => .pure fun _ =>
    ⟨hf.tokens, hf.genuine, hf.inOrder⟩

end Statements

/-- A declaration is genuine, in order, and made of the tokens that are read for it. -/
theorem yields_declaration : Yields [] declaration FitsDeclaration := by
  refine .budgeted fun budget => ?_
  -- each of the two nonterminals goes on with both and a smaller budget
  have hboth : Yields [] (statementWithin budget) FitsBranch ∧
      Yields [] (declarationWithin budget) FitsDeclaration := by
    induction budget with
    | nil => exact ⟨.exhausted, .exhausted⟩
    | cons _ budget ih =>
      exact ⟨yields_statementWith ih.1 ih.2, yields_declarationWith ih.1 ih.2⟩
  exact hboth.2

end Parser

/-- The tokens of a text are as a scanner yields them. -/
theorem scanned_scan (source : String) : Scanned (scan source).tokens := by
  have hpieces : ∀ q ∈ Piece.ofText source.toList, q.text ≠ [] :=
    fun _ hq => Piece.text_ne_nil_of_mem hq
  refine ⟨List.pairwise_filterMap.2 ?_, fun t ht => faithful_scan ht⟩
  refine (PlacedPiece.pairwise_start hpieces {}).1.imp_of_mem fun hq hr h t ht u hu => ?_
  rwa [PlacedPiece.start_of_token? hq ht, PlacedPiece.start_of_token? hr hu]

/-- The trees of a text are genuine and in its order, whatever is reported of it. -/
theorem wellFormed_parse (source : String) :
    Stmt.GenuineAll (parse source).statements ∧ Stmt.InOrderAll (parse source).statements := by
  have hprogram : Parser.Yields [] Parser.program _ :=
    Parser.Yields.itemsUntil Parser.yields_declaration
  have hleaves := hprogram (scan source).stream (scanned_scan source)
  have hstatements : (parse source).statements =
      (Parser.program (scan source).stream).statements := rfl
  rw [hstatements, Reply.statements]
  revert hleaves
  cases (Parser.program (scan source).stream).outcome with
  | ok body rest =>
    rintro ⟨kept, hkept, hbody⟩
    have hscanned := (scanned_scan source).sublist
      ((List.sublist_append_left kept rest.ahead).trans hkept)
    have hfits := hbody.fitsBody hscanned
    exact ⟨hfits.genuine, hfits.inOrder⟩
  | unwound | exhausted => exact fun _ => ⟨trivial, trivial⟩

end Lox
