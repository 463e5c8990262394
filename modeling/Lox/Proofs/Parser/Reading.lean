import Lox.Parser.Basic
import Lox.Proofs.Grammar.Rules

/-!
# What parsers read

A parser reads a prefix of its stream. Two parsers read alike below a length if on every
shorter stream they give the same reply, which reads a prefix, spends no budget, reports
something when it unwinds, and otherwise yields a result that fits what was read. Reading alike
is kept by every way to put parsers together, with the length bound lowered by what was read
before: so a parser that is defined through itself on a budget reads alike on all budgets that
are long enough, and the budget disappears from its equations.

## Main definitions

* `Stream.behind`: a stream behind further tokens
* `Reply.Reads`: what a reply says of the tokens read
* `Parser.Alike`: two parsers that read alike below a length

## Main results

* `Alike.bind`: one parser after another
* `Alike.iterate`, `Alike.separated`, `Alike.itemsUntil`: the three kinds of loops
* `iterate_eq`: a loop without its budget
-/

namespace Lox

open Grammar

namespace Stream

/-- A stream behind further tokens. -/
def behind (s : Stream) (ts : List Token) : Stream := { s with ahead := ts ++ s.ahead }

@[simp] theorem behind_nil (s : Stream) : s.behind [] = s := rfl

@[simp] theorem behind_behind (s : Stream) (ts us : List Token) :
    (s.behind us).behind ts = s.behind (ts ++ us) := by
  simp [behind]

@[simp] theorem ahead_behind (s : Stream) (ts : List Token) :
    (s.behind ts).ahead = ts ++ s.ahead := rfl

theorem exists_behind_fromBoundary (last : Token) (ts : List Token) :
    ∃ us, ts = us ++ fromBoundary last ts := by
  induction ts generalizing last with
  | nil => exact ⟨[], rfl⟩
  | cons t rest ih =>
    unfold fromBoundary
    split
    · exact ⟨[], rfl⟩
    · obtain ⟨us, hus⟩ := ih t
      exact ⟨t :: us, congrArg (t :: ·) hus⟩

/-- Resuming skips a prefix, which is not empty unless the stream is. -/
theorem exists_behind_synchronize (s : Stream) :
    ∃ ts, s = s.synchronize.behind ts ∧ (s.ahead ≠ [] → ts ≠ []) := by
  obtain ⟨ahead, finish⟩ := s
  cases ahead with
  | nil => exact ⟨[], rfl, by simp⟩
  | cons t rest =>
    obtain ⟨us, hus⟩ := exists_behind_fromBoundary t rest
    refine ⟨t :: us, ?_, by simp⟩
    simp only [synchronize, behind, List.cons_append, ← hus]

end Stream

/-- What a reply to a stream says of the tokens read: a prefix, of which a result `a` takes at
least `k a` tokens and fits what was read if nothing was reported. -/
def Reply.Reads {α : Type} (k : α → Nat) (G : List Token → α → Prop) (s : Stream) :
    Reply α → Prop
  | ⟨reports, .ok a rest⟩ =>
    ∃ ts, s = rest.behind ts ∧ k a ≤ ts.length ∧ (reports = [] → G ts a)
  | ⟨reports, .unwound _ rest⟩ => (∃ ts, s = rest.behind ts) ∧ reports ≠ []
  | ⟨_, .exhausted⟩ => False

namespace Parser

variable {α β : Type}

/-- Two parsers give the same reply to a stream, with a result that takes at least `k` tokens
and fits `G` what was read. -/
def AlikeOn (k : α → Nat) (G : List Token → α → Prop) (p q : Parser α) (s : Stream) : Prop :=
  p s = q s ∧ (p s).Reads k G s

/-- Two parsers read alike below the length `n`. -/
def Alike (n : Nat) (k : α → Nat) (G : List Token → α → Prop) (p q : Parser α) : Prop :=
  ∀ s : Stream, s.ahead.length < n → AlikeOn k G p q s

section Combinators

variable {n m : Nat} {p q : Parser α} {k : α → Nat} {G : List Token → α → Prop}
  {f g : α → Parser β} {l : β → Nat} {H : List Token → β → Prop}

theorem AlikeOn.mono {G' : List Token → α → Prop} {s : Stream} (h : AlikeOn k G p q s)
    (hG : ∀ ts a, G ts a → G' ts a) : AlikeOn k G' p q s := by
  obtain ⟨heq, hr⟩ := h
  refine ⟨heq, ?_⟩
  revert hr
  rcases p s with ⟨reports, ⟨a, rest⟩ | ⟨u, rest⟩ | _⟩
  · rintro ⟨ts, hts, hlen, hfits⟩
    exact ⟨ts, hts, hlen, fun h => hG _ _ (hfits h)⟩
  · exact id
  · exact id

theorem Alike.mono {k' : α → Nat} {G' : List Token → α → Prop} (h : Alike n k G p q)
    (hn : m ≤ n) (hk : ∀ a, k' a ≤ k a) (hG : ∀ ts a, G ts a → G' ts a) :
    Alike m k' G' p q := by
  intro s hs
  obtain ⟨heq, hr⟩ := (h s (by omega)).mono hG
  refine ⟨heq, ?_⟩
  revert hr
  rcases p s with ⟨reports, ⟨a, rest⟩ | ⟨u, rest⟩ | _⟩
  · rintro ⟨ts, hts, hlen, hfits⟩
    exact ⟨ts, hts, Nat.le_trans (hk a) hlen, hfits⟩
  · exact id
  · exact id

theorem Alike.pure {a : α} (hk : k a = 0) (hG : G [] a) :
    Alike n k G (Pure.pure a) (Pure.pure a) :=
  fun s _ => ⟨rfl, [], rfl, by simp [hk], fun _ => hG⟩

theorem Alike.pureBind {a : α} (h : Alike n l H (f a) (g a)) :
    Alike n l H (Pure.pure a >>= f) (Pure.pure a >>= g) :=
  fun s hs => h s hs

/-- One parser after another: the second is asked to complete what the first has read. -/
theorem AlikeOn.bind {s : Stream} (hp : AlikeOn k G p q s)
    (hf : ∀ a ts rest, s = rest.behind ts → k a ≤ ts.length →
      AlikeOn (fun b => l b - k a) (fun us b => ∀ ts, G ts a → H (ts ++ us) b) (f a) (g a) rest) :
    AlikeOn l H (p >>= f) (q >>= g) s := by
  obtain ⟨heq, hr⟩ := hp
  unfold AlikeOn
  rw [bind_apply, bind_apply, ← heq]
  revert hr
  rcases p s with ⟨reports, ⟨a, rest⟩ | ⟨u, rest⟩ | _⟩
  · rintro ⟨ts, rfl, hlen, hfits⟩
    obtain ⟨heq', hr'⟩ := hf a ts rest rfl hlen
    dsimp only
    rw [← heq']
    refine ⟨rfl, ?_⟩
    revert hr'
    rcases f a rest with ⟨reports', ⟨b, rest'⟩ | ⟨u, rest'⟩ | _⟩
    · rintro ⟨us, rfl, hlen', hfits'⟩
      dsimp only at hlen'
      refine ⟨ts ++ us, by simp, by simp only [List.length_append]; omega, ?_⟩
      intro h
      obtain ⟨h₁, h₂⟩ := List.append_eq_nil_iff.1 h
      exact hfits' h₂ _ (hfits h₁)
    · rintro ⟨⟨us, rfl⟩, hne⟩
      exact ⟨⟨ts ++ us, by simp⟩, by simp [hne]⟩
    · exact id
  · exact fun hr => ⟨rfl, hr⟩
  · exact fun hr => hr.elim

theorem Alike.bind (hp : Alike n k G p q)
    (hf : ∀ a, Alike (n - k a) (fun b => l b - k a) (fun us b => ∀ ts, G ts a → H (ts ++ us) b)
      (f a) (g a)) :
    Alike n l H (p >>= f) (q >>= g) := by
  intro s hs
  refine (hp s hs).bind fun a ts rest hts hlen => hf a rest ?_
  subst hts
  simp only [Stream.ahead_behind, List.length_append] at hs
  omega

theorem Alike.map {f : α → β} (hp : Alike n k G p q) (hk : ∀ a, l (f a) ≤ k a)
    (hG : ∀ ts a, G ts a → H ts (f a)) : Alike n l H (f <$> p) (f <$> q) :=
  hp.bind fun a => .pure (by have := hk a; omega) fun ts h => by simpa using hG ts a h

theorem Alike.ite {c : Bool} {p' q' : Parser α} (ht : c = true → Alike n k G p q)
    (hf : c = false → Alike n k G p' q') :
    Alike n k G (if c then p else p') (if c then q else q') := by
  cases c with
  | true => exact ht rfl
  | false => exact hf rfl

/-- A budget of a step for each token left and one for the end is long enough. -/
theorem Alike.budgeted {p q : Budget → Parser α}
    (h : ∀ m b c, m ≤ n → m ≤ b.length → m ≤ c.length → Alike m k G (p b) (q c)) :
    Alike n k G (budgeted p) (budgeted q) :=
  fun s hs => h (s.ahead.length + 1) _ _ hs (by simp) (by simp) s (by simp)

end Combinators

/-! ## Reading one token -/

theorem bind_of_ok {p : Parser α} {s rest : Stream} {a : α} (h : p s = ⟨[], .ok a rest⟩)
    (f : α → Parser β) : (p >>= f) s = f a rest := by
  rw [bind_apply, h]
  rfl

/-- One parser after another has a result only if both have. -/
theorem bind_eq_ok {p : Parser α} {f : α → Parser β} {s rest : Stream} {b : β}
    {reports : List Report} (h : (p >>= f) s = ⟨reports, .ok b rest⟩) :
    ∃ first a mid second, p s = ⟨first, .ok a mid⟩ ∧ f a mid = ⟨second, .ok b rest⟩ := by
  rw [bind_apply] at h
  revert h
  rcases p s with ⟨first, ⟨a, mid⟩ | ⟨u, mid⟩ | _⟩ <;> intro h
  · injection h with _ h
    exact ⟨first, a, mid, (f a mid).reports, rfl, by rw [← h]⟩
  · cases h
  · cases h

theorem acceptMap?_of_some {f : Token → Option α} {t : Token} {a : α} (h : f t = some a)
    (s : Stream) : acceptMap? f (s.behind [t]) = ⟨[], .ok (some a) s⟩ := by
  simp [acceptMap?, Stream.behind, h]

theorem acceptMap?_of_none {f : Token → Option α} {s : Stream}
    (h : ∀ t ∈ s.ahead.head?, f t = none) : acceptMap? f s = ⟨[], .ok none s⟩ := by
  obtain ⟨ahead, finish⟩ := s
  cases ahead with
  | nil => rfl
  | cons t rest => simp [acceptMap?, h t (by simp)]

section Tokens

variable {n : Nat} {l : β → Nat} {H : List Token → β → Prop} {f : Token → Option α}
  {test : Token → Bool}

/-- A parser after a token that was read. -/
theorem AlikeOn.behind {p q : Parser β} {t : Token} {s : Stream}
    (h : AlikeOn (fun b => l b - 1) (fun us b => H (t :: us) b) p q s)
    {p' q' : Parser β} (hp : p' (s.behind [t]) = p s) (hq : q' (s.behind [t]) = q s) :
    AlikeOn l H p' q' (s.behind [t]) := by
  obtain ⟨heq, hr⟩ := h
  unfold AlikeOn
  rw [hp, hq, ← heq]
  refine ⟨rfl, ?_⟩
  revert hr
  rcases p s with ⟨reports, ⟨b, rest⟩ | ⟨u, rest⟩ | _⟩
  · rintro ⟨us, rfl, hlen, hfits⟩
    dsimp only at hlen
    exact ⟨t :: us, by simp, by simp only [List.length_cons]; omega, hfits⟩
  · rintro ⟨⟨us, rfl⟩, hne⟩
    exact ⟨⟨t :: us, by simp⟩, hne⟩
  · exact id

/-- A token is taken, or not. -/
theorem Alike.acceptMap? {g h : Option α → Parser β}
    (hs : ∀ t a, f t = some a →
      Alike (n - 1) (fun b => l b - 1) (fun us b => H (t :: us) b) (g (some a)) (h (some a)))
    (hn : Alike n l H (g none) (h none)) :
    Alike n l H (acceptMap? f >>= g) (acceptMap? f >>= h) := by
  intro s hlen
  by_cases hhead : ∀ t ∈ s.ahead.head?, f t = none
  · unfold AlikeOn
    rw [bind_of_ok (acceptMap?_of_none hhead), bind_of_ok (acceptMap?_of_none hhead)]
    exact hn s hlen
  · obtain ⟨ahead, finish⟩ := s
    obtain ⟨t, rest, rfl⟩ : ∃ t rest, ahead = t :: rest := by
      cases ahead with
      | nil => simp at hhead
      | cons t rest => exact ⟨t, rest, rfl⟩
    obtain ⟨a, ha⟩ : ∃ a, f t = some a := by
      simpa [Option.ne_none_iff_exists'] using hhead
    simp only [List.length_cons] at hlen
    exact (hs t a ha ⟨rest, finish⟩ (show rest.length < n - 1 by omega)).behind
      (bind_of_ok (acceptMap?_of_some ha ⟨rest, finish⟩) g)
      (bind_of_ok (acceptMap?_of_some ha ⟨rest, finish⟩) h)

theorem Alike.accept? {g h : Option Token → Parser β}
    (hs : ∀ t, test t →
      Alike (n - 1) (fun b => l b - 1) (fun us b => H (t :: us) b) (g (some t)) (h (some t)))
    (hn : Alike n l H (g none) (h none)) :
    Alike n l H (accept? test >>= g) (accept? test >>= h) := by
  refine Alike.acceptMap? ?_ hn
  intro t a ht
  split at ht
  · next hpass =>
    cases ht
    exact hs t hpass
  · cases ht

theorem accept_bind (test : Token → Bool) (g : Bool → Parser β) :
    accept test >>= g = accept? test >>= fun o => g o.isSome := by
  funext s
  simp only [accept, bind_apply]
  rcases accept? test s with ⟨reports, ⟨o, rest⟩ | ⟨u, rest⟩ | _⟩ <;> simp

theorem Alike.accept {g h : Bool → Parser β}
    (hs : ∀ t, test t →
      Alike (n - 1) (fun b => l b - 1) (fun us b => H (t :: us) b) (g true) (h true))
    (hn : Alike n l H (g false) (h false)) :
    Alike n l H (accept test >>= g) (accept test >>= h) := by
  rw [accept_bind, accept_bind]
  exact .accept? hs hn

theorem current_bind (g : Token → Parser β) (s : Stream) :
    (current >>= g) s = g s.current s := rfl

theorem atEnd_bind (g : Bool → Parser β) (s : Stream) :
    (atEnd >>= g) s = g s.ahead.isEmpty s := rfl

theorem Alike.fail {t : Token} {e : SyntaxError} : Alike n l H (fail t e) (fail t e) :=
  fun _ _ => ⟨rfl, ⟨[], rfl⟩, by simp⟩

theorem Alike.current {g h : Token → Parser β} (hf : ∀ t, Alike n l H (g t) (h t)) :
    Alike n l H (current >>= g) (current >>= h) :=
  fun s hlen => hf s.current s hlen

theorem expect_bind (test : Token → Bool) (e : SyntaxError) (g : Token → Parser β) :
    expect test e >>= g = accept? test >>= fun o =>
      match o with
      | some t => g t
      | none => current >>= fun t => fail t e := by
  funext s
  rw [expect, bind_apply, bind_apply, bind_apply]
  rcases accept? test s with ⟨reports, ⟨_ | t, rest⟩ | ⟨u, rest⟩ | _⟩ <;>
    simp [current_bind, fail]

theorem Alike.expect {e : SyntaxError} {g h : Token → Parser β}
    (hs : ∀ t, test t →
      Alike (n - 1) (fun b => l b - 1) (fun us b => H (t :: us) b) (g t) (h t)) :
    Alike n l H (expect test e >>= g) (expect test e >>= h) := by
  rw [expect_bind, expect_bind]
  exact .accept? hs (.current fun _ => .fail)

theorem Alike.nextIs {s : Symbol} {g h : Bool → Parser β} (hf : ∀ c, Alike n l H (g c) (h c)) :
    Alike n l H (nextIs s >>= g) (nextIs s >>= h) :=
  fun st hlen => hf (st.current.isSymbol s) st hlen

/-- Whatever is read after a report fits. -/
theorem Alike.report {t : Token} {e : SyntaxError} {g h : Unit → Parser β}
    (hf : Alike n l (fun _ _ => True) (g ()) (h ())) :
    Alike n l H (report t e >>= g) (report t e >>= h) := by
  intro s hlen
  obtain ⟨heq, hr⟩ := hf s hlen
  simp only [AlikeOn, bind_apply, Parser.report, heq, true_and]
  rw [heq] at hr
  revert hr
  rcases h () s with ⟨reports, ⟨b, rest⟩ | ⟨u, rest⟩ | _⟩
  · rintro ⟨us, hus, hlen', -⟩
    exact ⟨us, hus, hlen', by simp⟩
  · rintro ⟨hus, -⟩
    exact ⟨hus, by simp⟩
  · exact id

end Tokens

/-! ## Loops -/

section Loops

variable {n : Nat}

/-- A step of a loop that goes on has taken a token. -/
def taken : Option α → Nat
  | none => 0
  | some _ => 1

theorem Alike.below_zero {k : α → Nat} {G : List Token → α → Prop} {p q : Parser α} :
    Alike 0 k G p q := fun _ h => absurd h (Nat.not_lt_zero _)

theorem exists_cons_of_lt {b : Budget} (h : n + 1 ≤ b.length) :
    ∃ t c, b = t :: c ∧ n ≤ c.length := by
  cases b with
  | nil => simp at h
  | cons t c => exact ⟨t, c, rfl, by simpa using h⟩

section Iterate

/-- A step that goes on keeps an invariant of what was read and what was made of it; the step
that ends the loop reads nothing. -/
def Keeps (I : List Token → α → Prop) (a : α) (us : List Token) : Option α → Prop
  | some b => ∀ ts, I ts a → I (ts ++ us) b
  | none => us = []

variable {step step' : α → Parser (Option α)} {I : List Token → α → Prop}

theorem Alike.iterateWithin (h : ∀ a, Alike n taken (Keeps I a) (step a) (step' a))
    {b c : Budget} (hb : n ≤ b.length) (hc : n ≤ c.length) (a : α) :
    Alike n (fun _ => 0) (fun us x => ∀ ts, I ts a → I (ts ++ us) x)
      (iterateWithin step b a) (iterateWithin step' c a) := by
  induction n generalizing b c a with
  | zero => exact .below_zero
  | succ n ih =>
    obtain ⟨_, b, rfl, hb'⟩ := exists_cons_of_lt hb
    obtain ⟨_, c, rfl, hc'⟩ := exists_cons_of_lt hc
    refine (h a).bind fun o => ?_
    cases o with
    | none =>
      refine .pure rfl fun ts hts us hus => ?_
      simpa [show ts = [] from hts] using hus
    | some x =>
      have hstep : ∀ a, Alike n taken (Keeps I a) (step a) (step' a) := fun a =>
        (h a).mono (by omega) (fun _ => Nat.le_refl _) fun _ _ => id
      refine (ih hstep hb' hc' x).mono (by simp [taken]) (fun _ => by simp [taken]) ?_
      intro us y hy ts hts vs hvs
      simpa using hy (vs ++ ts) (hts vs hvs)

/-- A loop keeps what every step keeps. -/
theorem Alike.iterate (h : ∀ a, Alike n taken (Keeps I a) (step a) (step' a)) (a : α) :
    Alike n (fun _ => 0) (fun us x => ∀ ts, I ts a → I (ts ++ us) x)
      (iterate step a) (iterate step' a) :=
  .budgeted fun _ _ _ hm hb hc =>
    .iterateWithin (fun a => (h a).mono hm (fun _ => Nat.le_refl _) fun _ _ => id) hb hc a

/-- A loop without its budget. -/
theorem iterate_eq (h : ∀ n a, Alike n taken (Keeps I a) (step a) (step a)) (a : α) :
    Parser.iterate step a = step a >>= fun o =>
      match o with
      | some b => Parser.iterate step b
      | none => pure a := by
  funext s
  have hs := (h (s.ahead.length + 1) a s (by simp)).2
  simp only [Parser.iterate, Parser.budgeted, Parser.iterateWithin, bind_apply]
  revert hs
  rcases step a s with ⟨reports, ⟨_ | b, rest⟩ | ⟨u, rest⟩ | _⟩ <;> intro hs
  · rfl
  · obtain ⟨ts, rfl, hlen, -⟩ := hs
    have hread := (Alike.iterateWithin (h (rest.ahead.length + 1)) (b := ts ++ rest.ahead)
      (c := rest.finish :: rest.ahead)
      (by simp only [List.length_append]; have : 1 ≤ ts.length := hlen; omega) (by simp) b rest
      (by simp)).1
    simp only [Stream.ahead_behind, hread]
    rfl
  · rfl
  · rfl

end Iterate

/-! ### Items between commas -/

section Separated

variable {item item' : Parser α} {tooMany : SyntaxError} {form : Form}

theorem Alike.separatedWithin (h : Alike n (fun _ => 1) (fun us _ => Derives form us) item item')
    {b c : Budget} (hb : n ≤ b.length) (hc : n ≤ c.length) (count : Nat) :
    Alike n (fun _ => 1)
      (fun us _ => count < argumentLimit ∧
        Derives (form ++ .atMost (argumentLimit - (count + 1)) (.sym .comma ++ form)) us)
      (separatedWithin tooMany item b count) (separatedWithin tooMany item' c count) := by
  induction n generalizing b c count with
  | zero => exact .below_zero
  | succ n ih =>
    obtain ⟨_, b, rfl, hb'⟩ := exists_cons_of_lt hb
    obtain ⟨_, c, rfl, hc'⟩ := exists_cons_of_lt hc
    have hitem := h.mono (Nat.le_of_lt (Nat.lt_succ_self n)) (fun _ => Nat.le_refl _) fun _ _ => id
    -- what follows the check of the limit, which is the same on either side of it
    have hrest : ∀ G : List Token → Prop, (∀ us, Derives form us → G us) →
        (∀ t us vs, t.isSymbol .comma → Derives form us → count + 1 < argumentLimit →
          Derives (form ++ .atMost (argumentLimit - (count + 2)) (.sym .comma ++ form)) vs →
          G (us ++ t :: vs)) →
        Alike (n + 1) (fun _ => 1) (fun us _ => G us)
          (do
            let a ← item
            if ← Parser.accept (·.isSymbol .comma) then
              return a :: (← Parser.separatedWithin tooMany item b (count + 1))
            else return [a])
          (do
            let a ← item'
            if ← Parser.accept (·.isSymbol .comma) then
              return a :: (← Parser.separatedWithin tooMany item' c (count + 1))
            else return [a]) := by
      intro G hone hmore
      refine h.bind fun a => .accept (fun t ht => ?_) ?_
      · refine ((ih hitem hb' hc' (count + 1)).mono (Nat.sub_le n 1) (fun _ => Nat.le_refl _)
          fun _ _ => id).bind fun as => .pure rfl ?_
        rintro vs ⟨hlt, hvs⟩ us hus
        simpa using hmore t us vs ht hus hlt hvs
      · exact .pure rfl fun us hus => by simpa using hone us hus
    simp only [Parser.separatedWithin]
    by_cases hlimit : argumentLimit ≤ count
    · simp only [if_pos hlimit]
      exact .current fun t => .report (hrest _ (fun _ _ => trivial) fun _ _ _ _ _ _ _ => trivial)
    · simp only [if_neg hlimit]
      refine hrest _ (fun us hus => ⟨by omega, ?_⟩) ?_
      · rw [← List.append_nil us]
        exact .seq hus .noneOf
      · intro t us vs ht hus hlt hvs
        refine ⟨by omega, .seq hus ?_⟩
        rw [show argumentLimit - (count + 1) = argumentLimit - (count + 2) + 1 by omega]
        cases hvs with
        | seq hfirst hmore => exact Derives.moreOf (.seq (.token ht) hfirst) hmore

theorem Alike.separated (h : Alike n (fun _ => 1) (fun us _ => Derives form us) item item') :
    Alike n (fun _ => 0) (fun us _ => Derives (.opt (.list form)) us)
      (separated tooMany item) (separated tooMany item') := by
  refine .nextIs fun c => .ite (fun _ => .pure rfl .absent) fun _ => ?_
  refine .budgeted fun m b c hm hb hc => ?_
  refine (Alike.separatedWithin (h.mono hm (fun _ => Nat.le_refl _) fun _ _ => id) hb hc 0).mono
    (Nat.le_refl m) (fun _ => Nat.zero_le _) fun us _ hus => .present hus.2

end Separated

/-! ### Items up to a token -/

section ItemsUntil

variable {item item' : Parser (Option α)} {stop : Token → Bool} {form : Form}

theorem Alike.itemsWithin
    (h : ∀ s : Stream, s.ahead.length < n → s.ahead ≠ [] →
      AlikeOn (fun _ => 1) (fun us _ => Derives form us) item item' s)
    {b c : Budget} (hb : n ≤ b.length) (hc : n ≤ c.length) :
    Alike n (fun _ => 0) (fun us _ => Derives (.star form) us)
      (itemsWithin stop item b) (itemsWithin stop item' c) := by
  induction n generalizing b c with
  | zero => exact .below_zero
  | succ n ih =>
    obtain ⟨_, b, rfl, hb'⟩ := exists_cons_of_lt hb
    obtain ⟨_, c, rfl, hc'⟩ := exists_cons_of_lt hc
    intro s hs
    simp only [Parser.itemsWithin, AlikeOn, current_bind, atEnd_bind]
    by_cases hstop : (stop s.current || s.ahead.isEmpty) = true
    · simp only [if_pos hstop]
      exact ⟨trivial, [], rfl, Nat.zero_le _, fun _ => .none⟩
    · simp only [if_neg hstop]
      have hne : s.ahead ≠ [] := by simp_all
      refine (h s hs hne).bind fun a ts rest hts hlen => ?_
      subst hts
      simp only [Stream.ahead_behind, List.length_append] at hs
      refine Alike.bind (ih (fun s hs => h s (by omega)) hb' hc') (fun as => .pure rfl ?_) rest
        (by omega)
      intro us hus ts hts
      simpa using Derives.more hts hus

theorem Alike.itemsUntil
    (h : ∀ s : Stream, s.ahead.length < n → s.ahead ≠ [] →
      AlikeOn (fun _ => 1) (fun us _ => Derives form us) item item' s) :
    Alike n (fun _ => 0) (fun us _ => Derives (.star form) us)
      (itemsUntil stop item) (itemsUntil stop item') :=
  .budgeted fun _ _ _ hm hb hc => .itemsWithin (fun s hs => h s (by omega)) hb hc

/-- A loop over items ends at a token that stops it or at the end. -/
theorem rest_itemsWithin {b : Budget} {s rest : Stream} {reports : List Report} {as : List α}
    (h : Parser.itemsWithin stop item b s = ⟨reports, .ok as rest⟩) :
    stop rest.current || rest.ahead.isEmpty := by
  induction b generalizing s reports as with
  | nil => cases h
  | cons t b ih =>
    simp only [Parser.itemsWithin, current_bind, atEnd_bind] at h
    by_cases hstop : (stop s.current || s.ahead.isEmpty) = true
    · simp only [if_pos hstop] at h
      cases h
      exact hstop
    · simp only [if_neg hstop] at h
      obtain ⟨_, a, mid, _, -, h⟩ := bind_eq_ok h
      obtain ⟨_, more, last, _, hmore, h⟩ := bind_eq_ok h
      cases h
      exact ih hmore

end ItemsUntil

end Loops

end Parser

end Lox
