import Lox.Proofs.Grammar.Sentence
import Lox.Proofs.Syntax.Twin

/-!
# Twin sentences

What tokens write depends on their kinds alone. If two lists of tokens have the same kinds one by
one, then whatever the first writes has a twin that the second writes, and tokens in the same
place of the two trees correspond.

## Main definitions

* `Likeness.tokens`: trees whose tokens correspond
* `Clause.Twin`: what is read from corresponding tokens

## Main results

* `Phrase.twin`: corresponding tokens write twin expressions
* `Sentence.twin`: corresponding tokens write twin statements
-/

theorem List.Forall₂.of_append {α β : Type} {R : α → β → Prop} {l m : List α} {u : List β}
    (h : List.Forall₂ R (l ++ m) u) :
    ∃ v w, List.Forall₂ R l v ∧ List.Forall₂ R m w ∧ u = v ++ w := by
  induction l generalizing u with
  | nil => exact ⟨[], u, .nil, h, rfl⟩
  | cons a l ih =>
    obtain _ | ⟨ha, h⟩ := h
    obtain ⟨v, w, hv, hw, rfl⟩ := ih h
    exact ⟨_ :: v, w, .cons ha hv, hw, rfl⟩

/-- A counterpart of a list is cut where a token of the list stands. -/
theorem List.Forall₂.of_append_cons {α β : Type} {R : α → β → Prop} {l m : List α} {a : α}
    {u : List β} (h : List.Forall₂ R (l ++ a :: m) u) :
    ∃ v b w, List.Forall₂ R l v ∧ R a b ∧ List.Forall₂ R m w ∧ u = v ++ b :: w := by
  obtain ⟨v, rest, hv, hrest, rfl⟩ := h.of_append
  obtain _ | ⟨hab, hw⟩ := hrest
  exact ⟨v, _, _, hv, hab, hw, rfl⟩

theorem List.Forall₂.of_append_singleton {α β : Type} {R : α → β → Prop} {l : List α} {a : α}
    {u : List β} (h : List.Forall₂ R (l ++ [a]) u) :
    ∃ v b, List.Forall₂ R l v ∧ R a b ∧ u = v ++ [b] := by
  obtain ⟨v, b, _, hv, hab, hnil, rfl⟩ := h.of_append_cons
  cases hnil
  exact ⟨v, b, hv, hab, rfl⟩

theorem List.Forall₂.exists_of_mem {α β : Type} {R : α → β → Prop} {l : List α} {u : List β}
    (h : List.Forall₂ R l u) {b : β} (hb : b ∈ u) : ∃ a ∈ l, R a b := by
  induction h with
  | nil => cases hb
  | @cons a _ l _ hab _ ih =>
    rcases List.mem_cons.1 hb with rfl | hb
    · exact ⟨a, by simp, hab⟩
    · obtain ⟨c, hc, hcb⟩ := ih hb
      exact ⟨c, by simp [hc], hcb⟩

theorem List.Forall₂.filter {α β : Type} {R : α → β → Prop} {p : α → Bool} {q : β → Bool}
    {l : List α} {u : List β} (h : List.Forall₂ R l u) (hpq : ∀ a b, R a b → p a = q b) :
    List.Forall₂ R (l.filter p) (u.filter q) := by
  induction h with
  | nil => exact .nil
  | @cons a b _ _ hab _ ih =>
    simp only [List.filter_cons, hpq a b hab]
    split
    · exact .cons hab ih
    · exact ih

namespace Lox

/-- Trees whose tokens correspond, whatever they name. -/
def Likeness.tokens (R : Token → Token → Prop) : Likeness Unit Unit := ⟨R, R, fun _ _ => True⟩

section Lists

variable {α β : Type} {R : Token → Token → Prop}

/-- Parts of a list of tokens correspond to parts of a corresponding one. -/
theorem exists_parts {parts : List (List Token)} {us : List Token}
    (h : List.Forall₂ R parts.flatten us) :
    ∃ parts', us = List.flatten parts' ∧ List.Forall₂ (List.Forall₂ R) parts parts' := by
  induction parts generalizing us with
  | nil =>
    cases h
    exact ⟨[], rfl, .nil⟩
  | cons ts parts ih =>
    obtain ⟨v, w, hv, hw, rfl⟩ := List.Forall₂.of_append h
    obtain ⟨parts', rfl, hparts⟩ := ih hw
    exact ⟨v :: parts', rfl, .cons hv hparts⟩

/-- Parts with what they write, if each has a counterpart that writes a twin. -/
theorem exists_twins {P : List Token → β → Prop} {S : α → β → Prop}
    {xs : List (List Token × α)} {parts : List (List Token)}
    (h : ∀ x ∈ xs, ∀ us, List.Forall₂ R x.1 us → ∃ b, P us b ∧ S x.2 b)
    (hparts : List.Forall₂ (List.Forall₂ R) (xs.map (·.1)) parts) :
    ∃ ys : List (List Token × β), ys.map (·.1) = parts ∧ (∀ y ∈ ys, P y.1 y.2) ∧
      List.Forall₂ S (xs.map (·.2)) (ys.map (·.2)) := by
  induction xs generalizing parts with
  | nil =>
    cases hparts
    exact ⟨[], rfl, by simp, .nil⟩
  | cons x xs ih =>
    obtain _ | ⟨hus, hparts⟩ := hparts
    obtain ⟨b, hb, hxb⟩ := h x (by simp) _ hus
    obtain ⟨ys, rfl, hys, hxys⟩ := ih (fun y hy => h y (by simp [hy])) hparts
    exact ⟨(_, b) :: ys, rfl, by simpa using ⟨hb, fun a b hab => hys _ hab⟩, .cons hxb hxys⟩

end Lists

section Twins

variable {R : Token → Token → Prop} (hR : ∀ {t t'}, R t t' → t'.kind = t.kind)
  {t t' : Token} {ts ts' : List Token}

include hR

theorem isSymbol_of (h : R t t') {x : Symbol} (ht : t.isSymbol x) : t'.isSymbol x := by
  rwa [Token.isSymbol, hR h]

theorem isKeyword_of (h : R t t') {k : Keyword} (ht : t.isKeyword k) : t'.isKeyword k := by
  rwa [Token.isKeyword, hR h]

theorem Commas.twin {parts : List (List Token)} (h : Commas parts ts)
    (hts : List.Forall₂ R ts ts') :
    ∃ parts', Commas parts' ts' ∧ List.Forall₂ (List.Forall₂ R) parts parts' := by
  induction h generalizing ts' with
  | none =>
    cases hts
    exact ⟨[], .none, .nil⟩
  | one ts => exact ⟨[ts'], .one ts', .cons hts .nil⟩
  | more ts hc _ ih =>
    obtain ⟨us, _, _, hus, hc', hws, rfl⟩ := hts.of_append_cons
    obtain ⟨parts', hcommas, hparts⟩ := ih hws
    -- a second part is written, so that a comma may be put before it
    cases hparts with
    | cons hv hparts =>
      exact ⟨_, .more us (isSymbol_of hR hc' hc) hcommas, .cons hus (.cons hv hparts)⟩

omit hR in
theorem Expr.Twin.isComparison {μ ν : Type} {L : Likeness μ ν} {e : Expr μ} {e' : Expr ν}
    (h : e.Twin L e') : e'.isComparison = e.isComparison := by
  cases h with
  | literal v => cases v <;> rfl
  | _ => rfl

/-! ## Expressions -/

/-- Corresponding tokens write twin expressions. The counterpart is cut into parts where the
derivation cuts the tokens, and each part writes a twin by induction on the derivation. -/
theorem Phrase.twin {tier : Tier} {e : Expr Unit} (h : Phrase tier ts e)
    (hts : List.Forall₂ R ts ts') : ∃ e', Phrase tier ts' e' ∧ e.Twin (.tokens R) e' := by
  induction h generalizing ts' with
  | @literal t v h =>
    obtain _ | ⟨ha, hnil⟩ := hts
    cases hnil
    exact ⟨_, .literal (by rwa [hR ha]), .literal v⟩
  | this h =>
    obtain _ | ⟨ha, hnil⟩ := hts
    cases hnil
    exact ⟨_, .this (isKeyword_of hR ha h), .this ⟨ha, trivial⟩⟩
  | super h₁ h₂ h₃ =>
    obtain _ | ⟨ha, _ | ⟨hb, _ | ⟨hc, hnil⟩⟩⟩ := hts
    cases hnil
    exact ⟨_, .super (isKeyword_of hR ha h₁) (isSymbol_of hR hb h₂) (by rw [hR hc, h₃]),
      .super ⟨ha, trivial⟩ hc⟩
  | name h =>
    obtain _ | ⟨ha, hnil⟩ := hts
    cases hnil
    exact ⟨_, .name (by rw [hR ha, h]), .variable ⟨ha, trivial⟩⟩
  | group h₁ _ h₂ ih =>
    obtain _ | ⟨ha, hrest⟩ := hts
    obtain ⟨us, _, hus, hb, rfl⟩ := hrest.of_append_singleton
    obtain ⟨e', he, htwin⟩ := ih hus
    exact ⟨_, .group (isSymbol_of hR ha h₁) he (isSymbol_of hR hb h₂), .group htwin⟩
  | field _ h₁ h₂ ih =>
    obtain ⟨us, _, _, hus, ha, hname, rfl⟩ := hts.of_append_cons
    obtain _ | ⟨hb, hnil⟩ := hname
    cases hnil
    obtain ⟨e', he, htwin⟩ := ih hus
    exact ⟨_, .field he (isSymbol_of hR ha h₁) (by rw [hR hb, h₂]), .field htwin hb⟩
  | call _ h₁ _ hlimit hcommas h₂ ih ihargs =>
    obtain ⟨us, _, _, hus, ha, hrest, rfl⟩ := hts.of_append_cons
    obtain ⟨vs, _, hvs, hb, rfl⟩ := hrest.of_append_singleton
    obtain ⟨e', he, htwin⟩ := ih hus
    obtain ⟨parts, hcommas', hparts⟩ := hcommas.twin hR hvs
    obtain ⟨arguments, rfl, hargs, htwins⟩ := exists_twins (fun x hx us h => ihargs x hx h) hparts
    -- twins of the arguments are as many, so that they respect the same limit
    have hlength : arguments.length ≤ argumentLimit := by
      have heq := htwins.length_eq
      rw [List.length_map, List.length_map] at heq
      rwa [← heq]
    exact ⟨_, .call he (isSymbol_of hR ha h₁) hargs hlength hcommas' (isSymbol_of hR hb h₂),
      .call htwin hb htwins⟩
  | unary h₁ _ ih =>
    obtain _ | ⟨ha, hus⟩ := hts
    obtain ⟨e', he, htwin⟩ := ih hus
    exact ⟨_, .unary (by rw [hR ha, h₁]) he, .unary _ ha htwin⟩
  | binary _ h₁ hl _ ih ih' =>
    obtain ⟨us, _, _, hus, ha, hvs, rfl⟩ := hts.of_append_cons
    obtain ⟨e', he, htwin⟩ := ih hus
    obtain ⟨r', hr, htwin'⟩ := ih' hvs
    exact ⟨_, .binary he (by rw [hR ha, h₁]) hl hr, .binary _ htwin ha htwin'⟩
  | logical _ h₁ _ ih ih' =>
    obtain ⟨us, _, _, hus, ha, hvs, rfl⟩ := hts.of_append_cons
    obtain ⟨e', he, htwin⟩ := ih hus
    obtain ⟨r', hr, htwin'⟩ := ih' hvs
    exact ⟨_, .logical he (by rw [hR ha, h₁]) hr, .logical _ htwin ha htwin'⟩
  | ternary _ hc h₁ _ h₂ _ ih ih₁ ih₂ =>
    obtain ⟨us, _, _, hus, ha, htail, rfl⟩ := hts.of_append_cons
    obtain ⟨vs, _, _, hvs, hb, hws, rfl⟩ := htail.of_append_cons
    obtain ⟨c', hc', htwin⟩ := ih hus
    obtain ⟨e', he, htwin₁⟩ := ih₁ hvs
    obtain ⟨r', hr, htwin₂⟩ := ih₂ hws
    exact ⟨_, .ternary hc' (by rwa [htwin.isComparison]) (isSymbol_of hR ha h₁) he
      (isSymbol_of hR hb h₂) hr, .ternary ha htwin htwin₁ htwin₂⟩
  | assign _ h₁ _ ih ih' =>
    obtain ⟨us, _, _, hus, ha, hvs, rfl⟩ := hts.of_append_cons
    obtain ⟨_, hn, htwin⟩ := ih hus
    obtain ⟨e', he, htwin'⟩ := ih' hvs
    -- what stands before the sign has to be a target again: the twin of a name is a name
    cases htwin with
    | «variable» hr => exact ⟨_, .assign hn (isSymbol_of hR ha h₁) he, .assign hr htwin'⟩
  | setField _ h₁ _ ih ih' =>
    obtain ⟨us, _, _, hus, ha, hvs, rfl⟩ := hts.of_append_cons
    obtain ⟨_, ho, htwin⟩ := ih hus
    obtain ⟨e', he, htwin'⟩ := ih' hvs
    cases htwin with
    | field hobject hn => exact ⟨_, .setField ho (isSymbol_of hR ha h₁) he,
        .setField hobject hn htwin'⟩
  | lift _ ih =>
    obtain ⟨e', he, htwin⟩ := ih hts
    exact ⟨e', .lift he, htwin⟩

/-! ## Statements -/

theorem Phrase?.twin {e : Option (Expr Unit)} (h : Phrase? ts e) (hts : List.Forall₂ R ts ts') :
    ∃ e', Phrase? ts' e' ∧ Option.Rel (Expr.Twin (.tokens R)) e e' := by
  cases h with
  | absent =>
    cases hts
    exact ⟨none, .absent, .none⟩
  | present h =>
    obtain ⟨e', he, htwin⟩ := h.twin hR hts
    exact ⟨some e', .present he, .some htwin⟩

omit hR in
theorem Announced.twin {α : Type} {part : List Token → α → Prop} {S : α → α → Prop}
    {announces : Token → Bool} (hannounces : ∀ {t t'}, R t t' → announces t → announces t')
    {x : Option α} (h : Announced announces part ts x)
    (hpart : ∀ {us us' x}, part us x → List.Forall₂ R us us' → ∃ x', part us' x' ∧ S x x')
    (hts : List.Forall₂ R ts ts') :
    ∃ x', Announced announces part ts' x' ∧ Option.Rel S x x' := by
  cases h with
  | absent =>
    cases hts
    exact ⟨none, .absent, .none⟩
  | present h₁ h =>
    obtain _ | ⟨ha, hus⟩ := hts
    obtain ⟨x', hx, hxx⟩ := hpart h hus
    exact ⟨some x', .present (hannounces ha h₁) hx, .some hxx⟩

theorem VarSentence.twin {s : Stmt Unit} (h : VarSentence ts s) (hts : List.Forall₂ R ts ts') :
    ∃ s', VarSentence ts' s' ∧ s.Twin (.tokens R) s' := by
  cases h with
  | mk h₁ h₂ hv h₃ =>
    obtain _ | ⟨ha, _ | ⟨hb, hrest⟩⟩ := hts
    obtain ⟨us, _, hus, hc, rfl⟩ := hrest.of_append_singleton
    obtain ⟨v', hv', htwin⟩ := hv.twin (R := R) (fun h => isSymbol_of hR h) (Phrase.twin hR) hus
    exact ⟨_, .mk (isKeyword_of hR ha h₁) (by rw [hR hb, h₂]) hv' (isSymbol_of hR hc h₃),
      .var hb htwin⟩

theorem ExpressionSentence.twin {s : Stmt Unit} (h : ExpressionSentence ts s)
    (hts : List.Forall₂ R ts ts') : ∃ s', ExpressionSentence ts' s' ∧ s.Twin (.tokens R) s' := by
  cases h with
  | mk h h₁ =>
    obtain ⟨us, _, hus, ha, rfl⟩ := hts.of_append_singleton
    obtain ⟨e', he, htwin⟩ := h.twin hR hus
    exact ⟨_, .mk he (isSymbol_of hR ha h₁), .expression htwin⟩

theorem NameSentence.twin {r : Ref Unit} (h : NameSentence ts r) (hts : List.Forall₂ R ts ts') :
    ∃ r', NameSentence ts' r' ∧ (Likeness.tokens R).Use r r' := by
  cases h with
  | mk h =>
    obtain _ | ⟨ha, hnil⟩ := hts
    cases hnil
    exact ⟨_, .mk (by rw [hR ha, h]), ha, trivial⟩

theorem FirstClause.twin {s : Option (Stmt Unit)} (h : FirstClause ts s)
    (hts : List.Forall₂ R ts ts') :
    ∃ s', FirstClause ts' s' ∧ Option.Rel (Stmt.Twin (.tokens R)) s s' := by
  cases h with
  | absent h₁ =>
    obtain _ | ⟨ha, hnil⟩ := hts
    cases hnil
    exact ⟨none, .absent (isSymbol_of hR ha h₁), .none⟩
  | var h =>
    obtain ⟨s', hs, htwin⟩ := h.twin hR hts
    exact ⟨some s', .var hs, .some htwin⟩
  | expression h =>
    obtain ⟨s', hs, htwin⟩ := h.twin hR hts
    exact ⟨some s', .expression hs, .some htwin⟩

omit hR in
/-- The loop that a `for` stands for. -/
theorem Stmt.twin_forLoop {μ ν : Type} {L : Likeness μ ν} {first : Option (Stmt μ)}
    {first' : Option (Stmt ν)} {condition increment : Option (Expr μ)}
    {condition' increment' : Option (Expr ν)} {s : Stmt μ} {s' : Stmt ν}
    (hfirst : Option.Rel (Stmt.Twin L) first first')
    (hcond : Option.Rel (Expr.Twin L) condition condition')
    (hinc : Option.Rel (Expr.Twin L) increment increment') (hs : s.Twin L s') :
    (forLoop first condition increment s).Twin L (forLoop first' condition' increment' s') := by
  have hround : (round s increment).Twin L (round s' increment') := by
    cases hinc with
    | none => exact hs
    | some he => exact .block (.cons hs (.cons (.expression he) .nil))
  have hloop : (Stmt.while (condition.getD (.literal (.bool true))) (round s increment)).Twin L
      (.while (condition'.getD (.literal (.bool true))) (round s' increment')) := by
    cases hcond with
    | none => exact .while (.literal _) hround
    | some he => exact .while he hround
  cases hfirst with
  | none => exact hloop
  | some hf => exact .block (.cons hf (.cons hloop .nil))

omit hR in
/-- What is read from corresponding tokens. -/
inductive Clause.Twin (R : Token → Token → Prop) : Clause → Clause → Prop where
  | function {f f' : FunDecl Unit} (h : f.Twin (.tokens R) f') : Twin R (.function f) (.function f')
  | statement {s s' : Stmt Unit} (isOpen : Bool) (h : s.Twin (.tokens R) s') :
      Twin R (.statement isOpen s) (.statement isOpen s')
  | declaration {s s' : Stmt Unit} (h : s.Twin (.tokens R) s') :
      Twin R (.declaration s) (.declaration s')

omit hR in
theorem Clause.Twin.exists_declaration {s : Stmt Unit}
    (h : ∃ c, Sentence c ts ∧ (Clause.declaration s).Twin R c) :
    ∃ s', Sentence (.declaration s') ts ∧ s.Twin (.tokens R) s' := by
  obtain ⟨_, hs, _ | _ | htwin⟩ := h
  exact ⟨_, hs, htwin⟩

omit hR in
theorem Clause.Twin.exists_statement {o : Bool} {s : Stmt Unit}
    (h : ∃ c, Sentence c ts ∧ (Clause.statement o s).Twin R c) :
    ∃ s', Sentence (.statement o s') ts ∧ s.Twin (.tokens R) s' := by
  obtain ⟨_, hs, _ | htwin⟩ := h
  exact ⟨_, hs, ‹_›⟩

omit hR in
theorem Clause.Twin.exists_function {f : FunDecl Unit}
    (h : ∃ c, Sentence c ts ∧ (Clause.function f).Twin R c) :
    ∃ f', Sentence (.function f') ts ∧ f.Twin (.tokens R) f' := by
  obtain ⟨_, hf, htwin⟩ := h
  cases htwin with
  | function htwin => exact ⟨_, hf, htwin⟩

omit hR in
/-- The declarations in a body whose tokens correspond. -/
theorem exists_twin_body {body : List (List Token × Stmt Unit)} {us : List Token}
    (h : ∀ x ∈ body, ∀ {vs}, List.Forall₂ R x.1 vs →
      ∃ c, Sentence c vs ∧ (Clause.declaration x.2).Twin R c)
    (hus : List.Forall₂ R (body.map (·.1)).flatten us) :
    ∃ body' : List (List Token × Stmt Unit), us = (body'.map (·.1)).flatten ∧
      (∀ x ∈ body', Sentence (.declaration x.2) x.1) ∧
      List.Forall₂ (Stmt.Twin (.tokens R)) (body.map (·.2)) (body'.map (·.2)) := by
  obtain ⟨parts, rfl, hparts⟩ := exists_parts hus
  obtain ⟨body', rfl, hbody, htwins⟩ :=
    exists_twins (fun x hx vs hvs => Clause.Twin.exists_declaration (h x hx hvs)) hparts
  exact ⟨body', rfl, hbody, htwins⟩

omit hR in
theorem exists_twin_params {ps : List Token} {parts : List (List Token)}
    (h : List.Forall₂ (List.Forall₂ R) (ps.map ([·])) parts) :
    ∃ ps', parts = List.map ([·]) ps' ∧ List.Forall₂ R ps ps' := by
  induction ps generalizing parts with
  | nil =>
    cases h
    exact ⟨[], rfl, .nil⟩
  | cons p ps ih =>
    obtain _ | ⟨hp, hparts⟩ := h
    obtain _ | ⟨ht, hnil⟩ := hp
    cases hnil
    obtain ⟨ps', rfl, hps⟩ := ih hparts
    exact ⟨_ :: ps', rfl, .cons ht hps⟩

omit hR in
/-- The members of a class whose tokens correspond. -/
theorem exists_twin_members {ms : List Member} {us : List Token}
    (h : ∀ m ∈ ms, ∀ vs, List.Forall₂ R m.tokens vs →
      ∃ f, Sentence (.function f) vs ∧ m.decl.Twin (.tokens R) f)
    (hus : List.Forall₂ R (ms.map Member.all).flatten us) :
    ∃ ms' : List Member, us = (ms'.map Member.all).flatten ∧
      (∀ m ∈ ms', Sentence (.function m.decl) m.tokens) ∧
      List.Forall₂ (fun m m' => Option.Rel R m.marker m'.marker ∧
        m.decl.Twin (.tokens R) m'.decl) ms ms' := by
  induction ms generalizing us with
  | nil =>
    cases hus
    exact ⟨[], rfl, by simp, .nil⟩
  | cons m ms ih =>
    obtain ⟨marker, tokens, decl⟩ := m
    obtain ⟨vs, ws, hvs, hws, rfl⟩ := List.Forall₂.of_append hus
    obtain ⟨ms', rfl, hms, htwins⟩ := ih (fun m hm => h m (by simp [hm])) hws
    -- the word that marks a static member, if it is there, is cut off first
    cases marker with
    | none =>
      obtain ⟨f, hf, htwin⟩ := h ⟨none, tokens, decl⟩ (by simp) _ hvs
      exact ⟨⟨none, vs, f⟩ :: ms', rfl, by simpa using ⟨hf, hms⟩, .cons ⟨.none, htwin⟩ htwins⟩
    | some t =>
      obtain _ | ⟨ht, hvs⟩ := hvs
      obtain ⟨f, hf, htwin⟩ := h ⟨some t, tokens, decl⟩ (by simp) _ hvs
      exact ⟨⟨some _, _, f⟩ :: ms', rfl, by simpa using ⟨hf, hms⟩, .cons ⟨.some ht, htwin⟩ htwins⟩

omit hR in
/-- The functions of members that are static, or of those that are not. -/
theorem twin_members {ms ms' : List Member} (p : Bool → Bool)
    (h : List.Forall₂ (fun m m' => Option.Rel R m.marker m'.marker ∧
      m.decl.Twin (.tokens R) m'.decl) ms ms') :
    List.Forall₂ (FunDecl.Twin (.tokens R))
      (((ms.map Member.entry).filter fun x => p x.1).map (·.2))
      (((ms'.map Member.entry).filter fun x => p x.1).map (·.2)) := by
  have hentries : List.Forall₂ (fun x x' : Bool × FunDecl Unit => x.1 = x'.1 ∧
      x.2.Twin (.tokens R) x'.2) (ms.map Member.entry) (ms'.map Member.entry) := by
    rw [List.forall₂_map_left_iff, List.forall₂_map_right_iff]
    exact h.imp fun m m' hm => ⟨hm.1.isSome_eq, hm.2⟩
  rw [List.forall₂_map_left_iff, List.forall₂_map_right_iff]
  exact (hentries.filter fun x x' hx => by rw [hx.1]).imp fun x x' hx => hx.2

/-- A word before a member stands where one stands before its twin. -/
theorem isKeyword_marker {ms ms' : List Member} {k : Keyword}
    (h : List.Forall₂ (fun m m' => Option.Rel R m.marker m'.marker ∧
      m.decl.Twin (.tokens R) m'.decl) ms ms')
    (hms : ∀ m ∈ ms, ∀ t ∈ m.marker, t.isKeyword k) :
    ∀ m' ∈ ms', ∀ t ∈ m'.marker, t.isKeyword k := by
  intro m' hm' t ht
  obtain ⟨m, hm, hmarkers, -⟩ := h.exists_of_mem hm'
  rw [Option.mem_def.1 ht] at hmarkers
  generalize hmarker : m.marker = marker at hmarkers
  cases hmarkers with
  | some hu => exact isKeyword_of hR hu (hms m hm _ hmarker)

/-- Corresponding tokens write twin statements. The counterpart is cut as in `Phrase.twin`; what
is read has the same form, which the induction hypotheses need where a branch may not end in an
open statement or only a function may stand. -/
theorem Sentence.twin {c : Clause} (h : Sentence c ts) (hts : List.Forall₂ R ts ts') :
    ∃ c', Sentence c' ts' ∧ c.Twin R c' := by
  induction h generalizing ts' with
  | expression h =>
    obtain ⟨s', hs, htwin⟩ := h.twin hR hts
    exact ⟨_, .expression hs, .statement _ htwin⟩
  | print h₁ h h₂ =>
    obtain _ | ⟨ha, hrest⟩ := hts
    obtain ⟨us, _, hus, hb, rfl⟩ := hrest.of_append_singleton
    obtain ⟨e', he, htwin⟩ := h.twin hR hus
    exact ⟨_, .print (isKeyword_of hR ha h₁) he (isSymbol_of hR hb h₂),
      .statement _ (.print htwin)⟩
  | «return» h₁ h h₂ =>
    obtain _ | ⟨ha, hrest⟩ := hts
    obtain ⟨us, _, hus, hb, rfl⟩ := hrest.of_append_singleton
    obtain ⟨e', he, htwin⟩ := h.twin hR hus
    exact ⟨_, .return (isKeyword_of hR ha h₁) he (isSymbol_of hR hb h₂),
      .statement _ (.return ha htwin)⟩
  | block h₁ _ h₂ ih =>
    obtain _ | ⟨ha, hrest⟩ := hts
    obtain ⟨us, _, hus, hb, rfl⟩ := hrest.of_append_singleton
    obtain ⟨body', rfl, hbody, htwins⟩ := exists_twin_body ih hus
    exact ⟨_, .block (isSymbol_of hR ha h₁) hbody (isSymbol_of hR hb h₂),
      .statement _ (.block htwins)⟩
  | ifThen h₁ h₂ he h₃ _ ih =>
    obtain _ | ⟨ha, _ | ⟨hb, hrest⟩⟩ := hts
    obtain ⟨us, _, _, hus, hc, hws, rfl⟩ := hrest.of_append_cons
    obtain ⟨e', he', htwin⟩ := he.twin hR hus
    obtain ⟨s', hs, htwin'⟩ := Clause.Twin.exists_statement (ih hws)
    exact ⟨_, .ifThen (isKeyword_of hR ha h₁) (isSymbol_of hR hb h₂) he' (isSymbol_of hR hc h₃) hs,
      .statement _ (.ifThen htwin htwin')⟩
  | ifElse h₁ h₂ he h₃ _ h₄ _ ih ih' =>
    obtain _ | ⟨ha, _ | ⟨hb, hrest⟩⟩ := hts
    obtain ⟨us, _, _, hus, hc, htail, rfl⟩ := hrest.of_append_cons
    obtain ⟨ws, _, _, hws, hd, hys, rfl⟩ := htail.of_append_cons
    obtain ⟨e', he', htwin⟩ := he.twin hR hus
    obtain ⟨s', hs, htwin₁⟩ := Clause.Twin.exists_statement (ih hws)
    obtain ⟨r', hr, htwin₂⟩ := Clause.Twin.exists_statement (ih' hys)
    exact ⟨_, .ifElse (isKeyword_of hR ha h₁) (isSymbol_of hR hb h₂) he' (isSymbol_of hR hc h₃) hs
      (isKeyword_of hR hd h₄) hr, .statement _ (.ifElse htwin htwin₁ htwin₂)⟩
  | «while» h₁ h₂ he h₃ _ ih =>
    obtain _ | ⟨ha, _ | ⟨hb, hrest⟩⟩ := hts
    obtain ⟨us, _, _, hus, hc, hws, rfl⟩ := hrest.of_append_cons
    obtain ⟨e', he', htwin⟩ := he.twin hR hus
    obtain ⟨s', hs, htwin'⟩ := Clause.Twin.exists_statement (ih hws)
    exact ⟨_, .while (isKeyword_of hR ha h₁) (isSymbol_of hR hb h₂) he' (isSymbol_of hR hc h₃) hs,
      .statement _ (.while htwin htwin')⟩
  | «for» h₁ h₂ hf hcond h₃ hinc h₄ _ ih =>
    obtain _ | ⟨ha, _ | ⟨hb, hrest⟩⟩ := hts
    obtain ⟨us, _, hus, hclauses, rfl⟩ := hrest.of_append
    obtain ⟨vs, _, _, hvs, hc, hlast, rfl⟩ := hclauses.of_append_cons
    obtain ⟨ws, _, _, hws, hd, hxs, rfl⟩ := hlast.of_append_cons
    obtain ⟨first', hf', htwin₁⟩ := hf.twin hR hus
    obtain ⟨cond', hcond', htwin₂⟩ := hcond.twin hR hvs
    obtain ⟨inc', hinc', htwin₃⟩ := hinc.twin hR hws
    obtain ⟨s', hs, htwin⟩ := Clause.Twin.exists_statement (ih hxs)
    exact ⟨_, .for (isKeyword_of hR ha h₁) (isSymbol_of hR hb h₂) hf' hcond'
      (isSymbol_of hR hc h₃) hinc' (isSymbol_of hR hd h₄) hs,
      .statement _ (Stmt.twin_forLoop htwin₁ htwin₂ htwin₃ htwin)⟩
  | function h₁ h₂ hparams hlimit hcommas h₃ h₄ _ h₅ ih =>
    obtain _ | ⟨ha, _ | ⟨hb, hrest⟩⟩ := hts
    obtain ⟨us, _, _, hus, hc, hbraces, rfl⟩ := hrest.of_append_cons
    obtain _ | ⟨hd, htail⟩ := hbraces
    obtain ⟨vs, _, hvs, he, rfl⟩ := htail.of_append_singleton
    obtain ⟨parts, hcommas', hparts⟩ := hcommas.twin hR hus
    obtain ⟨params', rfl, hps⟩ := exists_twin_params hparts
    obtain ⟨body', rfl, hbody, htwins⟩ := exists_twin_body ih hvs
    refine ⟨_, .function (by rw [hR ha, h₁]) (isSymbol_of hR hb h₂) (fun p hp => ?_)
      (by rwa [← hps.length_eq]) hcommas' (isSymbol_of hR hc h₃) (isSymbol_of hR hd h₄) hbody
      (isSymbol_of hR he h₅), .function (.mk ha hps htwins)⟩
    obtain ⟨q, hq, hqp⟩ := hps.exists_of_mem hp
    rw [hR hqp, hparams q hq]
  | funDeclaration h₁ _ ih =>
    obtain _ | ⟨ha, hus⟩ := hts
    obtain ⟨f', hf, htwin⟩ := Clause.Twin.exists_function (ih hus)
    exact ⟨_, .funDeclaration (isKeyword_of hR ha h₁) hf, .declaration (.function htwin)⟩
  | varDeclaration h =>
    obtain ⟨s', hs, htwin⟩ := h.twin hR hts
    exact ⟨_, .varDeclaration hs, .declaration htwin⟩
  | «class» h₁ h₂ hsuper h₃ hmarker _ h₄ ih =>
    obtain _ | ⟨ha, _ | ⟨hb, hrest⟩⟩ := hts
    obtain ⟨us, _, _, hus, hc, htail, rfl⟩ := hrest.of_append_cons
    obtain ⟨vs, _, hvs, hd, rfl⟩ := htail.of_append_singleton
    obtain ⟨super', hsuper', htwin⟩ :=
      hsuper.twin (R := R) (fun h => isSymbol_of hR h) (NameSentence.twin hR) hus
    obtain ⟨members', rfl, hmembers, htwins⟩ :=
      exists_twin_members (fun m hm vs hvs => Clause.Twin.exists_function (ih m hm hvs)) hvs
    exact ⟨_, .class (isKeyword_of hR ha h₁) (by rw [hR hb, h₂]) hsuper' (isSymbol_of hR hc h₃)
      (isKeyword_marker hR htwins hmarker) hmembers (isSymbol_of hR hd h₄),
      .declaration (.class hb htwin (twin_members id htwins) (twin_members not htwins))⟩
  | statement _ ih =>
    obtain ⟨s', hs, htwin⟩ := Clause.Twin.exists_statement (ih hts)
    exact ⟨_, .statement hs, .declaration htwin⟩

end Twins

end Lox
