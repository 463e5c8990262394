import Lox.Proofs.Scope.Addresses

/-!
# Located references

The resolver keeps the names of a scope as it comes to their declarations, so what a scope has
depends on where the walk is. Where the statements are genuine and in the order of the text, it
has at each reference those names that are declared before the reference: what the walk has been
past starts before the tokens to come, and what is declared later starts behind them. So
resolving finds the addresses of references, and which of them are misplaced, in the order of
the walk.

## Main definitions

* `Region.Shows`: the scope of a region, before some tokens of the text
* `Context.At`, `Context.AtBody`: the context at a place, and before a list of statements

## Main results

* `Context.AtBody.step`: what one statement preserves
* `Stmt.findings_resolve`: what is found of the references of a statement
* `resolve_references`: what is found of the references of a program
-/

namespace Lox

open Lox.Part (tokens)

variable {μ : Type}

/-! ## Tokens behind a declared name -/

namespace Stmt

/-- The tokens of a statement behind the name that it declares. -/
def inner : Stmt μ → List Token
  | .var _ initializer => tokens (Expr.parts? initializer)
  | .function decl => decl.params ++ tokens (partsAll decl.body)
  | .class _ superclass statics methods =>
    tokens (superclass.toList.flatMap Ref.use) ++
      (tokens (FunDecl.partsAll statics) ++ tokens (FunDecl.partsAll methods))
  | s => tokens s.parts

theorem tokens_eq (s : Stmt μ) : tokens s.parts = s.declared?.toList ++ s.inner := by
  cases s with
  | function decl =>
    cases decl
    simp [parts, FunDecl.parts, inner, declared?, FunDecl.name, FunDecl.params, FunDecl.body]
  | var | «class» => simp [parts, inner, declared?]
  | _ => rfl

theorem inner_subset (s : Stmt μ) : s.inner ⊆ tokens s.parts := by
  rw [tokens_eq]
  exact List.subset_append_right _ _

/-- A declaration starts before what it is the head of. -/
theorem InOrder.precede_inner {s : Stmt μ} (h : s.InOrder) :
    Precede s.declared?.toList s.inner := by
  cases s with
  | var => exact h
  | function decl =>
    obtain ⟨name, params, body⟩ := decl
    intro t ht u hu
    obtain rfl := List.mem_singleton.1 ht
    rcases List.mem_append.1 hu with hu | hu
    · exact h.1 _ (List.mem_singleton.2 rfl) u hu
    · exact h.2.1 _ (List.mem_cons_self) u hu
  | «class» =>
    intro t ht u hu
    simp only [inner, List.mem_append] at hu
    rcases hu with hu | hu | hu
    · exact h.1 t ht u hu
    · exact h.2.1 t ht u hu
    · exact h.2.2.1 t ht u hu
  | _ => exact fun t ht => by cases ht

end Stmt

/-! ## Names that are declared so far -/

/-- A scope that has the names of some tokens and no others. -/
structure Scope.Declares (scope : Scope) (ds : List Token) : Prop where
  has : ∀ n, scope.has n ↔ ∃ d ∈ ds, d.lexeme = n
  isName : ∀ d ∈ ds, d.IsName

namespace Context

variable {c : Context} {scope : Scope} {outer : List Scope}

/-- Global names are not tracked. -/
theorem declared_of_nil (hc : c.scopes = []) (t : Option Token) : c.declared t = c := by
  cases t with
  | none => rfl
  | some t => simp [declared, declare, define, scopes_setName_nil hc]

theorem enclosingClass_declared (c : Context) (t : Option Token) :
    (c.declared t).enclosingClass = c.enclosingClass := by
  cases t with
  | none => rfl
  | some t => simp [declared, declare, define]

/-- Parameters are declared in the class that the function stands in. -/
theorem enclosingClass_enterFunction (c : Context) (kind : FunctionKind) (params : List Token) :
    (c.enterFunction kind params).enclosingClass = c.enclosingClass := by
  have hfold : ∀ c : Context,
      (params.foldl (fun c p => (c.declare p).define p) c).enclosingClass = c.enclosingClass := by
    induction params with
    | nil => exact fun _ => rfl
    | cons p rest ih =>
      intro c
      rw [List.foldl_cons, ih]
      exact enclosingClass_declared c (some p)
  exact hfold _

/-- The innermost scope when a name is declared in it, if any is. -/
theorem exists_declared {ds : List Token} (hc : c.scopes = scope :: outer)
    (h : scope.Declares ds) {o : Option Token} (ho : ∀ t ∈ o, t.IsName) :
    ∃ inner, (c.declared o).scopes = inner :: outer ∧ inner.Declares (ds ++ o.toList) := by
  cases o with
  | none => exact ⟨scope, hc, by rwa [Option.toList_none, List.append_nil]⟩
  | some t =>
    obtain ⟨inner, hscopes, hnew⟩ := scopes_declared hc t
    refine ⟨inner, hscopes, fun n => (hnew n).trans ?_, ?_⟩
    · simp only [h.has, Option.toList_some, List.mem_append, List.mem_singleton, or_and_right,
        exists_or, exists_eq_left]
      rw [eq_comm (a := n), or_comm]
    · simpa only [List.forall_mem_append, Option.mem_toList] using ⟨h.isName, ho⟩

end Context

/-! ## Contexts at a place -/

namespace Region

/-- The reserved word that is the only name of a scope of a class. -/
def word? : Region → Option Keyword
  | names _ => none
  | receiver _ => some .thisWord
  | superclass => some .superWord

/-- Whether a scope is that of `super`. -/
def isSuperclass (region : Region) : Bool := region.word? = some .superWord

/-- The scope of a region at a place that comes before some tokens of the text: it has the names
that are declared so far, and the others are declared behind these tokens. -/
def Shows (ts : List Token) (scope : Scope) : Region → Prop
  | names declared => ∃ soFar later, declared = soFar ++ later ∧ scope.Declares soFar ∧
      Precede soFar ts ∧ Precede ts later
  | receiver _ => ∀ n, scope.has n ↔ n = Keyword.thisWord.text
  | superclass => ∀ n, scope.has n ↔ n = Keyword.superWord.text

/-- Regions as programs nest them. -/
inductive Nested : List Region → Prop where
  | nil : Nested []
  | names {declared : List Token} {around : List Region} (h : Nested around) :
      Nested (names declared :: around)
  | ofClass (inherits : Bool) {around : List Region} (h : Nested around) :
      Nested (ofClass inherits ++ around)

/-- The scope of `super` lies directly outside of that of `this`. -/
theorem Nested.findIdx?_isSuperclass {around : List Region} (h : Nested around)
    (hclass : innermost? around = some true) :
    around.findIdx? isSuperclass = (around.findIdx? isReceiver).map (· + 1) := by
  induction h with
  | nil => cases hclass
  | names _ ih => simp [List.findIdx?_cons, isSuperclass, word?, isReceiver, ih hclass]
  | ofClass inherits _ _ =>
    cases inherits with
    | false => cases hclass
    | true => simp [Region.ofClass, List.findIdx?_cons, isSuperclass, word?, isReceiver]

variable {ts us : List Token} {scope : Scope} {region : Region}

theorem Shows.mono (h : region.Shows ts scope) (hus : us ⊆ ts) : region.Shows us scope := by
  cases region with
  | names declared =>
    obtain ⟨soFar, later, hdeclared, hscope, hbefore, hbehind⟩ := h
    exact ⟨soFar, later, hdeclared, hscope, hbefore.mono (List.Subset.refl _) hus,
      hbehind.mono hus (List.Subset.refl _)⟩
  | receiver | superclass => exact h

theorem Shows.congr {scope' : Scope} (h : region.Shows ts scope)
    (hhas : ∀ n, scope'.has n = scope.has n) : region.Shows ts scope' := by
  cases region with
  | names declared =>
    obtain ⟨soFar, later, hdeclared, hscope, hplace⟩ := h
    exact ⟨soFar, later, hdeclared, ⟨fun n => hhas n ▸ hscope.has n, hscope.isName⟩, hplace⟩
  | receiver | superclass => exact fun n => hhas n ▸ h n

/-- A scope has a name if and only if it is declared there before the place. -/
theorem Shows.has_name (h : region.Shows ts scope) {t : Token} (ht : t ∈ ts) (hname : t.IsName) :
    scope.has t.lexeme = region.declaresBefore t := by
  rw [Bool.eq_iff_iff]
  cases region with
  | names declared =>
    obtain ⟨soFar, later, rfl, hscope, hbefore, hbehind⟩ := h
    simp only [hscope.has, declaresBefore, List.any_append, Bool.or_eq_true, List.any_eq_true,
      decide_eq_true_eq]
    constructor
    · rintro ⟨d, hd, hlexeme⟩
      exact .inl ⟨d, hd, hlexeme, hbefore d hd t ht⟩
    · rintro (⟨d, hd, hlexeme, -⟩ | ⟨d, hd, -, hstart⟩)
      · exact ⟨d, hd, hlexeme⟩
      · -- what is declared later does not start before
        exact absurd rfl (hstart.trans (hbehind t ht d hd)).ne
  | receiver =>
    simpa [declaresBefore, h t.lexeme] using hname.ne_text .thisWord
  | superclass =>
    simpa [declaresBefore, h t.lexeme] using hname.ne_text .superWord

/-- A reserved word is no name that is declared. -/
theorem Shows.has_text (h : region.Shows ts scope) (k : Keyword) :
    scope.has k.text = decide (region.word? = some k) := by
  have hinjective : ∀ j : Keyword, k.text = j.text ↔ some j = some k := by
    intro j
    refine ⟨fun heq => ?_, fun heq => by rw [Option.some.inj heq]⟩
    rw [← Keyword.ofText?_text j, ← heq, Keyword.ofText?_text]
  rw [Bool.eq_iff_iff, decide_eq_true_eq]
  cases region with
  | names declared =>
    obtain ⟨soFar, -, -, hscope, -⟩ := h
    simpa [hscope.has, word?] using fun d hd => (hscope.isName d hd).ne_text k
  | receiver => exact (h _).trans (hinjective .thisWord)
  | superclass => exact (h _).trans (hinjective .superWord)

end Region

namespace Context

/-- What a context knows of the class around a place. -/
structure InClass (c : Context) (around : List Region) : Prop where
  enclosingClass : c.enclosingClass = match Region.innermost? around with
    | none => .none
    | some false => .base
    | some true => .derived
  nested : Region.Nested around

/-- The context in some regions, before some tokens of the text. -/
structure At (c : Context) (around : List Region) (ts : List Token) : Prop extends
    c.InClass around where
  scopes : List.Forall₂ (fun scope region => region.Shows ts scope) c.scopes around

/-- The context at statements that come one after another: the innermost scope has the names that
are declared before them. -/
structure AtBody (c : Context) (around : List Region) (ss : List (Stmt μ)) : Prop extends
    c.InClass around where
  scopes : c.scopes = [] ∧ around = [] ∨
    ∃ scope outer soFar rest, c.scopes = scope :: outer ∧
      around = .names (soFar ++ Stmt.declaredTokens ss) :: rest ∧ scope.Declares soFar ∧
      Precede soFar (tokens (Stmt.partsAll ss)) ∧
      List.Forall₂ (fun scope region => region.Shows (tokens (Stmt.partsAll ss)) scope) outer rest

variable {c : Context} {around : List Region} {ts us : List Token}

namespace At

theorem mono (h : c.At around ts) (hus : us ⊆ ts) : c.At around us :=
  ⟨h.toInClass, h.scopes.imp fun _ _ hshows => hshows.mono hus⟩

/-- What scopes say is what regions say. -/
theorem findIdx?_eq (h : c.At around ts) {p : Scope → Bool} {q : Region → Bool}
    (hpq : ∀ scope region, region.Shows ts scope → p scope = q region) :
    c.scopes.findIdx? p = around.findIdx? q := by
  have hscopes := h.scopes
  revert hscopes
  generalize c.scopes = scopes
  intro hscopes
  clear h
  induction hscopes with
  | nil => rfl
  | cons hshows _ ih => rw [List.findIdx?_cons, List.findIdx?_cons, hpq _ _ hshows, ih]

theorem distance?_name (h : c.At around ts) {t : Token} (ht : t ∈ ts) (hname : t.IsName) :
    c.distance? t.lexeme = around.findIdx? (·.declaresBefore t) :=
  h.findIdx?_eq fun _ _ hshows => hshows.has_name ht hname

theorem distance?_this (h : c.At around ts) :
    c.distance? Keyword.thisWord.text = around.findIdx? Region.isReceiver :=
  h.findIdx?_eq fun _ region hshows => (hshows.has_text .thisWord).trans (by cases region <;> rfl)

theorem distance?_super (h : c.At around ts) (hclass : Region.innermost? around = some true) :
    c.distance? Keyword.superWord.text = (around.findIdx? Region.isReceiver).map (· + 1) :=
  (h.findIdx?_eq fun _ _ hshows => hshows.has_text .superWord).trans
    (h.nested.findIdx?_isSuperclass hclass)

end At

theorem locate_eq (c : Context) (label : Label) (r : Ref μ) :
    c.locate label r = ((c.distance? r.token.lexeme).map (.resolved label r)).toList := by
  unfold locate
  cases c.distance? r.token.lexeme <;> rfl

end Context

/-! ## What is found -/

/-- Whether a report says that a reference is misplaced. -/
def Report.isMisplaced (r : Report) : Bool :=
  r.problem ∈ [ScopeError.thisOutsideClass, .superOutsideClass, .superWithoutSuperclass].map
    Problem.scope

/-- Whether a finding is about a reference: its distance, or that it is misplaced. -/
def Finding.ofReference : Finding μ → Bool
  | .resolved .. => true
  | .misuse r => r.isMisplaced

namespace Finding

@[simp] theorem filter_redeclaration (c : Context) (name : Token) :
    (c.redeclaration name : List (Finding μ)).filter ofReference = [] := by
  unfold Context.redeclaration
  split <;> rfl

@[simp] theorem filter_parameterFindings (c : Context) (ps : List Token) :
    (c.parameterFindings ps : List (Finding μ)).filter ofReference = [] := by
  induction ps generalizing c with
  | nil => rfl
  | cons p rest ih => simp [Context.parameterFindings, ih]

/-- Distances are findings about references. -/
theorem filter_locate (c : Context) (label : Label) (r : Ref μ) :
    (c.locate label r).filter ofReference = c.locate label r := by
  unfold Context.locate
  cases c.distance? r.token.lexeme <;> rfl

end Finding

section Found

variable {c : Context} {around : List Region} {ts : List Token}

namespace Context.At

/-- What is found of a variable. -/
theorem findings_name (h : c.At around ts) {r : Ref μ} (hr : r.token ∈ ts) (hname : r.token.IsName)
    (label : Label) : (c.locate label r).filter Finding.ofReference =
      ((Reference.name label r).finding? around).toList := by
  rw [Finding.filter_locate, locate_eq, h.distance?_name hr hname]
  rfl

/-- A variable that is read, in its own initializer or not. -/
theorem findings_variable (h : c.At around ts) {r : Ref μ} (hr : r.token ∈ ts)
    (hname : r.token.IsName) : ((Expr.variable r).resolve c).filter Finding.ofReference =
      ((Reference.name .variable r).finding? around).toList := by
  rw [Expr.resolve, List.filter_append, h.findings_name hr hname]
  split <;> rfl

/-- What is found of a `this`. -/
theorem findings_this (h : c.At around ts) {r : Ref μ}
    (hword : r.token.lexeme = Keyword.thisWord.text) :
    ((Expr.this r).resolve c).filter Finding.ofReference =
      ((Reference.this r).finding? around).toList := by
  have hclass := h.enclosingClass
  have hlocate : (c.locate .thisRef r).filter Finding.ofReference =
      ((around.findIdx? Region.isReceiver).map (Finding.resolved .thisRef r)).toList := by
    rw [Finding.filter_locate, locate_eq, hword, h.distance?_this]
  simp only [Expr.resolve, Reference.finding?, Reference.misplaced?]
  cases hinner : Region.innermost? around with
  | none =>
    rw [hinner] at hclass
    rw [hclass]
    rfl
  | some inherits =>
    rw [hinner] at hclass
    cases inherits <;> rw [hclass] <;> exact hlocate

/-- What is found of a `super`. -/
theorem findings_super (h : c.At around ts) {r : Ref μ} {method : Token}
    (hword : r.token.lexeme = Keyword.superWord.text) :
    ((Expr.super r method).resolve c).filter Finding.ofReference =
      ((Reference.super r).finding? around).toList := by
  have hclass := h.enclosingClass
  simp only [Expr.resolve, Reference.finding?, Reference.address?, Reference.misplaced?]
  cases hinner : Region.innermost? around with
  | none =>
    rw [hinner] at hclass
    rw [hclass]
    rfl
  | some inherits =>
    rw [hinner] at hclass
    cases inherits with
    | false =>
      rw [hclass]
      rfl
    | true =>
      rw [hclass]
      show (c.locate .superRef r).filter Finding.ofReference = _
      rw [Finding.filter_locate, locate_eq, hword, h.distance?_super hinner]
      rfl

end Context.At

/-! ### Expressions -/

-- An expression declares nothing, so all its operands are walked in one context, and it is enough
-- to follow their tokens.

mutual

/-- What is found of the references of an expression. -/
theorem Expr.findings_resolve (h : c.At around ts) : (e : Expr μ) → e.Genuine →
    tokens e.parts ⊆ ts → (e.resolve c).filter Finding.ofReference =
      Reference.findings (Reference.standing around e.references)
  | .literal _, _, _ => rfl
  | .variable r, hg, hts => by
    have hr : r.token ∈ ts := hts (by simp [parts])
    simp [h.findings_variable hr hg, references]
  | .assign r value, hg, hts => by
    have hr : r.token ∈ ts := hts (by simp [parts])
    have hvalue := findings_resolve h value hg.2
      fun t ht => hts (by simp [parts, ht])
    simp [resolve, references, hvalue, h.findings_name hr hg.1]
  | .binary left _ _ right, hg, hts | .logical left _ _ right, hg, hts => by
    have hleft := findings_resolve h left hg.1 fun t ht => hts (by simp [parts, ht])
    have hright := findings_resolve h right hg.2 fun t ht => hts (by simp [parts, ht])
    simp [resolve, references, hleft, hright]
  | .unary _ _ operand, hg, hts | .group operand, hg, hts | .field operand _, hg, hts => by
    simpa [resolve, references] using
      findings_resolve h operand hg fun t ht => hts (by simp [parts, ht])
  | .ternary _ condition whenTrue whenFalse, hg, hts => by
    have hcond := findings_resolve h condition hg.1 fun t ht => hts (by simp [parts, ht])
    have htrue := findings_resolve h whenTrue hg.2.1 fun t ht => hts (by simp [parts, ht])
    have hfalse := findings_resolve h whenFalse hg.2.2 fun t ht => hts (by simp [parts, ht])
    simp [resolve, references, hcond, htrue, hfalse]
  | .call callee _ arguments, hg, hts => by
    have hcallee := findings_resolve h callee hg.1 fun t ht => hts (by simp [parts, ht])
    have hargs := findings_resolveAll h arguments hg.2 fun t ht => hts (by simp [parts, ht])
    simp [resolve, references, hcallee, hargs]
  | .setField object _ value, hg, hts => by
    have hobject := findings_resolve h object hg.1 fun t ht => hts (by simp [parts, ht])
    have hvalue := findings_resolve h value hg.2 fun t ht => hts (by simp [parts, ht])
    simp [resolve, references, hobject, hvalue]
  | .this r, hg, _ => by simp [h.findings_this hg, references]
  | .super r method, hg, _ => by simp [h.findings_super hg, references]

theorem Expr.findings_resolveAll (h : c.At around ts) : (es : List (Expr μ)) → GenuineAll es →
    tokens (Expr.partsAll es) ⊆ ts → (Expr.resolveAll c es).filter Finding.ofReference =
      Reference.findings (Reference.standing around (Expr.referencesAll es))
  | [], _, _ => rfl
  | e :: rest, hg, hts => by
    have he := findings_resolve h e hg.1 fun t ht => hts (by simp [partsAll, ht])
    have hrest := findings_resolveAll h rest hg.2 fun t ht => hts (by simp [partsAll, ht])
    simp [resolveAll, referencesAll, he, hrest]

end

/-! ### Scopes that open -/

namespace Context

/-- A name that is declared has its place whether its initializer has ended or not. -/
theorem At.of_declared {t : Token} (h : (c.declared (some t)).At around ts) :
    (c.declare t).At around ts := by
  refine ⟨⟨by simpa [declared, declare, define] using h.enclosingClass, h.nested⟩, ?_⟩
  -- the innermost scope has the name in both cases, and the others are the same
  have hscopes := h.scopes
  cases hc : c.scopes with
  | nil =>
    rw [declare, scopes_setName_nil hc]
    rwa [declared, define, declare, scopes_setName_nil hc, scopes_setName_nil hc] at hscopes
  | cons scope outer =>
    rw [declare, scopes_setName_cons hc]
    rw [declared, define, declare, scopes_setName_cons (scopes_setName_cons hc)] at hscopes
    obtain ⟨region, rest, hshows, hrest, rfl⟩ := List.forall₂_cons_left_iff.1 hscopes
    refine .cons (hshows.congr fun n => ?_) hrest
    simp

theorem InClass.names (h : c.InClass around) (declared : List Token) :
    c.InClass (.names declared :: around) :=
  ⟨h.enclosingClass, h.nested.names⟩

theorem InClass.congr {c' : Context} (h : c.InClass around)
    (hclass : c'.enclosingClass = c.enclosingClass) : c'.InClass around :=
  ⟨hclass.trans h.enclosingClass, h.nested⟩

theorem At.enterBlock {body : List (Stmt μ)} (h : c.At around (tokens (Stmt.partsAll body))) :
    (c.enter .empty).AtBody (.names (Stmt.declaredTokens body) :: around) body := by
  have hclass : (c.enter .empty).InClass around := h.toInClass.congr rfl
  exact ⟨hclass.names _, .inr ⟨.empty, c.scopes, [], around, rfl, rfl,
    ⟨by simp [Table.has], by simp⟩, by simp [Precede], h.scopes⟩⟩

theorem At.enterFunction {params : List Token} {body : List (Stmt μ)}
    (h : c.At around (params ++ tokens (Stmt.partsAll body))) (kind : FunctionKind)
    (hparams : ∀ p ∈ params, p.IsName) (hbefore : Precede params (tokens (Stmt.partsAll body))) :
    (c.enterFunction kind params).AtBody
      (.names (params ++ Stmt.declaredTokens body) :: around) body := by
  obtain ⟨inner, hinner, hhas⟩ := c.scopes_enterFunction kind params
  have hinside := h.mono (List.subset_append_right params (tokens (Stmt.partsAll body)))
  have hscope : inner.Declares params := ⟨fun n => (hhas n).trans List.mem_map, hparams⟩
  exact ⟨(h.toInClass.congr (c.enclosingClass_enterFunction kind params)).names _,
    .inr ⟨inner, c.scopes, params, around, hinner, rfl, hscope, hbefore, hinside.scopes⟩⟩

theorem At.enterClass (h : c.At around ts) (superclass : Option (Ref μ)) :
    (c.enterClass superclass).At (Region.ofClass superclass.isSome ++ around) ts := by
  have hthis : (Region.receiver superclass.isSome).Shows ts (Table.empty.set "this" true) := by
    intro n
    simp [Table.has, Keyword.text]
  cases superclass with
  | none => exact ⟨⟨rfl, .ofClass false h.nested⟩, .cons hthis h.scopes⟩
  | some r =>
    have hsuper : Region.superclass.Shows ts (Table.empty.set "super" true) := by
      intro n
      simp [Table.has, Keyword.text]
    exact ⟨⟨rfl, .ofClass true h.nested⟩, .cons hthis (.cons hsuper h.scopes)⟩

/-- A branch declares nothing. -/
theorem At.branch {s : Stmt μ} (h : c.At around ts) (hnone : s.declared? = none)
    (hts : tokens s.parts ⊆ ts) : (c.declared s.declared?).At around s.inner := by
  rw [hnone]
  exact h.mono (List.Subset.trans s.inner_subset hts)

theorem At.firstFunction {f : FunDecl μ} {rest : List (FunDecl μ)}
    (h : c.At around (tokens (FunDecl.partsAll (f :: rest)))) :
    c.At around (f.params ++ tokens (Stmt.partsAll f.body)) := by
  cases f
  refine h.mono fun t ht => ?_
  simp only [FunDecl.params, FunDecl.body, List.mem_append] at ht
  simp only [FunDecl.partsAll, FunDecl.parts, Part.tokens_append, Part.tokens_token,
    Part.tokens_map_name, List.cons_append, List.mem_cons, List.mem_append]
  tauto

/-- What one statement preserves: within it the context is that behind the name that it declares,
and so it is at the statements behind it. -/
theorem AtBody.step {s : Stmt μ} {rest : List (Stmt μ)} (h : c.AtBody around (s :: rest))
    (hs : s.Genuine) (horder : Stmt.InOrderAll (s :: rest)) :
    (c.declared s.declared?).At around s.inner ∧
      (c.declared s.declared?).AtBody around rest := by
  have hclass := h.toInClass.congr (c.enclosingClass_declared s.declared?)
  have hinner : s.inner ⊆ tokens (Stmt.partsAll (s :: rest)) := fun t ht => by
    simp [Stmt.partsAll, s.inner_subset ht]
  have hrest : tokens (Stmt.partsAll rest) ⊆ tokens (Stmt.partsAll (s :: rest)) := fun t ht => by
    simp [Stmt.partsAll, ht]
  rcases h.scopes with ⟨hc, rfl⟩ | ⟨scope, outer, soFar, regions, hc, rfl, hscope, hbefore, houter⟩
  · -- outside of all scopes
    rw [declared_of_nil hc]
    exact ⟨⟨h.toInClass, hc ▸ .nil⟩, h.toInClass, .inl ⟨hc, rfl⟩⟩
  · have hregion : soFar ++ Stmt.declaredTokens (s :: rest) =
        soFar ++ s.declared?.toList ++ Stmt.declaredTokens rest := by
      cases hs : s.declared? <;> simp [Stmt.declaredTokens, hs]
    obtain ⟨inner, hscopes, hscope'⟩ := exists_declared hc hscope (Stmt.isName_declared hs)
    -- the name joins those that are declared before the statement: it starts before what is
    -- behind it in the statement, and before the statements that come later
    have hbeforeInner := Precede.append_left_iff.2
      ⟨hbefore.mono (List.Subset.refl _) hinner, horder.1.precede_inner⟩
    have hbeforeRest := Precede.append_left_iff.2
      ⟨hbefore.mono (List.Subset.refl _) hrest, horder.2.1⟩
    have hbehind : Precede s.inner (Stmt.declaredTokens rest) :=
      horder.2.2.1.mono s.inner_subset (List.Subset.refl _)
    rw [hregion] at hclass ⊢
    constructor
    · refine ⟨hclass, ?_⟩
      rw [hscopes]
      exact .cons ⟨_, _, rfl, hscope', hbeforeInner, hbehind⟩
        (houter.imp fun _ _ hshows => hshows.mono hinner)
    · exact ⟨hclass, .inr ⟨inner, outer, _, regions, hscopes, rfl, hscope', hbeforeRest,
        houter.imp fun _ _ hshows => hshows.mono hrest⟩⟩

end Context

/-! ### Statements -/

-- The induction is on the statements. `AtBody` goes along a list of them, each of which is walked
-- in a context that is `At` the tokens behind its name.

theorem Expr.findings_resolve? (h : c.At around ts) (o : Option (Expr μ)) (hg : Genuine? o)
    (hts : tokens (parts? o) ⊆ ts) : (Expr.resolve? c o).filter Finding.ofReference =
      Reference.findings (Reference.standing around (Expr.references? o)) := by
  cases o with
  | none => rfl
  | some e => exact findings_resolve h e hg hts

/-- What is found of the name of a superclass. -/
theorem Context.At.findings_class (h : c.At around ts) (name : Token) (superclass : Option (Ref μ))
    (hg : ∀ r ∈ superclass, r.token.IsName) (hts : ∀ r ∈ superclass, r.token ∈ ts) :
    (c.classFindings name superclass).filter Finding.ofReference =
      Reference.findings (Reference.standing around
        (superclass.toList.map (.name .variable))) := by
  cases superclass with
  | none => rfl
  | some r =>
    rw [classFindings, List.filter_append, h.findings_variable (hts r rfl) (hg r rfl)]
    split <;> simp [Finding.ofToken, Finding.ofReference, Report.ofToken, Report.isMisplaced]

mutual

/-- What is found of the references of a statement. -/
theorem Stmt.findings_resolve {c : Context} {around : List Region} : (s : Stmt μ) → s.Genuine →
    s.InOrder → (c.declared s.declared?).At around s.inner →
    (s.resolve c).2.filter Finding.ofReference = Reference.findings (s.references around)
  | .expression value, hg, _, h | .print value, hg, _, h =>
    value.findings_resolve h hg (List.Subset.refl _)
  | .var name initializer, hg, _, h => by
    -- the initializer is walked when the name is declared and not yet defined
    have hinit := Expr.findings_resolve? h.of_declared initializer hg.2 (List.Subset.refl _)
    simp [resolve, references, hinit]
  | .block body, hg, horder, h => findings_resolveAll body hg horder h.enterBlock
  | .ifThen condition branch, hg, horder, h | .while condition branch, hg, horder, h => by
    have hcond := condition.findings_resolve h hg.1 fun t ht => by simp [inner, parts, ht]
    have hbranch := findings_resolve branch hg.2.1 horder
      (h.branch hg.2.2 fun t ht => by simp [inner, parts, ht])
    simp only [declared?, Context.declared] at hcond hbranch
    simp [resolve, references, hcond, hbranch]
  | .ifElse condition thenBranch elseBranch, hg, horder, h => by
    obtain ⟨hgcond, hgthen, hgelse, hthen, helse⟩ := hg
    have hcond := condition.findings_resolve h hgcond fun t ht => by simp [inner, parts, ht]
    have hfirst := findings_resolve thenBranch hgthen horder.1
      (h.branch hthen fun t ht => by simp [inner, parts, ht])
    have hsecond := findings_resolve elseBranch hgelse horder.2
      (h.branch helse fun t ht => by simp [inner, parts, ht])
    -- the first branch declares nothing
    have hbetween := resolve_fst c thenBranch hgthen
    rw [hthen] at hbetween
    simp only [declared?, Context.declared] at hcond hfirst hsecond hbetween
    simp [resolve, references, hcond, hfirst, hsecond, hbetween]
  | .return keyword value, hg, _, h => by
    have hvalue := Expr.findings_resolve? h value hg fun t ht => by simp [inner, parts, ht]
    simp only [declared?, Context.declared] at hvalue
    have hmisuse : ∀ (b : Prop) [Decidable b] (e : ScopeError), e = .returnOutsideFunction ∨
        e = .returnFromInitializer →
        (if b then [(.ofToken keyword e : Finding μ)] else []).filter Finding.ofReference = [] := by
      rintro b _ e (rfl | rfl) <;> split <;> rfl
    simp [resolve, references, Context.returnFindings, hvalue, hmisuse]
  | .function decl, hg, horder, h => by
    have hdecl := findings_resolveFunction decl .function hg horder h
    simp only [declared?, Context.declared] at hdecl
    simp [resolve, references, hdecl]
  | .class name superclass statics methods, hg, horder, h => by
    obtain ⟨-, hgsuper, hgstatics, hgmethods⟩ := hg
    have hsuper := h.findings_class name superclass hgsuper fun r hr => by
      obtain rfl := Option.mem_def.1 hr
      simp [inner]
    -- the name of the superclass is looked up outside, the members are walked within the class
    have hmembers := h.enterClass superclass
    have hmethods := findings_resolveMethods methods hgmethods horder.2.2.2.2
      (hmembers.mono fun t ht => by simp [inner, ht])
    have hstatics := findings_resolveStatics statics hgstatics horder.2.2.2.1
      (hmembers.mono fun t ht => by simp [inner, ht])
    simp only [declared?, Context.declared] at hsuper hmethods hstatics
    simp [resolve, references, hsuper, hmethods, hstatics]

/-- What is found of the references of a function. -/
theorem Stmt.findings_resolveFunction {c : Context} {around : List Region} :
    (f : FunDecl μ) → (kind : FunctionKind) → GenuineFunction f → InOrderFunction f →
    c.At around (f.params ++ tokens (partsAll f.body)) →
    (resolveFunction c kind f).filter Finding.ofReference =
      Reference.findings (functionReferences around f)
  | .mk name params body, kind, hg, horder, h => by
    have hbefore : Precede params (tokens (partsAll body)) :=
      fun t ht => horder.2.1 t (List.mem_cons_of_mem _ ht)
    have hbody := findings_resolveAll body hg.2.2 horder.2.2
      (h.enterFunction kind hg.2.1 hbefore)
    rw [resolveFunction, List.filter_append, Finding.filter_parameterFindings]
    exact hbody

/-- What is found of the references of statements one after another. -/
theorem Stmt.findings_resolveAll {c : Context} {around : List Region} : (ss : List (Stmt μ)) →
    GenuineAll ss → InOrderAll ss → c.AtBody around ss →
    (Stmt.resolveAll c ss).2.filter Finding.ofReference =
      Reference.findings (referencesAll around ss)
  | [], _, _, _ => rfl
  | s :: rest, hg, horder, h => by
    obtain ⟨hinside, hbehind⟩ := h.step hg.1 horder
    have hs := findings_resolve s hg.1 horder.1 hinside
    have hrest := findings_resolveAll rest hg.2 horder.2.2.2 hbehind
    simp [resolveAll, referencesAll, hs, hrest, resolve_fst c s hg.1]

/-- What is found of the references of instance methods. -/
theorem Stmt.findings_resolveMethods {c : Context} {around : List Region} :
    (fs : List (FunDecl μ)) → GenuineFunctions fs → InOrderFunctions fs →
    c.At around (tokens (FunDecl.partsAll fs)) →
    (resolveMethods c fs).filter Finding.ofReference =
      Reference.findings (functionsReferences around fs)
  | [], _, _, _ => rfl
  | f :: rest, hg, horder, h => by
    have hf := findings_resolveFunction f f.methodKind hg.1 horder.1 h.firstFunction
    have hrest := findings_resolveMethods rest hg.2 horder.2
      (h.mono fun t ht => by simp [FunDecl.partsAll, ht])
    simp [resolveMethods, functionsReferences, hf, hrest]

/-- What is found of the references of static methods. -/
theorem Stmt.findings_resolveStatics {c : Context} {around : List Region} :
    (fs : List (FunDecl μ)) → GenuineFunctions fs → InOrderFunctions fs →
    c.At around (tokens (FunDecl.partsAll fs)) →
    (resolveStatics c fs).filter Finding.ofReference =
      Reference.findings (functionsReferences around fs)
  | [], _, _, _ => rfl
  | f :: rest, hg, horder, h => by
    have hf := findings_resolveFunction f .method hg.1 horder.1 h.firstFunction
    have hrest := findings_resolveStatics rest hg.2 horder.2
      (h.mono fun t ht => by simp [FunDecl.partsAll, ht])
    simp [resolveStatics, functionsReferences, hf, hrest]

end

end Found

/-- What is found of the references of a program. -/
theorem resolve_references {body : List (Stmt μ)} (hg : Stmt.GenuineAll body)
    (horder : Stmt.InOrderAll body) : (resolve body).filter Finding.ofReference =
      Reference.findings (Stmt.referencesAll [] body) :=
  Stmt.findings_resolveAll body hg horder ⟨⟨rfl, .nil⟩, .inl ⟨rfl, rfl⟩⟩

end Lox
