import Lox.Proofs.Grammar.Genuine
import Lox.Proofs.Scope.Walk
import Mathlib.Data.List.Forall2

/-!
# Settled sites

In a program whose trees are genuine, the walk keeps the open scopes in order: every name of a
scope is one that its opener declares, all names but one that is being initialized have ended,
and inside a class `this` and `super` are found where the class has put them.

## Main definitions

* `Opener.names`: the names that the scope of an opener declares
* `Context.Settled`, `Context.Ended`
* `Site.Settled`: a genuine node in such a context

## Main results

* `Stmt.resolve_fst`: only a declaration changes the context, by the name that it declares
* `Site.Settled.child`: the sites below a settled site are settled
* `Visited.settled`: the walk over a genuine program comes to settled sites only
-/

namespace Lox

/-- The names that statements declare in the scope that they stand in. -/
def Stmt.declaredNames {μ : Type} (body : List (Stmt μ)) : List String :=
  body.filterMap fun s => s.declared?.map (·.lexeme)

theorem Stmt.declaredNames_cons {μ : Type} (s : Stmt μ) (rest : List (Stmt μ)) :
    declaredNames (s :: rest) = declaredNames [s] ++ declaredNames rest :=
  List.filterMap_append (l := [s])

theorem Stmt.mem_declaredNames_singleton {μ : Type} {s : Stmt μ} {n : String} :
    n ∈ declaredNames [s] ↔ ∃ t ∈ s.declared?, t.lexeme = n := by
  simp [declaredNames]

/-- The names that the scope of an opener declares. -/
def Opener.names : Opener → List String
  | .block body => Stmt.declaredNames body
  | .function decl => decl.params.map (·.lexeme) ++ Stmt.declaredNames decl.body
  | .receiver _ => [Keyword.thisWord.text]
  | .superclass _ => [Keyword.superWord.text]

namespace Node

/-- The names that a node declares in the scope that it stands in. -/
def names : Node → List String
  | .expression _ | .function .. => []
  | .statement s => Stmt.declaredNames [s]
  | .body ss => Stmt.declaredNames ss

/-- A node that consists of genuine trees. -/
def Genuine : Node → Prop
  | .expression e => e.Genuine
  | .statement s => s.Genuine
  | .body ss => Stmt.GenuineAll ss
  | .function _ f => Stmt.GenuineFunction f

/-- Whether a node is an expression. -/
def isExpression : Node → Bool
  | .expression _ => true
  | _ => false

end Node

/-! ## Names of a scope -/

namespace Context

variable {c : Context} {name : String} {t : Token} {ended : Bool}

/-- The context after the name of a declaration, if a statement is one. -/
def declared (c : Context) : Option Token → Context
  | none => c
  | some t => (c.declare t).define t

@[simp] theorem function_setName : (c.setName name ended).function = c.function := by
  unfold setName
  split <;> rfl

@[simp] theorem enclosingClass_setName :
    (c.setName name ended).enclosingClass = c.enclosingClass := by
  unfold setName
  split <;> rfl

@[simp] theorem scopes_setName_nil (h : c.scopes = []) : c.setName name ended = c := by
  simp [setName, h]

@[simp] theorem scopes_setName_cons {scope : Scope} {outer : List Scope}
    (h : c.scopes = scope :: outer) :
    (c.setName name ended).scopes = scope.set name ended :: outer := by
  simp [setName, h]

/-- Setting a name changes what the scopes say of no other name. -/
theorem find?_setName {d : Nat} {m : String} (h : m ≠ name) :
    ((c.setName name ended).scopes[d]?).bind (·.find? m) = (c.scopes[d]?).bind (·.find? m) := by
  cases hc : c.scopes with
  | nil => simp [hc]
  | cons scope outer =>
    rw [scopes_setName_cons hc]
    cases d <;> simp [h]

theorem distance?_setName {m : String} (h : m ≠ name) :
    (c.setName name ended).distance? m = c.distance? m := by
  cases hc : c.scopes with
  | nil => simp [hc]
  | cons scope outer =>
    simp [distance?, scopes_setName_cons hc, hc, List.findIdx?_cons, h]

theorem distance?_enter {scope : Scope} :
    (c.enter scope).distance? name =
      if scope.has name then some 0 else (c.distance? name).map (· + 1) := by
  simp [distance?, enter, List.findIdx?_cons]

end Context

/-! ## Settled contexts -/

namespace Context

/-- Every initializer in the open scopes has ended. -/
def Ended (c : Context) : Prop := ∀ scope ∈ c.scopes, ∀ n, scope.find? n ≠ some false

/-- A context whose scopes were opened in order. -/
structure Settled (c : Context) (openers : List Opener) : Prop where
  /-- A scope has names that its opener declares. -/
  names : List.Forall₂ (fun scope o => ∀ n, scope.has n → n ∈ o.names) c.scopes openers
  /-- Only the innermost scope has a name that is being initialized. -/
  ended : ∀ scope ∈ c.scopes.tail, ∀ n, scope.find? n ≠ some false
  /-- No reserved word is being initialized. -/
  keywords : ∀ scope ∈ c.scopes, ∀ k : Keyword, scope.find? k.text ≠ some false
  /-- In a class there is `this`. -/
  this : c.enclosingClass ≠ .none → ∃ d, c.distance? Keyword.thisWord.text = some d
  /-- In a class with a superclass `super` lies directly outside of `this`. -/
  super : c.enclosingClass = .derived → ∃ d, c.distance? Keyword.superWord.text = some (d + 1) ∧
    (c.scopes[d]?).bind (·.find? Keyword.thisWord.text) = some true

variable {c : Context} {openers : List Opener} {t : Token}

theorem Ended.declared (h : c.Ended) (t : Option Token) : (c.declared t).Ended := by
  cases t with
  | none => exact h
  | some t =>
    cases hc : c.scopes with
    | nil => simpa [Context.declared, declare, define, hc] using h
    | cons scope outer =>
      intro s hs n
      simp only [Context.declared, declare, define,
        scopes_setName_cons (scopes_setName_cons hc)] at hs
      rcases List.mem_cons.1 hs with rfl | hs
      · have := h scope (by simp [hc]) n
        simp only [Table.find?_set]
        split <;> simp_all
      · exact h s (by simp [hc, hs]) n

theorem Ended.enter (h : c.Ended) {scope : Scope} (hscope : ∀ n, scope.find? n ≠ some false) :
    (c.enter scope).Ended := by
  intro s hs
  rcases List.mem_cons.1 hs with rfl | hs
  · exact hscope
  · exact h s hs

namespace Settled

/-- Setting a name that the innermost opener declares. -/
theorem setName (h : c.Settled openers) (ht : t.IsName)
    (ho : ∀ o ∈ openers.head?, t.lexeme ∈ o.names) (ended : Bool) :
    (c.setName t.lexeme ended).Settled openers := by
  cases hc : c.scopes with
  | nil => rwa [scopes_setName_nil hc]
  | cons scope outer =>
    have hset : (c.setName t.lexeme ended).scopes = scope.set t.lexeme ended :: outer :=
      scopes_setName_cons hc
    -- the name is no reserved word, so the searches for `this` and `super` do not meet it
    refine ⟨?names, ?ended, ?keywords, ?this, ?super⟩
    case names =>
      obtain ⟨o, os, hs, hrest, rfl⟩ := List.forall₂_cons_left_iff.1 (hc ▸ h.names)
      rw [hset]
      refine .cons (fun n hn => ?_) hrest
      rcases (by simpa using hn : n = t.lexeme ∨ scope.has n) with rfl | hn
      · exact ho o rfl
      · exact hs n hn
    case ended =>
      simpa [hset] using (by simpa [hc] using h.ended : ∀ s ∈ outer, ∀ n, s.find? n ≠ some false)
    case keywords =>
      intro s hs k
      rw [hset] at hs
      rcases List.mem_cons.1 hs with rfl | hs
      · simpa [(ht.ne_text k).symm] using h.keywords scope (by simp [hc]) k
      · exact h.keywords s (by simp [hc, hs]) k
    case this =>
      rw [enclosingClass_setName, distance?_setName (ht.ne_text _).symm]
      exact h.this
    case super =>
      rw [enclosingClass_setName, distance?_setName (ht.ne_text _).symm]
      intro hclass
      obtain ⟨d, hd, hthis⟩ := h.super hclass
      exact ⟨d, hd, by rw [find?_setName (ht.ne_text _).symm, hthis]⟩

theorem declared (h : c.Settled openers) {t : Option Token} (ht : ∀ t' ∈ t, t'.IsName)
    (ho : ∀ t' ∈ t, ∀ o ∈ openers.head?, t'.lexeme ∈ o.names) : (c.declared t).Settled openers := by
  cases t with
  | none => exact h
  | some t => exact (h.setName (ht t rfl) (ho t rfl) false).setName (ht t rfl) (ho t rfl) true

/-- Opening a scope without names. -/
theorem enter (h : c.Settled openers) (hc : c.Ended) (o : Opener) :
    (c.enter .empty).Settled (o :: openers) where
  names := .cons (by simp [Table.has]) h.names
  ended := hc
  keywords s hs k := by
    rcases List.mem_cons.1 hs with rfl | hs
    · simp
    · exact h.keywords s hs k
  this hclass := by
    obtain ⟨d, hd⟩ := h.this hclass
    exact ⟨d + 1, by simp [distance?_enter, Table.has, hd]⟩
  super hclass := by
    obtain ⟨d, hd, hthis⟩ := h.super hclass
    exact ⟨d + 1, by simp [distance?_enter, Table.has, hd], by simpa using hthis⟩

/-- Opening the scopes of a class. -/
theorem enterClass (h : c.Settled openers) (hc : c.Ended) (m : Members)
    (superclass : Option (Ref Occurrence)) :
    (c.enterClass superclass).Settled (m.openers superclass ++ openers) ∧
      (c.enterClass superclass).Ended := by
  have hset : ∀ (word m : String), (Table.empty.set word true).find? m ≠ some false := by
    intro word m
    rw [Table.find?_set]
    split <;> simp
  have hthis := fun n => hset Keyword.thisWord.text n
  have hkeywords : ∀ scope, (∀ n, scope.find? n ≠ some false) →
      ∀ scopes : List Scope, (∀ s ∈ scopes, ∀ k : Keyword, s.find? k.text ≠ some false) →
      ∀ s ∈ scope :: scopes, ∀ k : Keyword, s.find? k.text ≠ some false := by
    intro scope hscope scopes hscopes s hs k
    rcases List.mem_cons.1 hs with rfl | hs
    · exact hscope _
    · exact hscopes s hs k
  cases superclass with
  | none =>
    refine ⟨⟨.cons (fun n hn => ?names) h.names, hc, hkeywords _ hthis _ h.keywords,
      fun _ => ⟨0, rfl⟩, fun hderived => ?super⟩, hc.enter hthis⟩
    case names => simpa [Opener.names, Table.has, Keyword.text] using hn
    case super => cases hderived
  | some r =>
    -- the scope of `super` is directly outside of that of `this`
    have houter : (c.enter (Table.empty.set Keyword.superWord.text true)).Ended := hc.enter (hset _)
    refine ⟨⟨.cons (fun n hn => ?receiver) (.cons (fun n hn => ?superclass) h.names), houter,
      hkeywords _ hthis _ (hkeywords _ (hset _) _ h.keywords), fun _ => ⟨0, rfl⟩,
      fun _ => ⟨0, ?super, rfl⟩⟩, houter.enter hthis⟩
    case receiver => simpa [Opener.names, Table.has, Keyword.text] using hn
    case superclass => simpa [Opener.names, Table.has, Keyword.text] using hn
    case super => simp [Context.enterClass, distance?, List.findIdx?_cons, Table.has, Keyword.text]

/-- Declaring the parameters of a function. -/
theorem foldl (h : c.Settled openers) (hc : c.Ended) {ps : List Token}
    (hps : ∀ p ∈ ps, p.IsName) (ho : ∀ p ∈ ps, ∀ o ∈ openers.head?, p.lexeme ∈ o.names) :
    (ps.foldl (fun c p => (c.declare p).define p) c).Settled openers ∧
      (ps.foldl (fun c p => (c.declare p).define p) c).Ended := by
  induction ps generalizing c with
  | nil => exact ⟨h, hc⟩
  | cons p rest ih =>
    have hp : (c.declared (some p)).Settled openers :=
      h.declared (by simpa using hps p (by simp)) (by simpa using ho p (by simp))
    exact ih hp (hc.declared (some p)) (fun q hq => hps q (by simp [hq]))
      fun q hq => ho q (by simp [hq])

/-- Opening the scope of a function. -/
theorem enterFunction (h : c.Settled openers) (hc : c.Ended) (kind : FunctionKind)
    {f : FunDecl Occurrence} (hf : ∀ p ∈ f.params, p.IsName) :
    (c.enterFunction kind f.params).Settled (.function f :: openers) ∧
      (c.enterFunction kind f.params).Ended := by
  have hempty : (c.enter .empty).Ended := hc.enter (by simp)
  have hin : { c.enter .empty with function := kind }.Settled (.function f :: openers) := by
    obtain ⟨names, ended, keywords, this, super⟩ := h.enter hc (.function f)
    exact ⟨names, ended, keywords, this, super⟩
  refine hin.foldl hempty hf fun p hp o ho => ?_
  obtain rfl : .function f = o := by simpa using ho
  exact List.mem_append_left _ (List.mem_map_of_mem hp)

end Settled

theorem scopes_foldl {c : Context} {scope : Scope} {outer : List Scope}
    (h : c.scopes = scope :: outer) (ps : List Token) :
    ∃ inner, (ps.foldl (fun c p => (c.declare p).define p) c).scopes = inner :: outer ∧
      ∀ n, inner.has n ↔ scope.has n ∨ n ∈ ps.map (·.lexeme) := by
  induction ps generalizing c scope with
  | nil => exact ⟨scope, h, by simp⟩
  | cons p rest ih =>
    obtain ⟨inner, hinner, hall⟩ :=
      ih (c := (c.declare p).define p) (scopes_setName_cons (scopes_setName_cons h))
    refine ⟨inner, hinner, fun n => (hall n).trans ?_⟩
    simp only [Table.has_set, Bool.or_eq_true, decide_eq_true_eq, List.map_cons, List.mem_cons]
    tauto

/-- The scope of a function's body has the parameters as its names. -/
theorem scopes_enterFunction (c : Context) (kind : FunctionKind) (ps : List Token) :
    ∃ inner, (c.enterFunction kind ps).scopes = inner :: c.scopes ∧
      ∀ n, inner.has n ↔ n ∈ ps.map (·.lexeme) := by
  obtain ⟨inner, hinner, hall⟩ :=
    scopes_foldl (c := { c.enter .empty with function := kind }) rfl ps
  exact ⟨inner, hinner, fun n => (hall n).trans (or_iff_right (by simp [Table.has]))⟩

end Context

/-- Only a declaration changes the context, by the name that it declares. -/
theorem Stmt.resolve_fst {μ : Type} (c : Context) :
    (s : Stmt μ) → s.Genuine → (s.resolve c).1 = c.declared s.declared?
  | .expression _, _ | .print _, _ | .var .., _ | .block _, _ | .function _, _ | .return .., _
  | .class .., _ => rfl
  | .ifThen _ thenBranch, h => by
    have hthen := resolve_fst c thenBranch h.2.1
    rw [h.2.2] at hthen
    exact hthen
  | .ifElse _ thenBranch elseBranch, h => by
    have hthen := resolve_fst c thenBranch h.2.1
    have helse := resolve_fst c elseBranch h.2.2.1
    simp only [h.2.2.2.1, h.2.2.2.2, Context.declared] at hthen helse
    simp [Stmt.resolve, Stmt.declared?, Context.declared, hthen, helse]
  | .while _ body, h => by
    have hbody := resolve_fst c body h.2.1
    rw [h.2.2] at hbody
    exact hbody

/-! ## Parts of trees -/

theorem Stmt.declared?_of_operand {μ : Type} {s : Stmt μ} {e : Expr μ} (h : e ∈ s.operands) :
    s.declared? = none := by
  cases s with
  | var | function | «class» => cases h
  | _ => rfl

theorem Stmt.declared?_of_branch {μ : Type} {s b : Stmt μ} (h : b ∈ s.branch?) :
    s.declared? = none := by
  cases s with
  | ifThen | ifElse | «while» => rfl
  | _ => cases h

theorem Expr.Genuine.operand {e a : Expr Occurrence} (he : e.Genuine) (ha : a ∈ e.operands) :
    a.Genuine := by
  cases e with
  | call callee paren arguments =>
    rcases List.mem_cons.1 ha with rfl | ha
    · exact he.1
    · exact Expr.genuineAll_iff.1 he.2 a ha
  | assign =>
    obtain rfl := List.mem_singleton.1 ha
    exact he.2
  | unary | group | field =>
    obtain rfl := List.mem_singleton.1 ha
    exact he
  | binary | logical | setField | ternary =>
    simp only [operands, List.mem_cons, List.not_mem_nil, or_false] at ha
    rcases ha with rfl | rfl | rfl <;> simp_all [Genuine]
  | literal | «variable» | this | super => cases ha

theorem Stmt.Genuine.operand {s : Stmt Occurrence} {e : Expr Occurrence} (hs : s.Genuine)
    (he : e ∈ s.operands) : e.Genuine := by
  cases s with
  | «return» keyword value =>
    obtain rfl := Option.mem_toList.1 he
    exact hs
  | expression | print =>
    obtain rfl := List.mem_singleton.1 he
    exact hs
  | ifThen | ifElse | «while» =>
    obtain rfl := List.mem_singleton.1 he
    exact hs.1
  | var | block | function | «class» => cases he

theorem Stmt.Genuine.branch {s b : Stmt Occurrence} (hs : s.Genuine) (hb : b ∈ s.branch?) :
    b.Genuine ∧ b.declared? = none := by
  cases s with
  | ifThen | «while» =>
    obtain rfl := Option.mem_some.1 hb
    exact hs.2
  | ifElse =>
    obtain rfl := Option.mem_some.1 hb
    exact ⟨hs.2.1, hs.2.2.2.1⟩
  | _ => cases hb

/-! ## Settled sites -/

namespace Site

/-- A genuine node in a context whose scopes were opened in order. -/
structure Settled (p : Site) : Prop where
  /-- The scopes were opened in order. -/
  context : p.context.Settled p.openers
  /-- Only an expression can be an initializer that has not ended. -/
  ended : p.node.isExpression = false → p.context.Ended
  /-- The node is genuine. -/
  genuine : p.node.Genuine
  /-- What the node declares is declared by the innermost opener. -/
  names : ∀ n ∈ p.node.names, ∀ o ∈ p.openers.head?, n ∈ o.names

namespace Settled

variable {p q : Site}

/-- An expression in a context whose scopes were opened in order. -/
theorem expression {c : Context} {os : List Opener} (hc : c.Settled os) {e : Expr Occurrence}
    (he : e.Genuine) : Settled ⟨c, os, .expression e⟩ :=
  ⟨hc, by simp [Node.isExpression], he, by simp [Node.names]⟩

/-- A branch or the body of a loop. -/
theorem branch {c : Context} {os : List Opener} (hc : c.Settled os) (hended : c.Ended)
    {s : Stmt Occurrence} (hs : s.Genuine) (hnone : s.declared? = none) :
    Settled ⟨c, os, .statement s⟩ :=
  ⟨hc, fun _ => hended, hs, by simp [Node.names, Stmt.declaredNames, hnone]⟩

/-- A function in a context in which nothing is being initialized. -/
theorem function {c : Context} {os : List Opener} (hc : c.Settled os ∧ c.Ended)
    (kind : FunctionKind) {f : FunDecl Occurrence} (hf : Stmt.GenuineFunction f) :
    Settled ⟨c, os, .function kind f⟩ :=
  ⟨hc.1, fun _ => hc.2, hf, by simp [Node.names]⟩

/-- The context after a statement. -/
theorem declared (h : p.Settled) {s : Stmt Occurrence} (hs : s.Genuine)
    (hnames : ∀ t ∈ s.declared?, ∀ o ∈ p.openers.head?, t.lexeme ∈ o.names)
    (hp : p.node.isExpression = false) :
    (p.context.declared s.declared?).Settled p.openers ∧
      (p.context.declared s.declared?).Ended :=
  ⟨h.context.declared (Stmt.isName_declared hs) hnames, (h.ended hp).declared _⟩

/-- What a statement declares is declared by the innermost opener. -/
theorem mem_names {c : Context} {os : List Opener} {s : Stmt Occurrence}
    (h : Settled ⟨c, os, .statement s⟩) :
    ∀ t ∈ s.declared?, ∀ o ∈ os.head?, t.lexeme ∈ o.names := by
  intro t ht
  exact h.names t.lexeme (Stmt.mem_declaredNames_singleton.2 ⟨t, ht, rfl⟩)

/-- What the statements of a scope declare is declared by the innermost opener. -/
theorem mem_names_body {c : Context} {os : List Opener} {s : Stmt Occurrence}
    {ss : List (Stmt Occurrence)} (h : Settled ⟨c, os, .body (s :: ss)⟩) {n : String}
    (hn : n ∈ Stmt.declaredNames [s] ∨ n ∈ Stmt.declaredNames ss) :
    ∀ o ∈ os.head?, n ∈ o.names := by
  refine h.names n ?_
  show n ∈ Stmt.declaredNames (s :: ss)
  rwa [Stmt.declaredNames_cons, List.mem_append]

/-- The sites below a settled site are settled. -/
theorem child (h : p.Settled) (hq : q ∈ p.children) : q.Settled := by
  have hgenuine := h.genuine
  cases mem_children_iff.1 hq with
  | operand ha => exact .expression h.context (hgenuine.operand ha)
  | value he => exact .expression h.context (hgenuine.operand he)
  | initializer c os name e =>
    exact .expression (h.context.setName hgenuine.1 (h.mem_names name rfl) false) hgenuine.2
  | block c os ss =>
    refine ⟨h.context.enter (h.ended rfl) _, fun _ => (h.ended rfl).enter (by simp), hgenuine,
      fun n hn o ho => ?_⟩
    obtain rfl : .block ss = o := by simpa using ho
    exact hn
  | branch hb =>
    obtain ⟨hs, hnone⟩ := hgenuine.branch hb
    exact .branch h.context (h.ended rfl) hs hnone
  | elseBranch c os e a b =>
    obtain ⟨-, ha, hb, hanone, hbnone⟩ := hgenuine
    rw [Stmt.resolve_fst c a ha, hanone]
    exact .branch h.context (h.ended rfl) hb hbnone
  | function c os f => exact .function (h.declared hgenuine h.mem_names rfl) _ hgenuine
  | superclass c os name r statics methods =>
    exact .expression (h.declared hgenuine h.mem_names rfl).1 (hgenuine.2.1 r rfl)
  | method c os name r statics hf =>
    obtain ⟨hc, hended⟩ := h.declared hgenuine h.mem_names rfl
    exact .function (hc.enterClass hended _ r) _ (Stmt.genuineFunctions_iff.1 hgenuine.2.2.2 _ hf)
  | static c os name r methods hf =>
    obtain ⟨hc, hended⟩ := h.declared hgenuine h.mem_names rfl
    exact .function (hc.enterClass hended _ r) _ (Stmt.genuineFunctions_iff.1 hgenuine.2.2.1 _ hf)
  | first c os s ss =>
    exact ⟨h.context, h.ended, hgenuine.1, fun n hn => h.mem_names_body (.inl hn)⟩
  | rest c os s ss =>
    have hs : s.Genuine := hgenuine.1
    have hnames : ∀ t ∈ s.declared?, ∀ o ∈ os.head?, t.lexeme ∈ o.names := fun t ht =>
      h.mem_names_body (.inl (Stmt.mem_declaredNames_singleton.2 ⟨t, ht, rfl⟩))
    obtain ⟨hc, hended⟩ := h.declared hs hnames rfl
    rw [Stmt.resolve_fst c s hs]
    exact ⟨hc, fun _ => hended, hgenuine.2, fun n hn => h.mem_names_body (.inr hn)⟩
  | body c os kind f =>
    obtain ⟨name, params, ss⟩ := f
    have henter := h.context.enterFunction (h.ended rfl) kind (f := .mk name params ss)
      hgenuine.2.1
    refine ⟨henter.1, fun _ => henter.2, hgenuine.2.2, fun n hn o ho => ?_⟩
    obtain rfl : .function (.mk name params ss) = o := by simpa using ho
    exact List.mem_append_right _ hn

end Settled

end Site

/-- The walk over a genuine program comes to settled sites only. -/
theorem Visited.settled {body : List (Stmt Occurrence)} {p : Site} (h : Visited body p)
    (hbody : Stmt.GenuineAll body) : p.Settled := by
  induction h with
  | root =>
    refine ⟨⟨.nil, by simp, by simp, by simp, by simp⟩, fun _ scope hscope => ?_, hbody, by simp⟩
    cases hscope
  | child _ hq ih => exact ih.child hq

end Lox
