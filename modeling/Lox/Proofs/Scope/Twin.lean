import Lox.Proofs.Scope.Survey
import Lox.Proofs.Syntax.Twin

/-!
# Resolving twins

The names of variables mean nothing to the resolver beyond the scopes that they lead to. If the
variables of some scopes are renamed, each use of a variable along with its declaration, then
resolving finds the same distances and reports something where it did before. Texts that keep
all their names are the simplest case.

## Main definitions

* `Table.rename`: a table under other names
* `Renaming`, `Renaming.Lawful`: what the variables of scopes are called
* `Site.Suits`: the names at a site are those that its scopes give
* `Finding.Twin`: corresponding findings

## Main results

* `Stmt.twin_resolveAll`: the findings of twins correspond
* `Resolved.twin_ofProgram`: so do resolved programs
-/

namespace Lox

/-! ## Tables under other names -/

namespace Table

variable {α : Type} {f : String → String}

/-- A table whose names are replaced. -/
def rename (f : String → String) (t : Table α) : Table α :=
  ⟨t.entries.map fun e => (f e.1, e.2)⟩

@[simp] theorem rename_empty (f : String → String) : (empty : Table α).rename f = empty := rfl

@[simp] theorem rename_id (t : Table α) : t.rename id = t := by
  simp [rename]

@[simp] theorem find?_rename (hf : f.Injective) (t : Table α) (name : String) :
    (t.rename f).find? (f name) = t.find? name := by
  obtain ⟨entries⟩ := t
  induction entries with
  | nil => rfl
  | cons e rest ih =>
    simp only [find?, rename, List.map_cons, findEntry, hf.eq_iff] at ih ⊢
    rw [ih]

/-- A name that none becomes is not found. -/
theorem find?_rename_eq_none {t : Table α} {name : String} (h : ∀ m, f m = name → ¬ t.has m) :
    (t.rename f).find? name = none := by
  obtain ⟨entries⟩ := t
  induction entries with
  | nil => rfl
  | cons e rest ih =>
    obtain ⟨n, a⟩ := e
    have hne : name ≠ f n := fun heq => h n heq.symm (by simp [has, find?, findEntry])
    simp only [find?, rename, List.map_cons, findEntry, hne, if_false]
    refine ih fun m hm hhas => h m hm ?_
    simp only [has, find?, findEntry] at hhas ⊢
    split
    · rfl
    · exact hhas

/-- Setting a name and setting what it becomes. -/
theorem rename_set (hf : f.Injective) (t : Table α) (name : String) (a : α) :
    (t.set name a).rename f = (t.rename f).set (f name) a := by
  obtain ⟨entries⟩ := t
  simp only [set, rename, mk.injEq]
  induction entries with
  | nil => rfl
  | cons e rest ih =>
    simp only [setEntry, List.map_cons, hf.eq_iff]
    split
    · rfl
    · rw [List.map_cons, ih]

end Table

/-! ## Renamings -/

/-- What the variables of some scopes are called instead. -/
structure Renaming where
  /-- What a name becomes in the scopes of an opener. -/
  scope : Opener → String → String
  /-- What a token becomes where it names a variable. -/
  text : Token → String

namespace Renaming

/-- Every variable keeps its name. -/
def keep : Renaming := ⟨fun _ => id, Token.lexeme⟩

/-- Different names stay different, and reserved words stay as they are. -/
structure Lawful (κ : Renaming) : Prop where
  injective : ∀ o, (κ.scope o).Injective
  word : ∀ o (k : Keyword), κ.scope o k.text = k.text

theorem lawful_keep : keep.Lawful := ⟨fun _ => Function.injective_id, fun _ _ => rfl⟩

variable {κ : Renaming} {m m' : String} {os : List Opener} {ss ss' : List Scope}

/-- The name `m'` means in the renamed scopes what `m` means in the scopes. -/
def Meets (κ : Renaming) (m m' : String) : List Opener → List Scope → Prop
  | o :: os, s :: ss =>
    if s.has m then m' = κ.scope o m
    else (∀ n, κ.scope o n = m' → ¬ s.has n) ∧ κ.Meets m m' os ss
  | _, _ => m' = m

/-- The name `m` of a variable that the innermost scope declares becomes `m'`. -/
def Declares (κ : Renaming) (m m' : String) (os : List Opener) : Prop :=
  match os with
  | [] => m' = m
  | o :: _ => m' = κ.scope o m

theorem meets_self (h : ∀ o, (κ.scope o).Injective) (hm : ∀ o, κ.scope o m = m) :
    (os : List Opener) → (ss : List Scope) → κ.Meets m m os ss
  | [], _ | _ :: _, [] => rfl
  | o :: os, s :: ss => by
    unfold Meets
    split
    · exact (hm o).symm
    · next hhas =>
      refine ⟨fun n hn => ?_, meets_self h hm os ss⟩
      rw [← hm o] at hn
      rwa [h o hn]

/-- Scopes with their names replaced as their openers say. -/
inductive Scopes (κ : Renaming) : List Opener → List Scope → List Scope → Prop where
  | nil : Scopes κ [] [] []
  | cons {o : Opener} {os : List Opener} {s : Scope} {ss ss' : List Scope}
      (h : Scopes κ os ss ss') : Scopes κ (o :: os) (s :: ss) (s.rename (κ.scope o) :: ss')

theorem find?_scope (hκ : κ.Lawful) {o : Opener} {s : Scope}
    (h : κ.Meets m m' (o :: os) (s :: ss)) : (s.rename (κ.scope o)).find? m' = s.find? m := by
  unfold Meets at h
  split at h
  · rw [h, Table.find?_rename (hκ.injective o)]
  · next hhas =>
    rw [Table.find?_rename_eq_none h.1]
    exact (by simpa [Table.has] using hhas : s.find? m = none).symm

end Renaming

/-! ## Contexts -/

section Contexts

variable {κ : Renaming} {os : List Opener} {c c' : Context} {m m' : String} {t t' : Token}

/-- A context whose scopes are renamed. -/
structure Context.Renamed (κ : Renaming) (os : List Opener) (c c' : Context) : Prop where
  scopes : κ.Scopes os c.scopes c'.scopes
  function : c'.function = c.function
  enclosingClass : c'.enclosingClass = c.enclosingClass

namespace Context.Renamed

theorem root : Context.Renamed κ [] {} {} := ⟨.nil, rfl, rfl⟩

theorem distance? (hκ : κ.Lawful) (h : Context.Renamed κ os c c')
    (hm : κ.Meets m m' os c.scopes) : c'.distance? m' = c.distance? m := by
  obtain ⟨ss, kind, cls⟩ := c
  obtain ⟨ss', kind', cls'⟩ := c'
  obtain ⟨hscopes, -, -⟩ := h
  simp only [Context.distance?] at hm hscopes ⊢
  -- a scope that does not hold the name leaves the search to those around it, where the new name
  -- still means the same
  induction hscopes with
  | nil => rfl
  | @cons o os s ss ss' _ ih =>
    have hfind := Renaming.find?_scope hκ hm
    simp only [List.findIdx?_cons, Table.has, hfind]
    split
    · rfl
    · next hhas =>
      rw [Renaming.Meets, if_neg (by simpa [Table.has] using hhas)] at hm
      simp only [Table.has] at ih
      rw [ih hm.2]

theorem inInitializer (hκ : κ.Lawful) (h : Context.Renamed κ os c c')
    (hm : κ.Meets m m' os c.scopes) : c'.inInitializer m' = c.inInitializer m := by
  obtain ⟨ss, kind, cls⟩ := c
  obtain ⟨ss', kind', cls'⟩ := c'
  obtain ⟨hscopes, -, -⟩ := h
  cases hscopes with
  | nil => rfl
  | cons => simp only [Context.inInitializer, Renaming.find?_scope hκ hm]

theorem setName (hκ : κ.Lawful) (h : Context.Renamed κ os c c') (hm : κ.Declares m m' os)
    (ended : Bool) : Context.Renamed κ os (c.setName m ended) (c'.setName m' ended) := by
  obtain ⟨ss, kind, cls⟩ := c
  obtain ⟨ss', kind', cls'⟩ := c'
  obtain ⟨hscopes, hfunction, hclass⟩ := h
  cases hscopes with
  | nil => exact ⟨.nil, hfunction, hclass⟩
  | @cons o os s _ _ hrest =>
    obtain rfl : m' = κ.scope o m := hm
    refine ⟨?_, hfunction, hclass⟩
    simp only [Context.setName, ← Table.rename_set (hκ.injective o)]
    exact .cons hrest

theorem declares (hκ : κ.Lawful) (h : Context.Renamed κ os c c') (hm : κ.Declares m m' os) :
    c'.declares m' = c.declares m := by
  obtain ⟨ss, kind, cls⟩ := c
  obtain ⟨ss', kind', cls'⟩ := c'
  obtain ⟨hscopes, -, -⟩ := h
  cases hscopes with
  | nil => rfl
  | @cons o =>
    obtain rfl : m' = κ.scope o m := hm
    simp only [Context.declares, Table.has, Table.find?_rename (hκ.injective o)]

theorem enter (h : Context.Renamed κ os c c') (o : Opener) :
    Context.Renamed κ (o :: os) (c.enter .empty) (c'.enter .empty) :=
  ⟨.cons (o := o) (s := .empty) h.scopes, h.function, h.enclosingClass⟩

theorem enterAs (h : Context.Renamed κ os c c') (o : Opener) (kind : FunctionKind) :
    Context.Renamed κ (o :: os) { c.enter .empty with function := kind }
      { c'.enter .empty with function := kind } :=
  ⟨(h.enter o).scopes, rfl, h.enclosingClass⟩

theorem declare_define (hκ : κ.Lawful) (h : Context.Renamed κ os c c')
    (hm : κ.Declares t.lexeme t'.lexeme os) :
    Context.Renamed κ os ((c.declare t).define t) ((c'.declare t').define t') :=
  (h.setName hκ hm false).setName hκ hm true

/-- The scope of a function under its parameters. -/
theorem foldl (hκ : κ.Lawful) {ps ps' : List Token}
    (hps : List.Forall₂ (fun t t' => κ.Declares t.lexeme t'.lexeme os) ps ps')
    (h : Context.Renamed κ os c c') :
    Context.Renamed κ os (ps.foldl (fun c p => (c.declare p).define p) c)
      (ps'.foldl (fun c p => (c.declare p).define p) c') := by
  induction hps generalizing c c' with
  | nil => exact h
  | cons hp _ ih => exact ih (h.declare_define hκ hp)

theorem enterFunction (hκ : κ.Lawful) {f : FunDecl Occurrence} {ps' : List Token}
    (hps : List.Forall₂ (fun t t' => t'.lexeme = κ.scope (.function f) t.lexeme) f.params ps')
    (h : Context.Renamed κ os c c') (kind : FunctionKind) :
    Context.Renamed κ (.function f :: os) (c.enterFunction kind f.params)
      (c'.enterFunction kind ps') :=
  foldl hκ hps (h.enterAs _ kind)

/-- The scopes of a class have reserved words for names. -/
theorem enterClass {μ : Type} (hκ : κ.Lawful) (h : Context.Renamed κ os c c') (m : Members)
    {r : Option (Ref Occurrence)} {r' : Option (Ref μ)} (hr : r.isSome = r'.isSome) :
    Context.Renamed κ (m.openers r ++ os) (c.enterClass r) (c'.enterClass r') := by
  have hword : ∀ o (k : Keyword), (Table.empty.set k.text true : Scope).rename (κ.scope o) =
      Table.empty.set k.text true := fun o k => by
    rw [Table.rename_set (hκ.injective o), hκ.word o k, Table.rename_empty]
  have hthis := hword (.receiver m) .thisWord
  have hsuper := hword (.superclass m) .superWord
  -- the scope of `super`, if there is one, is around that of `this`
  cases r with
  | none =>
    obtain rfl : r' = none := by simpa using hr.symm
    refine ⟨?_, h.function, rfl⟩
    have hscopes := Renaming.Scopes.cons (o := .receiver m)
      (s := Table.empty.set Keyword.thisWord.text true) h.scopes
    rwa [hthis] at hscopes
  | some r =>
    obtain ⟨r', rfl⟩ := Option.isSome_iff_exists.1 hr.symm
    refine ⟨?_, h.function, rfl⟩
    have hscopes := Renaming.Scopes.cons (o := .receiver m)
      (s := Table.empty.set Keyword.thisWord.text true)
      (.cons (o := .superclass m) (s := Table.empty.set Keyword.superWord.text true) h.scopes)
    rwa [hthis, hsuper] at hscopes

end Context.Renamed

end Contexts

/-! ## Names at sites -/

/-- The texts of corresponding tokens: names of variables are renamed and nothing else. -/
structure Likeness.Spells {μ ν : Type} (L : Likeness μ ν) (text : Token → String) : Prop where
  token : ∀ {t t'}, L.token t t' → t'.lexeme = t.lexeme
  name : ∀ {t t'}, L.name t t' → t'.lexeme = text t

namespace Site

/-- The names that a node uses or declares are those that its scopes give. -/
def Suits (κ : Renaming) (p : Site) : Prop :=
  match p.node with
  | .expression (.variable r) | .expression (.assign r _) =>
    κ.Meets r.token.lexeme (κ.text r.token) p.openers p.context.scopes
  | .expression (.this r) | .expression (.super r _) =>
    κ.Meets r.token.lexeme r.token.lexeme p.openers p.context.scopes
  | .statement (.var t _) => κ.Declares t.lexeme (κ.text t) p.openers
  | .statement (.function f) => κ.Declares f.name.lexeme f.name.lexeme p.openers
  | .statement (.class t superclass _ _) => κ.Declares t.lexeme t.lexeme p.openers ∧
      ∀ r ∈ superclass, κ.text r.token = t.lexeme ↔ r.token.lexeme = t.lexeme
  | .function _ f => ∀ t ∈ f.params, κ.text t = κ.scope (.function f) t.lexeme
  | _ => True

/-- The names at a site and below it are those that their scopes give. -/
def AllSuit (κ : Renaming) (p : Site) : Prop := ∀ q, p.Reaches q → q.Suits κ

variable {κ : Renaming} {p q : Site}

theorem AllSuit.suits (h : p.AllSuit κ) : p.Suits κ := h p .refl

theorem AllSuit.below (h : p.AllSuit κ) (hq : p.Below q) : q.AllSuit κ :=
  fun r hr => h r (.head (mem_children_iff.2 hq) hr)

/-- Where every variable keeps its name, the names are the same. -/
theorem suits_keep (p : Site) : p.Suits .keep := by
  have hmeets : ∀ m os ss, Renaming.keep.Meets m m os ss := fun m os ss =>
    Renaming.meets_self (fun _ => Function.injective_id) (fun _ => rfl) os ss
  have hdeclares : ∀ m os, Renaming.keep.Declares m m os := fun m os => by cases os <;> rfl
  unfold Suits
  split
  · exact hmeets _ _ _
  · exact hmeets _ _ _
  · exact hmeets _ _ _
  · exact hmeets _ _ _
  · exact hdeclares _ _
  · exact hdeclares _ _
  · exact ⟨hdeclares _ _, fun _ _ => Iff.rfl⟩
  · exact fun _ _ => rfl
  · trivial

end Site

/-! ## Findings -/

/-- Tokens that correspond, whatever they name. -/
def Likeness.either {μ ν : Type} (L : Likeness μ ν) (t t' : Token) : Prop :=
  L.token t t' ∨ L.name t t'

/-- Findings of the same kind, with corresponding references or tokens. -/
inductive Finding.Twin {μ ν : Type} (L : Likeness μ ν) : Finding μ → Finding ν → Prop where
  | resolved {r : Ref μ} {r' : Ref ν} (label : Label) (h : r.Twin L.either L.mark r') (d : Nat) :
      Twin L (.resolved label r d) (.resolved label r' d)
  | misuse {t t' : Token} (h : L.either t t') (e : ScopeError) :
      Twin L (.ofToken t e) (.ofToken t' e)

/-- Lists of corresponding findings. -/
abbrev Findings {μ ν : Type} (L : Likeness μ ν) : List (Finding μ) → List (Finding ν) → Prop :=
  List.Forall₂ (Finding.Twin L)

section Resolve

variable {ν : Type} {L : Likeness Occurrence ν} {κ : Renaming} {os : List Opener}
  {c c' : Context} {t t' : Token}

theorem Findings.append {as bs : List (Finding Occurrence)} {as' bs' : List (Finding ν)}
    (ha : Findings L as as') (hb : Findings L bs bs') : Findings L (as ++ bs) (as' ++ bs') :=
  List.rel_append ha hb

/-- One misuse or none. -/
theorem Findings.ite {b b' : Prop} [Decidable b] [Decidable b'] (h : b' ↔ b)
    (ht : L.either t t') (e : ScopeError) :
    Findings L (if b then [.ofToken t e] else []) (if b' then [.ofToken t' e] else []) := by
  by_cases hb : b
  · rw [if_pos hb, if_pos (h.2 hb)]
    exact .cons (.misuse ht e) .nil
  · rw [if_neg hb, if_neg fun h' => hb (h.1 h')]
    exact .nil

namespace Context.Renamed

theorem redeclaration (hκ : κ.Lawful) (h : Context.Renamed κ os c c')
    (hm : κ.Declares t.lexeme t'.lexeme os) (ht : L.either t t') :
    Findings L (c.redeclaration t) (c'.redeclaration t') :=
  Findings.ite (by rw [h.declares hκ hm]) ht _

theorem locate (hκ : κ.Lawful) (h : Context.Renamed κ os c c') {r : Ref Occurrence} {r' : Ref ν}
    (hm : κ.Meets r.token.lexeme r'.token.lexeme os c.scopes) (hr : r.Twin L.either L.mark r')
    (label : Label) : Findings L (c.locate label r) (c'.locate label r') := by
  unfold Context.locate
  rw [h.distance? hκ hm]
  cases c.distance? r.token.lexeme with
  | none => exact .nil
  | some d => exact .cons (.resolved label hr d) .nil

theorem parameterFindings (hκ : κ.Lawful) {ps ps' : List Token}
    (h : Context.Renamed κ os c c')
    (hps : List.Forall₂ (fun t t' => L.name t t' ∧ κ.Declares t.lexeme t'.lexeme os) ps ps') :
    Findings L (c.parameterFindings ps) (c'.parameterFindings ps') := by
  induction hps generalizing c c' with
  | nil => exact .nil
  | cons hp _ ih =>
    exact (h.redeclaration hκ hp.2 (.inr hp.1)).append (ih (h.declare_define hκ hp.2))

end Context.Renamed

theorem Likeness.Use.either {r : Ref Occurrence} {r' : Ref ν} (h : L.Use r r') :
    r.Twin L.either L.mark r' :=
  ⟨.inr h.token, h.mark⟩

theorem Likeness.Word.either {r : Ref Occurrence} {r' : Ref ν} (h : L.Word r r') :
    r.Twin L.either L.mark r' :=
  ⟨.inl h.token, h.mark⟩

namespace Likeness.Spells

variable {ss : List Scope} {r : Ref Occurrence} {r' : Ref ν}

theorem meets_use (hL : L.Spells κ.text) (h : L.Use r r')
    (hm : κ.Meets r.token.lexeme (κ.text r.token) os ss) :
    κ.Meets r.token.lexeme r'.token.lexeme os ss := by
  rwa [hL.name h.token]

theorem meets_word (hL : L.Spells κ.text) (h : L.Word r r')
    (hm : κ.Meets r.token.lexeme r.token.lexeme os ss) :
    κ.Meets r.token.lexeme r'.token.lexeme os ss := by
  rwa [hL.token h.token]

theorem declares_name (hL : L.Spells κ.text) (h : L.name t t')
    (hm : κ.Declares t.lexeme (κ.text t) os) : κ.Declares t.lexeme t'.lexeme os := by
  rwa [hL.name h]

theorem declares_token (hL : L.Spells κ.text) (h : L.token t t')
    (hm : κ.Declares t.lexeme t.lexeme os) : κ.Declares t.lexeme t'.lexeme os := by
  rwa [hL.token h]

/-- The names of parameters become what one renaming makes of them. -/
theorem names {text : Token → String} {f : String → String} {ps ps' : List Token}
    (hL : L.Spells text) (h : List.Forall₂ L.name ps ps')
    (hf : ∀ t ∈ ps, text t = f t.lexeme) :
    List.Forall₂ (fun t t' => L.name t t' ∧ t'.lexeme = f t.lexeme) ps ps' := by
  induction h with
  | nil => exact .nil
  | cons h _ ih =>
    obtain ⟨hp, hps⟩ := List.forall_mem_cons.1 hf
    exact .cons ⟨h, (hL.name h).trans hp⟩ (ih hps)

end Likeness.Spells

theorem Expr.twin_variable (hκ : κ.Lawful) (hL : L.Spells κ.text)
    (hc : Context.Renamed κ os c c') {r : Ref Occurrence} {r' : Ref ν} (h : L.Use r r')
    (hs : Site.Suits κ ⟨c, os, .expression (.variable r)⟩) :
    Findings L ((Expr.variable r).resolve c) ((Expr.variable r').resolve c') := by
  have hm := hL.meets_use h hs
  simp only [Expr.resolve]
  refine (Findings.ite ?_ (.inr h.token) _).append (hc.locate hκ hm h.either .variable)
  rw [hc.inInitializer hκ hm]

mutual

/-- The findings of twin expressions correspond. -/
theorem Expr.twin_resolve (hκ : κ.Lawful) (hL : L.Spells κ.text)
    (hc : Context.Renamed κ os c c') : (e : Expr Occurrence) → {e' : Expr ν} → e.Twin L e' →
      Site.AllSuit κ ⟨c, os, .expression e⟩ → Findings L (e.resolve c) (e'.resolve c')
  | .literal _, _, .literal _, _ => .nil
  | .variable _, _, .variable h, hs => Expr.twin_variable hκ hL hc h hs.suits
  | .assign r e, _, .assign h he, hs => by
    have hm := hL.meets_use h hs.suits
    exact (Expr.twin_resolve hκ hL hc e he (hs.below (.operand (.head _)))).append
      (hc.locate hκ hm h.either .assign)
  | .binary a _ _ b, _, .binary _ ha _ hb, hs =>
    (Expr.twin_resolve hκ hL hc a ha (hs.below (.operand (.head _)))).append
      (Expr.twin_resolve hκ hL hc b hb (hs.below (.operand (.tail _ (.head _)))))
  | .logical a _ _ b, _, .logical _ ha _ hb, hs =>
    (Expr.twin_resolve hκ hL hc a ha (hs.below (.operand (.head _)))).append
      (Expr.twin_resolve hκ hL hc b hb (hs.below (.operand (.tail _ (.head _)))))
  | .unary _ _ e, _, .unary _ _ he, hs =>
    (Expr.twin_resolve hκ hL hc e he (hs.below (.operand (.head _))) :)
  | .ternary _ x y z, _, .ternary _ hx hy hz, hs =>
    ((Expr.twin_resolve hκ hL hc x hx (hs.below (.operand (.head _)))).append
      (Expr.twin_resolve hκ hL hc y hy (hs.below (.operand (.tail _ (.head _)))))).append
      (Expr.twin_resolve hκ hL hc z hz (hs.below (.operand (.tail _ (.tail _ (.head _))))))
  | .group e, _, .group he, hs =>
    (Expr.twin_resolve hκ hL hc e he (hs.below (.operand (.head _))) :)
  | .call e _ es, _, .call he _ hes, hs =>
    (Expr.twin_resolve hκ hL hc e he (hs.below (.operand (.head _)))).append
      (Expr.twin_resolveAll hκ hL hc es hes fun a ha =>
        hs.below (.operand (.tail _ ha)))
  | .field e _, _, .field he _, hs =>
    (Expr.twin_resolve hκ hL hc e he (hs.below (.operand (.head _))) :)
  -- a value is resolved before the object that it is put into
  | .setField a _ b, _, .setField ha _ hb, hs =>
    (Expr.twin_resolve hκ hL hc b hb (hs.below (.operand (.tail _ (.head _))))).append
      (Expr.twin_resolve hκ hL hc a ha (hs.below (.operand (.head _))))
  | .this r, _, .this h, hs => by
    have hm := hL.meets_word h hs.suits
    simp only [Expr.resolve, hc.enclosingClass]
    split
    · exact .cons (.misuse (.inl h.token) _) .nil
    · exact hc.locate hκ hm h.either .thisRef
    · exact hc.locate hκ hm h.either .thisRef
  | .super r _, _, .super h _, hs => by
    have hm := hL.meets_word h hs.suits
    simp only [Expr.resolve, hc.enclosingClass]
    split
    · exact .cons (.misuse (.inl h.token) _) .nil
    · exact .cons (.misuse (.inl h.token) _) .nil
    · exact hc.locate hκ hm h.either .superRef

theorem Expr.twin_resolveAll (hκ : κ.Lawful) (hL : L.Spells κ.text)
    (hc : Context.Renamed κ os c c') : (es : List (Expr Occurrence)) → {es' : List (Expr ν)} →
      List.Forall₂ (Expr.Twin L) es es' →
      (∀ e ∈ es, Site.AllSuit κ ⟨c, os, .expression e⟩) →
      Findings L (Expr.resolveAll c es) (Expr.resolveAll c' es')
  | [], _, .nil, _ => .nil
  | e :: es, _, .cons he hes, hs =>
    (Expr.twin_resolve hκ hL hc e he (hs e (.head _))).append
      (Expr.twin_resolveAll hκ hL hc es hes fun a ha => hs a (.tail _ ha))

end

theorem Expr.twin_resolve? (hκ : κ.Lawful) (hL : L.Spells κ.text)
    (hc : Context.Renamed κ os c c') {o : Option (Expr Occurrence)} {o' : Option (Expr ν)}
    (h : Option.Rel (Expr.Twin L) o o') (hs : ∀ e ∈ o, Site.AllSuit κ ⟨c, os, .expression e⟩) :
    Findings L (Expr.resolve? c o) (Expr.resolve? c' o') := by
  cases h with
  | none => exact .nil
  | some h => exact Expr.twin_resolve hκ hL hc _ h (hs _ rfl)

/-! ## Statements -/

theorem FunDecl.Twin.name {f : FunDecl Occurrence} {f' : FunDecl ν} (h : f.Twin L f') :
    L.token f.name f'.name := by
  cases h with
  | mk ht => exact ht

theorem FunDecl.Twin.params {f : FunDecl Occurrence} {f' : FunDecl ν} (h : f.Twin L f') :
    List.Forall₂ L.name f.params f'.params := by
  cases h with
  | mk _ hp => exact hp

theorem FunDecl.Twin.body {f : FunDecl Occurrence} {f' : FunDecl ν} (h : f.Twin L f') :
    List.Forall₂ (Stmt.Twin L) f.body f'.body := by
  cases h with
  | mk _ _ h => exact h

theorem FunDecl.Twin.isInitName {text : Token → String} (hL : L.Spells text)
    {f : FunDecl Occurrence} {f' : FunDecl ν} (h : f.Twin L f') :
    f'.isInitName = f.isInitName := by
  rw [FunDecl.isInitName, FunDecl.isInitName, hL.token h.name]

theorem FunDecl.Twin.methodKind (hL : L.Spells κ.text) {f : FunDecl Occurrence} {f' : FunDecl ν}
    (h : f.Twin L f') : f'.methodKind = f.methodKind := by
  rw [FunDecl.methodKind, FunDecl.methodKind, h.isInitName hL]

theorem Context.twin_classFindings (hκ : κ.Lawful) (hL : L.Spells κ.text)
    (hc : Context.Renamed κ os c c') (ht : L.token t t') {o : Option (Ref Occurrence)}
    {o' : Option (Ref ν)} (h : Option.Rel L.Use o o')
    (hname : ∀ r ∈ o, κ.text r.token = t.lexeme ↔ r.token.lexeme = t.lexeme)
    (hs : ∀ r ∈ o, Site.Suits κ ⟨c, os, .expression (.variable r)⟩) :
    Findings L (c.classFindings t o) (c'.classFindings t' o') := by
  cases h with
  | none => exact .nil
  | @some r r' h =>
    refine (Findings.ite ?_ (.inr h.token) _).append (Expr.twin_variable hκ hL hc h (hs r rfl))
    rw [hL.name h.token, hL.token ht]
    exact hname r rfl

theorem Context.twin_returnFindings (hκ : κ.Lawful) (hL : L.Spells κ.text)
    (hc : Context.Renamed κ os c c') (ht : L.token t t') {o : Option (Expr Occurrence)}
    {o' : Option (Expr ν)} (h : Option.Rel (Expr.Twin L) o o')
    (hs : ∀ e ∈ o, Site.AllSuit κ ⟨c, os, .expression e⟩) :
    Findings L (c.returnFindings t o) (c'.returnFindings t' o') := by
  unfold Context.returnFindings
  refine ((Findings.ite ?_ (.inl ht) _).append (Findings.ite ?_ (.inl ht) _)).append
    (Expr.twin_resolve? hκ hL hc h hs)
  · rw [hc.function]
  · rw [hc.function, h.isSome_eq]

mutual

/-- Twin statements lead to corresponding contexts, and their findings correspond. -/
theorem Stmt.twin_resolve (hκ : κ.Lawful) (hL : L.Spells κ.text) : (s : Stmt Occurrence) →
    {s' : Stmt ν} → s.Twin L s' → {os : List Opener} → {c c' : Context} →
      Context.Renamed κ os c c' → Site.AllSuit κ ⟨c, os, .statement s⟩ →
      Context.Renamed κ os (s.resolve c).1 (s'.resolve c').1 ∧
        Findings L (s.resolve c).2 (s'.resolve c').2
  | .expression e, _, .expression he, _, _, _, hc, hs =>
    ⟨hc, (Expr.twin_resolve hκ hL hc e he (hs.below (.value (.head _))) :)⟩
  | .print e, _, .print he, _, _, _, hc, hs =>
    ⟨hc, (Expr.twin_resolve hκ hL hc e he (hs.below (.value (.head _))) :)⟩
  | .var t o, _, .var ht ho, _, _, _, hc, hs =>
    have hm := hL.declares_name ht hs.suits
    ⟨hc.declare_define hκ hm, (hc.redeclaration hκ hm (.inr ht)).append
      (Expr.twin_resolve? hκ hL (hc.setName hκ hm false) ho fun e he =>
        hs.below (by cases he; exact .initializer ..))⟩
  | .block ss, _, .block h, _, _, _, hc, hs =>
    ⟨hc, (Stmt.twin_resolveAll hκ hL ss h (hc.enter _) (hs.below (.block ..))).2⟩
  -- a branch is resolved in the scope around it, and what it declares there stays
  | .ifThen e s, _, .ifThen he h, _, _, _, hc, hs =>
    have ⟨hc', hfindings⟩ := Stmt.twin_resolve hκ hL s h hc (hs.below (.branch rfl))
    ⟨hc', (Expr.twin_resolve hκ hL hc e he (hs.below (.value (.head _)))).append hfindings⟩
  | .ifElse e s r, _, .ifElse he h hr, _, _, _, hc, hs =>
    have ⟨hc', hfindings⟩ := Stmt.twin_resolve hκ hL s h hc (hs.below (.branch rfl))
    have ⟨hc'', hfindings'⟩ := Stmt.twin_resolve hκ hL r hr hc' (hs.below (.elseBranch ..))
    ⟨hc'', ((Expr.twin_resolve hκ hL hc e he (hs.below (.value (.head _)))).append
      hfindings).append hfindings'⟩
  | .while e s, _, .while he h, _, _, _, hc, hs =>
    have ⟨hc', hfindings⟩ := Stmt.twin_resolve hκ hL s h hc (hs.below (.branch rfl))
    ⟨hc', (Expr.twin_resolve hκ hL hc e he (hs.below (.value (.head _)))).append hfindings⟩
  | .function f, _, .function h, _, _, _, hc, hs =>
    have hm := hL.declares_token h.name hs.suits
    have hc' := hc.declare_define hκ hm
    ⟨hc', (hc.redeclaration hκ hm (.inl h.name)).append
      (Stmt.twin_resolveFunction hκ hL f h hc' _ (hs.below (.function ..)))⟩
  | .return _ o, _, .return ht ho, _, _, _, hc, hs =>
    ⟨hc, Context.twin_returnFindings hκ hL hc ht ho fun e he =>
      hs.below (.value (Option.mem_toList.2 he))⟩
  | .class t o ss ms, _, .class ht ho hss hms, os, _, _, hc, hs => by
    obtain ⟨hm, hname⟩ := hs.suits
    have hm := hL.declares_token ht hm
    have hc' := hc.declare_define hκ hm
    have hsome := ho.isSome_eq
    have hinside := hc'.enterClass hκ ⟨t, ss, ms⟩ hsome
    -- the class is declared before its superclass is looked up, and methods come before static ones
    refine ⟨hc', (((hc.redeclaration hκ hm (.inl ht)).append
      (Context.twin_classFindings hκ hL hc' ht ho hname fun r hr => ?_)).append
      (Stmt.twin_resolveMethods hκ hL ms hms hinside fun f hf => ?_)).append
      (Stmt.twin_resolveStatics hκ hL ss hss hinside fun f hf => ?_)⟩
    · cases hr
      exact (hs.below (.superclass ..)).suits
    · exact hs.below (.method _ os t o ss hf)
    · exact hs.below (.static _ os t o ms hf)

theorem Stmt.twin_resolveFunction (hκ : κ.Lawful) (hL : L.Spells κ.text) :
    (f : FunDecl Occurrence) → {f' : FunDecl ν} → f.Twin L f' → {os : List Opener} →
      {c c' : Context} → Context.Renamed κ os c c' → (kind : FunctionKind) →
      Site.AllSuit κ ⟨c, os, .function kind f⟩ →
      Findings L (Stmt.resolveFunction c kind f) (Stmt.resolveFunction c' kind f')
  | .mk name ps ss, _, .mk _ hp h, _, _, _, hc, kind, hs => by
    have hnames : ∀ t ∈ ps, κ.text t = κ.scope (.function (.mk name ps ss)) t.lexeme := hs.suits
    have hps := hL.names hp hnames
    have hin := hc.enterAs (.function (.mk name ps ss)) kind
    have hbody := hc.enterFunction hκ (f := .mk name ps ss) (hps.imp fun _ _ h => h.2) kind
    exact (hin.parameterFindings hκ hps).append
      (Stmt.twin_resolveAll hκ hL ss h hbody (hs.below (.body ..))).2

theorem Stmt.twin_resolveAll (hκ : κ.Lawful) (hL : L.Spells κ.text) :
    (ss : List (Stmt Occurrence)) → {ss' : List (Stmt ν)} → List.Forall₂ (Stmt.Twin L) ss ss' →
      {os : List Opener} → {c c' : Context} → Context.Renamed κ os c c' →
      Site.AllSuit κ ⟨c, os, .body ss⟩ →
      Context.Renamed κ os (Stmt.resolveAll c ss).1 (Stmt.resolveAll c' ss').1 ∧
        Findings L (Stmt.resolveAll c ss).2 (Stmt.resolveAll c' ss').2
  | [], _, .nil, _, _, _, hc, _ => ⟨hc, .nil⟩
  | s :: ss, _, .cons h hss, _, _, _, hc, hs =>
    have ⟨hc', hfindings⟩ := Stmt.twin_resolve hκ hL s h hc (hs.below (.first ..))
    have ⟨hc'', hfindings'⟩ :=
      Stmt.twin_resolveAll hκ hL ss hss hc' (hs.below (.rest ..))
    ⟨hc'', hfindings.append hfindings'⟩

theorem Stmt.twin_resolveMethods (hκ : κ.Lawful) (hL : L.Spells κ.text) :
    (fs : List (FunDecl Occurrence)) → {fs' : List (FunDecl ν)} →
      List.Forall₂ (FunDecl.Twin L) fs fs' → {os : List Opener} → {c c' : Context} →
      Context.Renamed κ os c c' →
      (∀ f ∈ fs, Site.AllSuit κ ⟨c, os, .function f.methodKind f⟩) →
      Findings L (Stmt.resolveMethods c fs) (Stmt.resolveMethods c' fs')
  | [], _, .nil, _, _, _, _, _ => .nil
  | f :: fs, _, .cons h hfs, _, _, _, hc, hs => by
    simp only [Stmt.resolveMethods]
    rw [h.methodKind hL]
    exact (Stmt.twin_resolveFunction hκ hL f h hc _ (hs f (.head _))).append
      (Stmt.twin_resolveMethods hκ hL fs hfs hc fun g hg => hs g (.tail _ hg))

theorem Stmt.twin_resolveStatics (hκ : κ.Lawful) (hL : L.Spells κ.text) :
    (fs : List (FunDecl Occurrence)) → {fs' : List (FunDecl ν)} →
      List.Forall₂ (FunDecl.Twin L) fs fs' → {os : List Opener} → {c c' : Context} →
      Context.Renamed κ os c c' → (∀ f ∈ fs, Site.AllSuit κ ⟨c, os, .function .method f⟩) →
      Findings L (Stmt.resolveStatics c fs) (Stmt.resolveStatics c' fs')
  | [], _, .nil, _, _, _, _, _ => .nil
  | f :: fs, _, .cons h hfs, _, _, _, hc, hs =>
    (Stmt.twin_resolveFunction hκ hL f h hc _ (hs f (.head _))).append
      (Stmt.twin_resolveStatics hκ hL fs hfs hc fun g hg => hs g (.tail _ hg))

end

end Resolve

/-! ## Distances and reports -/

section Distances

variable {μ ν : Type} {L : Likeness μ ν}

/-- Corresponding findings have the same distances for corresponding marks. -/
theorem Findings.entries {fs : List (Finding μ)} {fs' : List (Finding ν)} (h : Findings L fs fs') :
    List.Forall₂ (fun x y => L.mark x.1 y.1 ∧ x.2 = y.2) (fs.filterMap Finding.entry?)
      (fs'.filterMap Finding.entry?) := by
  induction h with
  | nil => exact .nil
  | cons h _ ih =>
    cases h with
    | resolved label h d => exact .cons ⟨h.mark, rfl⟩ ih
    | misuse => exact ih

/-- Something is reported in both or in none. -/
theorem Findings.reports_eq_nil {fs : List (Finding μ)} {fs' : List (Finding ν)}
    (h : Findings L fs fs') :
    fs'.filterMap Finding.report? = [] ↔ fs.filterMap Finding.report? = [] := by
  induction h with
  | nil => rfl
  | cons h _ ih =>
    cases h with
    | resolved => exact ih
    | misuse => simp [Finding.ofToken, Finding.report?]

end Distances

namespace Resolved

variable {μ ν : Type} {L : Likeness Unit Unit} {κ : Renaming} {body body' : List (Stmt Unit)}

/-- Twins that are numbered from two numbers on and resolved. -/
theorem twin_ofProgram (hκ : κ.Lawful) (hL : L.Spells κ.text) (n m : Nat)
    (h : List.Forall₂ (Stmt.Twin L) body body')
    (hs : Site.AllSuit κ ⟨{}, [], .body (ofProgram n body).body⟩) :
    List.Forall₂ (Stmt.Twin (L.numbered n m)) (ofProgram n body).body (ofProgram m body').body ∧
      Shifted n m (ofProgram n body).next (ofProgram m body').next ∧
      Findings (L.numbered n m) (ofProgram n body).findings (ofProgram m body').findings := by
  obtain ⟨hbody, hnext⟩ := Stmt.twin_numberAll body h (.start n m)
  have hspells : (L.numbered n m).Spells κ.text := ⟨hL.token, hL.name⟩
  exact ⟨hbody, hnext, (Stmt.twin_resolveAll hκ hspells _ hbody .root hs).2⟩

end Resolved

namespace Locals

variable {l l' : Locals} {p q i j : Occurrence}

/-- Two occurrences with a recorded distance, the same for both, or with none. -/
structure Agree (l l' : Locals) (i j : Occurrence) : Prop where
  left : i < l.next
  right : j < l'.next
  distance? : l.distance? i = l'.distance? j

theorem Agree.symm (h : l.Agree l' i j) : l'.Agree l j i := ⟨h.right, h.left, h.distance?.symm⟩

/-- Recording more on one side keeps what two occurrences agree on. -/
theorem Agree.extend_left {m : Locals} (h : l.Agree l' i j) (hm : l.Extends m) :
    m.Agree l' i j where
  left := Nat.lt_of_lt_of_le h.left hm.le
  right := h.right
  distance? := by rw [hm.distance? i h.left, h.distance?]

theorem Agree.extend_right {m : Locals} (h : l.Agree l' i j) (hm : l'.Extends m) :
    l.Agree m i j :=
  (h.symm.extend_left hm).symm

/-- Setting the same distances for shifted occurrences. -/
theorem distance?_setAll_shifted {es es' : List (Occurrence × Nat)}
    (h : List.Forall₂ (fun x y => Shifted p q x.1 y.1 ∧ x.2 = y.2) es es')
    (hnext : Shifted p q l.next l'.next)
    (hl : ∀ i j, Shifted p q i j → p ≤ i → l.distance? i = l'.distance? j)
    (hij : Shifted p q i j) (hi : p ≤ i) :
    (l.setAll es).distance? i = (l'.setAll es').distance? j := by
  induction h generalizing l l' with
  | nil => exact hl i j hij hi
  | @cons x y es es' hxy _ ih =>
    obtain ⟨hmark, hd⟩ := hxy
    refine @ih (l.set x.1 x.2) (l'.set y.1 y.2) (by simpa using hnext) ?_
    intro a b hab ha
    have hiff := hab.eq_iff hmark
    by_cases hax : a = x.1
    · obtain rfl := hax
      obtain rfl := hiff.1 rfl
      by_cases hlt : x.1 < l.next
      · rw [distance?_set_self hlt, distance?_set_self ((hab.lt_iff hnext).1 hlt), hd]
      · have hge := mt (hab.lt_iff hnext).2 hlt
        rw [distance?_of_next_le (by simpa using hlt), distance?_of_next_le (by simpa using hge)]
    · rw [distance?_set_of_ne _ _ hax, distance?_set_of_ne _ _ fun h => hax (hiff.2 h)]
      exact hl a b hab ha

end Locals

namespace Resolved

variable {L : Likeness Unit Unit} {κ : Renaming} {body body' : List (Stmt Unit)}

/-- The marks of a program that is recorded agree with those of its twin. -/
theorem agree_record (hκ : κ.Lawful) (hL : L.Spells κ.text) (l l' : Locals)
    (h : List.Forall₂ (Stmt.Twin L) body body')
    (hs : Site.AllSuit κ ⟨{}, [], .body (ofProgram l.next body).body⟩) {i j : Occurrence}
    (hi : i ∈ Stmt.marksAll (ofProgram l.next body).body) (hij : Shifted l.next l'.next i j) :
    (l.record (ofProgram l.next body)).Agree (l'.record (ofProgram l'.next body')) i j := by
  obtain ⟨-, hnext, hfindings⟩ := twin_ofProgram hκ hL l.next l'.next h hs
  have hnumbers := Locals.numbers_ofProgram l.next body
  have hnumbers' := Locals.numbers_ofProgram l'.next body'
  obtain ⟨hle, hlt⟩ := hnumbers.mem_iff.1 hi
  have hreserve := l.next_reserve _ hnumbers.le
  have hreserve' := l'.next_reserve _ hnumbers'.le
  refine ⟨?_, ?_, ?_⟩
  · rwa [Locals.next_record hnumbers.le]
  · rw [Locals.next_record hnumbers'.le]
    exact (hij.lt_iff hnext).1 hlt
  · refine Locals.distance?_setAll_shifted hfindings.entries ?_ (fun a b hab ha => ?_) hij hle
    · rwa [hreserve, hreserve']
    · have hb : l'.next ≤ b := Nat.not_lt.1 (mt (hab.lt_iff (.start _ _)).2 (Nat.not_lt.2 ha))
      rw [Locals.distance?_reserve, Locals.distance?_reserve, Locals.distance?_of_next_le ha,
        Locals.distance?_of_next_le hb]

/-- The likeness of programs that are recorded for one session and for another. -/
def likeness (L : Likeness Unit Unit) (l l' : Locals) : Likeness Occurrence Occurrence :=
  ⟨L.token, L.name, l.Agree l'⟩

/-- Twins that are recorded are twins, and their distances agree. -/
theorem twin_record (hκ : κ.Lawful) (hL : L.Spells κ.text) (l l' : Locals)
    (h : List.Forall₂ (Stmt.Twin L) body body')
    (hs : Site.AllSuit κ ⟨{}, [], .body (ofProgram l.next body).body⟩) :
    List.Forall₂ (Stmt.Twin (likeness L (l.record (ofProgram l.next body))
        (l'.record (ofProgram l'.next body')))) (ofProgram l.next body).body
      (ofProgram l'.next body').body := by
  obtain ⟨hbody, -⟩ := twin_ofProgram hκ hL l.next l'.next h hs
  refine Stmt.Twin.impAll _ hbody fun x hx => ?_
  cases x with
  | token t => exact fun _ h => h
  | name t => exact fun _ h => h
  | mark i =>
    have hi : i ∈ Stmt.marksAll (ofProgram l.next body).body := by
      rw [← Stmt.marks_partsAll]
      exact List.mem_filterMap.2 ⟨_, hx, rfl⟩
    exact fun j hij => agree_record hκ hL l l' h hs hi hij

end Resolved

end Lox
