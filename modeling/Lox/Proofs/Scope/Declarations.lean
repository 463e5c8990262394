import Lox.Proofs.Scope.Survey
import Lox.Proofs.Scope.Tokens
import Mathlib.Data.List.Nodup

/-!
# Declarations of scopes

Every open scope was opened by the node of a site further up, which tells the tokens that declare
its names. Where nothing is reported, no two of them have the same name: a redeclaration is found
when the walk comes to it, with the names before it in the innermost scope.

## Main definitions

* `Opener.declarations`: the tokens that declare the names of a scope
* `Site.opens`: the scopes that a node opens
* `Node.declarations`: the tokens that a node declares in the scope that it stands in

## Main results

* `Visited.exists_opens`: open scopes were opened at a site
* `Visited.declarations_subset`: what a node declares is declared by the innermost opener
* `Visited.eq_of_lexeme`: a scope of which nothing is reported declares no name twice
-/

namespace Lox

open Lox.Part (tokens)

/-- The tokens that statements declare in the scope that they stand in. -/
def Stmt.declaredTokens {μ : Type} (body : List (Stmt μ)) : List Token :=
  body.filterMap Stmt.declared?

namespace Opener

/-- The tokens that declare the names of a scope; nothing declares the reserved words. -/
def declarations : Opener → List Token
  | .block body => Stmt.declaredTokens body
  | .function decl => decl.params ++ Stmt.declaredTokens decl.body
  | .receiver _ | .superclass _ => []

end Opener

/-- The tokens that a node declares in the scope that it stands in. -/
def Node.declarations : Node → List Token
  | .expression _ | .function .. => []
  | .statement s => s.declared?.toList
  | .body ss => Stmt.declaredTokens ss

theorem Stmt.map_declaredTokens {μ : Type} (body : List (Stmt μ)) :
    (declaredTokens body).map (·.lexeme) = declaredNames body :=
  List.map_filterMap

theorem Stmt.declaredTokens_cons {μ : Type} (s : Stmt μ) (rest : List (Stmt μ)) :
    declaredTokens (s :: rest) = s.declared?.toList ++ declaredTokens rest := by
  cases hs : s.declared? <;> simp [declaredTokens, hs]

/-- A name of a scope is that of a token that declares it, or a reserved word. -/
theorem Opener.exists_of_mem_names {o : Opener} {n : String} (h : n ∈ o.names) :
    (∃ t ∈ o.declarations, t.lexeme = n) ∨ ∃ k : Keyword, n = k.text := by
  cases o with
  | block body =>
    rw [names, ← Stmt.map_declaredTokens] at h
    exact .inl (List.mem_map.1 h)
  | function decl =>
    rw [names, ← Stmt.map_declaredTokens, ← List.map_append] at h
    exact .inl (List.mem_map.1 h)
  | receiver => exact .inr ⟨.thisWord, List.mem_singleton.1 h⟩
  | superclass => exact .inr ⟨.superWord, List.mem_singleton.1 h⟩

/-- The scopes of a class have reserved words for names. -/
theorem Members.declarations_openers {m : Members} {r : Option (Ref Occurrence)} {o : Opener}
    (h : o ∈ m.openers r) : o.declarations = [] := by
  cases r with
  | none =>
    obtain rfl := List.mem_singleton.1 h
    rfl
  | some r =>
    simp only [openers, List.mem_cons, List.not_mem_nil, or_false] at h
    rcases h with rfl | rfl <;> rfl

/-- What a statement declares is one of its tokens. -/
theorem Stmt.mem_tokens_declared {μ : Type} {s : Stmt μ} {t : Token} (h : t ∈ s.declared?) :
    t ∈ tokens s.parts := by
  cases s with
  | var | «class» =>
    cases h
    exact .head _
  | function decl =>
    cases h
    cases decl
    exact .head _
  | _ => cases h

theorem Stmt.mem_tokens_declaredTokens {μ : Type} {ss : List (Stmt μ)} {t : Token}
    (h : t ∈ declaredTokens ss) : t ∈ tokens (partsAll ss) := by
  obtain ⟨s, hs, ht⟩ := List.mem_filterMap.1 h
  rw [partsAll_eq, tokens, List.filterMap_flatMap]
  exact List.mem_flatMap.2 ⟨s, hs, mem_tokens_declared ht⟩

/-! ## Opening scopes -/

namespace Site

variable {p q : Site}

/-- The scopes that a node opens around what stands in it, innermost first. -/
def opens (p : Site) : List Opener :=
  match p.node with
  | .statement (.block body) => [.block body]
  | .statement (.class name superclass statics methods) =>
    Members.openers ⟨name, statics, methods⟩ superclass
  | .function _ f => [.function f]
  | _ => []

/-- Below a site the same scopes are open, and nothing is declared in them but what the node
declares, or those that the node opens are open as well, and the innermost one declares what is
declared below. -/
theorem openers_child (hp : p.node.Genuine) (hq : q ∈ p.children) :
    (q.openers = p.openers ∧ q.node.declarations ⊆ p.node.declarations) ∨
      ∃ o rest, p.opens = o :: rest ∧ q.openers = p.opens ++ p.openers ∧
        q.node.declarations ⊆ o.declarations := by
  -- the branches of statements declare nothing
  have hbranch : ∀ {s : Stmt Occurrence}, s.declared? = none →
      (Node.statement s).declarations ⊆ p.node.declarations := by
    intro s hs
    simp [Node.declarations, hs]
  cases mem_children_iff.1 hq with
  | operand | value | initializer | function | superclass => exact .inl ⟨rfl, List.nil_subset _⟩
  | block => exact .inr ⟨_, _, rfl, rfl, List.Subset.refl _⟩
  | branch hb => exact .inl ⟨rfl, hbranch (hp.branch hb).2⟩
  | elseBranch => exact .inl ⟨rfl, hbranch hp.2.2.2.2⟩
  | method c os name r statics | static c os name r statics =>
    obtain ⟨o, rest, hopens⟩ := Members.exists_openers ⟨name, _, _⟩ r
    exact .inr ⟨o, rest, hopens, rfl, List.nil_subset _⟩
  | first c os s ss =>
    refine .inl ⟨rfl, ?_⟩
    rw [Node.declarations, Node.declarations, Stmt.declaredTokens_cons]
    exact List.subset_append_left _ _
  | rest c os s ss =>
    refine .inl ⟨rfl, ?_⟩
    rw [Node.declarations, Node.declarations, Stmt.declaredTokens_cons]
    exact List.subset_append_right _ _
  | body => exact .inr ⟨_, _, rfl, rfl, List.subset_append_right _ _⟩

/-- The tokens that declare the names of a scope are those of the node that opens it. -/
theorem mem_tokens_of_opens {o : Opener} (ho : o ∈ p.opens) {t : Token}
    (ht : t ∈ o.declarations) : t ∈ tokens p.parts := by
  obtain ⟨c, os, node⟩ := p
  cases node with
  | expression => cases ho
  | statement s =>
    cases s with
    | block body =>
      obtain rfl := List.mem_singleton.1 ho
      exact Stmt.mem_tokens_declaredTokens ht
    | «class» name superclass =>
      rw [Members.declarations_openers ho] at ht
      cases ht
    | _ => cases ho
  | body => cases ho
  | function kind f =>
    obtain rfl := List.mem_singleton.1 ho
    obtain ⟨name, params, body⟩ := f
    refine .tail _ ?_
    show t ∈ tokens (params.map Part.name ++ Stmt.partsAll body)
    rw [Part.tokens_append, Part.tokens_map_name]
    rcases List.mem_append.1 ht with ht | ht
    · exact List.mem_append_left _ ht
    · exact List.mem_append_right _ (Stmt.mem_tokens_declaredTokens ht)

end Site

namespace Visited

variable {body : List (Stmt Occurrence)} {l : Locals} {p : Site} {o : Opener} {t : Token}

/-- Open scopes were opened by the node of a site of the walk. -/
theorem exists_opens (hs : Surveyed l (Visited body)) (h : Visited body p) (ho : o ∈ p.openers) :
    ∃ q, Visited body q ∧ o ∈ q.opens := by
  induction h with
  | root => cases ho
  | @child p q hp hq ih =>
    rcases Site.openers_child (hs.settled hp).genuine hq with
      ⟨hopeners, -⟩ | ⟨-, -, -, hopeners, -⟩ <;> rw [hopeners] at ho
    · exact ih ho
    · rcases List.mem_append.1 ho with ho | ho
      · exact ⟨p, hp, ho⟩
      · exact ih ho

/-- What a node declares is declared by the innermost opener. -/
theorem declarations_subset (hs : Surveyed l (Visited body)) (h : Visited body p) :
    ∀ o ∈ p.openers.head?, p.node.declarations ⊆ o.declarations := by
  induction h with
  | root => simp
  | @child p q hp hq ih =>
    rcases Site.openers_child (hs.settled hp).genuine hq with
      ⟨hopeners, hsubset⟩ | ⟨o, rest, hopens, hopeners, hsubset⟩
    · rw [hopeners]
      exact fun o ho => List.Subset.trans hsubset (ih o ho)
    · rw [hopeners, hopens]
      rintro o ⟨⟩
      exact hsubset

/-- What an open scope declares is a token of the program. -/
theorem mem_tokens_of_declarations (hs : Surveyed l (Visited body)) (h : Visited body p)
    (ho : o ∈ p.openers) (ht : t ∈ o.declarations) : t ∈ tokens (Stmt.partsAll body) := by
  obtain ⟨q, hq, ho⟩ := h.exists_opens hs ho
  exact hq.mem_whole Site.lists_tokens (Site.mem_tokens_of_opens ho ht)

end Visited

/-! ## Names that are declared once -/

namespace Context

variable {c : Context} {scope : Scope} {outer : List Scope}

/-- A name of which no redeclaration is reported is new in the innermost scope. -/
theorem has_of_redeclaration {t : Token} (hc : c.scopes = scope :: outer)
    (h : ∀ f ∈ (c.redeclaration t : List (Finding Occurrence)), f.report? = none) :
    ¬ scope.has t.lexeme := by
  intro hhas
  have hreport := h (.ofToken t .redeclared) (by simp [redeclaration, declares, hc, hhas])
  cases hreport

/-- The innermost scope when a name is declared in it. -/
theorem scopes_declared (hc : c.scopes = scope :: outer) (t : Token) :
    ∃ inner, (c.declared (some t)).scopes = inner :: outer ∧
      ∀ n, inner.has n ↔ n = t.lexeme ∨ scope.has n := by
  refine ⟨_, scopes_setName_cons (scopes_setName_cons hc), fun n => ?_⟩
  simp only [Table.has_set, Bool.or_eq_true, decide_eq_true_eq]
  tauto

/-- Parameters of which nothing is reported have different names. -/
theorem nodup_of_parameterFindings (hc : c.scopes = scope :: outer) {ps : List Token}
    (h : ∀ f ∈ (c.parameterFindings ps : List (Finding Occurrence)), f.report? = none) :
    (ps.map (·.lexeme)).Nodup ∧ ∀ p ∈ ps, ¬ scope.has p.lexeme := by
  induction ps generalizing c scope with
  | nil => exact ⟨.nil, by simp⟩
  | cons p rest ih =>
    obtain ⟨hfirst, hrest⟩ := List.forall_mem_append.1 h
    obtain ⟨inner, hinner, hhas⟩ := scopes_declared hc p
    obtain ⟨hnodup, hnew⟩ := ih hinner hrest
    refine ⟨List.nodup_cons.2 ⟨fun hmem => ?_, hnodup⟩, List.forall_mem_cons.2 ⟨?_, ?_⟩⟩
    · obtain ⟨q, hq, hlexeme⟩ := List.mem_map.1 hmem
      exact hnew q hq ((hhas _).2 (.inl hlexeme))
    · exact has_of_redeclaration hc hfirst
    · exact fun q hq hin => hnew q hq ((hhas _).2 (.inr hin))

end Context

namespace Surveyed

variable {l : Locals} {K : Site → Prop} {c : Context} {os : List Opener} {scope : Scope}
  {outer : List Scope}

/-- A declaration is new in the innermost scope. -/
theorem has_declared (hs : Surveyed l K) {s : Stmt Occurrence} (h : K ⟨c, os, .statement s⟩)
    (hc : c.scopes = scope :: outer) {t : Token} (ht : t ∈ s.declared?) :
    ¬ scope.has t.lexeme := by
  have hclean := hs.clean h
  cases s with
  | var | function =>
    cases ht
    exact Context.has_of_redeclaration hc hclean
  | «class» =>
    cases ht
    exact Context.has_of_redeclaration hc (List.forall_mem_append.1 hclean).1
  | _ => cases ht

/-- The statements of a scope declare different names, and none that the scope has already. -/
theorem nodup_body (hs : Surveyed l K) {ss : List (Stmt Occurrence)} (h : K ⟨c, os, .body ss⟩)
    (hc : c.scopes = scope :: outer) :
    ((Stmt.declaredTokens ss).map (·.lexeme)).Nodup ∧
      ∀ t ∈ Stmt.declaredTokens ss, ¬ scope.has t.lexeme := by
  induction ss generalizing c scope with
  | nil => exact ⟨.nil, by simp [Stmt.declaredTokens]⟩
  | cons s rest ih =>
    have hstatement : K ⟨c, os, .statement s⟩ := hs.below h (.first c os s rest)
    have hrest : K ⟨(s.resolve c).1, os, .body rest⟩ := hs.below h (.rest c os s rest)
    rw [Stmt.resolve_fst c s (hs.settled hstatement).genuine] at hrest
    cases ht : s.declared? with
    | none =>
      rw [ht] at hrest
      rw [Stmt.declaredTokens, List.filterMap_cons_none ht]
      exact ih hrest hc
    | some t =>
      rw [ht] at hrest
      obtain ⟨inner, hinner, hhas⟩ := Context.scopes_declared hc t
      obtain ⟨hnodup, hnew⟩ := ih hrest hinner
      rw [Stmt.declaredTokens, List.filterMap_cons_some ht]
      refine ⟨List.nodup_cons.2 ⟨fun hmem => ?_, hnodup⟩, List.forall_mem_cons.2 ⟨?_, ?_⟩⟩
      · obtain ⟨u, hu, hlexeme⟩ := List.mem_map.1 hmem
        exact hnew u hu ((hhas _).2 (.inl hlexeme))
      · exact hs.has_declared hstatement hc ht
      · exact fun u hu hin => hnew u hu ((hhas _).2 (.inr hin))

/-- A scope that a node opens declares different names. -/
theorem nodup_opens (hs : Surveyed l K) {p : Site} (h : K p) {o : Opener} (ho : o ∈ p.opens) :
    (o.declarations.map (·.lexeme)).Nodup := by
  obtain ⟨c, os, node⟩ := p
  cases node with
  | expression => cases ho
  | statement s =>
    cases s with
    | block body =>
      obtain rfl := List.mem_singleton.1 ho
      exact (hs.nodup_body (hs.below h (.block c os body)) rfl).1
    | «class» name superclass =>
      rw [Members.declarations_openers ho]
      exact .nil
    | _ => cases ho
  | body => cases ho
  | function kind f =>
    obtain rfl := List.mem_singleton.1 ho
    -- the statements of the body come to a scope that has the parameters
    obtain ⟨inner, hinner, hhas⟩ := c.scopes_enterFunction kind f.params
    have hscopes : ({ c.enter .empty with function := kind } : Context).scopes =
        .empty :: c.scopes := rfl
    obtain ⟨hparams, -⟩ := Context.nodup_of_parameterFindings hscopes (hs.clean h)
    obtain ⟨hbody, hnew⟩ := hs.nodup_body (hs.below h (.body c os kind f)) hinner
    rw [Opener.declarations, List.map_append, List.nodup_append]
    refine ⟨hparams, hbody, fun n hn m hm => ?_⟩
    rintro rfl
    obtain ⟨t, ht, rfl⟩ := List.mem_map.1 hm
    exact hnew t ht ((hhas _).2 hn)

end Surveyed

/-- A scope of which nothing is reported declares no name twice. -/
theorem Visited.eq_of_lexeme {body : List (Stmt Occurrence)} {l : Locals} {p : Site} {o : Opener}
    (hs : Surveyed l (Visited body)) (h : Visited body p) (ho : o ∈ p.openers) {t u : Token}
    (ht : t ∈ o.declarations) (hu : u ∈ o.declarations) (hlexeme : t.lexeme = u.lexeme) :
    t = u := by
  obtain ⟨q, hq, ho⟩ := h.exists_opens hs ho
  exact List.inj_on_of_nodup_map (hs.nodup_opens hq ho) ht hu hlexeme

end Lox
