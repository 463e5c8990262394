import Lox.Proofs.Scope.Marks
import Lox.Proofs.Scope.Sites
import Mathlib.Data.List.Pairwise

/-!
# The walk over a program

What resolving finds at a site is, up to order, what the node itself gives rise to and what is
found at the sites below it. So are the marks at a site, and the distances. What is listed once
in a program is listed by the node of one site only.

## Main definitions

* `Site.own`: what a node itself gives rise to
* `Site.Lists`: what is listed at a site, by the node itself and below it

## Main results

* `Site.findings_perm`: what is found at a site and below it
* `Visited.entry_iff`: the distances of a program that concern a site
* `Site.Lists.eq_of_own`: what is listed once is listed by the node of one site only
* `Site.Reaches.eq_of_node`: a node with a mark stands at one site only
-/

namespace Lox

namespace Site

/-- What resolving finds at a site. -/
def findings (p : Site) : List (Finding Occurrence) :=
  match p.node with
  | .expression e => e.resolve p.context
  | .statement s => (s.resolve p.context).2
  | .body ss => (Stmt.resolveAll p.context ss).2
  | .function kind f => Stmt.resolveFunction p.context kind f

/-- What an expression itself gives rise to. -/
def ownExpression (c : Context) : Expr Occurrence → List (Finding Occurrence)
  | .variable name => (Expr.variable name).resolve c
  | .assign name _ => c.locate .assign name
  | .this keyword => (Expr.this keyword).resolve c
  | .super keyword method => (Expr.super keyword method).resolve c
  | _ => []

/-- What a statement itself gives rise to. -/
def ownStatement (c : Context) : Stmt Occurrence → List (Finding Occurrence)
  | .var name _ => c.redeclaration name
  | .function decl => c.redeclaration decl.name
  | .return keyword value =>
    (if c.function = .none then [.ofToken keyword .returnOutsideFunction] else []) ++
      (if value.isSome && c.function = .initializer
        then [.ofToken keyword .returnFromInitializer] else [])
  | .class name superclass _ _ =>
    c.redeclaration name ++ superclass.toList.flatMap fun r =>
      if r.token.lexeme = name.lexeme then [.ofToken r.token .selfInheritance] else []
  | _ => []

/-- What the node of a site itself gives rise to. -/
def own (p : Site) : List (Finding Occurrence) :=
  match p.node with
  | .expression e => ownExpression p.context e
  | .statement s => ownStatement p.context s
  | .body _ => []
  | .function kind f => { p.context.enter .empty with function := kind }.parameterFindings f.params

/-- The marks of a site's references. -/
def marks (p : Site) : List Occurrence :=
  match p.node with
  | .expression e => e.marks
  | .statement s => s.marks
  | .body ss => Stmt.marksAll ss
  | .function _ f => Stmt.functionMarks f

/-- The reference of a node that is one. -/
def reference? (p : Site) : Option (Ref Occurrence) :=
  match p.node with
  | .expression (.variable r) | .expression (.assign r _) | .expression (.this r)
  | .expression (.super r _) => some r
  | _ => none

end Site

/-! ## What is found -/

theorem Expr.resolveAll_eq (c : Context) (es : List (Expr Occurrence)) :
    Expr.resolveAll c es = es.flatMap (·.resolve c) := by
  induction es with
  | nil => rfl
  | cons e rest ih => simp [Expr.resolveAll, ih]

theorem Stmt.resolveMethods_eq (c : Context) (fs : List (FunDecl Occurrence)) :
    Stmt.resolveMethods c fs = fs.flatMap fun f => Stmt.resolveFunction c f.methodKind f := by
  induction fs with
  | nil => rfl
  | cons f rest ih => simp [Stmt.resolveMethods, ih]

theorem Stmt.resolveStatics_eq (c : Context) (fs : List (FunDecl Occurrence)) :
    Stmt.resolveStatics c fs = fs.flatMap (Stmt.resolveFunction c .method) := by
  induction fs with
  | nil => rfl
  | cons f rest ih => simp [Stmt.resolveStatics, ih]

namespace Site

variable {p q : Site}

/-- What is found at a site and below it. -/
theorem findings_perm (p : Site) :
    p.findings.Perm (p.own ++ p.children.flatMap findings) := by
  obtain ⟨c, openers, node⟩ := p
  cases node with
  | expression e =>
    cases e <;>
      simp [findings, own, children, belowExpression, ownExpression, expression, Expr.resolve,
        Expr.resolveAll_eq, List.flatMap_map, List.perm_append_comm]
  | statement s =>
    cases s with
    | var name initializer =>
      cases initializer <;>
        simp [findings, own, children, belowStatement, ownStatement, Stmt.resolve, Expr.resolve?]
    | «return» keyword value =>
      cases value <;>
        simp [findings, own, children, belowStatement, ownStatement, expression, Stmt.resolve,
          Expr.resolve?, Context.returnFindings]
    | «class» name superclass statics methods =>
      cases superclass <;>
        simp [findings, own, children, belowStatement, belowClass, ownStatement, Stmt.resolve,
          Context.classFindings, Stmt.resolveMethods_eq, Stmt.resolveStatics_eq, List.flatMap_map]
    | _ =>
      simp [findings, own, children, belowStatement, ownStatement, expression, statement,
        Stmt.resolve]
  | body ss =>
    cases ss <;> simp [findings, own, children, statement, Stmt.resolveAll]
  | function kind f =>
    cases f
    simp [findings, own, children, Stmt.resolveFunction, FunDecl.params, FunDecl.body]

/-! ## What sites list -/

section Lists

variable {α : Type} {whole own : Site → List α} {r : Site} {a : α}

/-- A site lists what its node itself lists and what the sites directly below it list. -/
def Lists (whole own : Site → List α) : Prop :=
  ∀ p, (whole p).Perm (own p ++ p.children.flatMap whole)

theorem Lists.mem_iff (h : Lists whole own) :
    a ∈ whole p ↔ a ∈ own p ∨ ∃ q ∈ p.children, a ∈ whole q := by
  rw [(h p).mem_iff, List.mem_append, List.mem_flatMap]

theorem Lists.nodup_child (h : Lists whole own) (hp : (whole p).Nodup) (hq : q ∈ p.children) :
    (whole q).Nodup := by
  have hall := (List.nodup_append.1 ((h p).nodup_iff.1 hp)).2.1
  exact (List.pairwise_flatMap.1 hall).1 q hq

/-- What is listed once is listed below one site only. -/
theorem Lists.eq_of_mem (h : Lists whole own) (hp : (whole p).Nodup) (hq : q ∈ p.children)
    (hr : r ∈ p.children) (ha : a ∈ whole q) (ha' : a ∈ whole r) : q = r := by
  have hall := (List.nodup_append.1 ((h p).nodup_iff.1 hp)).2.1
  have hdisjoint := (List.pairwise_flatMap.1 hall).2
  have : Std.Symm fun b c : Site => ∀ x ∈ whole b, ∀ y ∈ whole c, x ≠ y :=
    ⟨fun b c h x hx y hy => (h y hy x hx).symm⟩
  refine Classical.byContradiction fun hne => ?_
  exact hdisjoint.forall hq hr hne a ha a ha' rfl

theorem Lists.not_mem_of_mem_own (h : Lists whole own) (hp : (whole p).Nodup)
    (hq : q ∈ p.children) (ha : a ∈ own p) : a ∉ whole q := by
  intro ha'
  have hdisjoint := (List.nodup_append.1 ((h p).nodup_iff.1 hp)).2.2
  exact hdisjoint a ha a (List.mem_flatMap.2 ⟨q, hq, ha'⟩) rfl

end Lists

/-! ## What concerns a site -/

/-- The mark of a node that is a reference. -/
def ownMarks (p : Site) : List Occurrence := (p.reference?.map (·.mark)).toList

theorem marksAll_eq (es : List (Expr Occurrence)) :
    Expr.marksAll es = es.flatMap Expr.marks := by
  induction es with
  | nil => rfl
  | cons e rest ih => simp [Expr.marksAll, ih]

theorem functionsMarks_eq (fs : List (FunDecl Occurrence)) :
    Stmt.functionsMarks fs = fs.flatMap Stmt.functionMarks := by
  induction fs with
  | nil => rfl
  | cons f rest ih => simp [Stmt.functionsMarks, ih]

/-- The marks of a site are its own and those below it. -/
theorem lists_marks : Lists marks ownMarks := by
  rintro ⟨c, openers, node⟩
  cases node with
  | expression e =>
    cases e <;>
      simp [marks, ownMarks, reference?, children, belowExpression, expression, Expr.marks,
        marksAll_eq, List.flatMap_map]
  | statement s =>
    cases s with
    | var name initializer =>
      cases initializer <;>
        simp [marks, ownMarks, reference?, children, belowStatement, Stmt.marks, Expr.marks?]
    | «return» keyword value =>
      cases value <;>
        simp [marks, ownMarks, reference?, children, belowStatement, expression, Stmt.marks,
          Expr.marks?]
    | «class» name superclass statics methods =>
      cases superclass <;>
        simp [marks, ownMarks, reference?, children, belowStatement, belowClass, Stmt.marks,
          Expr.marks, functionsMarks_eq, List.flatMap_map, List.perm_append_comm]
    | _ =>
      simp [marks, ownMarks, reference?, children, belowStatement, expression, statement,
        Stmt.marks]
  | body ss =>
    cases ss <;> simp [marks, ownMarks, reference?, children, statement, Stmt.marksAll]
  | function kind f =>
    cases f
    simp [marks, ownMarks, reference?, children, Stmt.functionMarks, FunDecl.body]

/-- The distances found at a site. -/
def entries (p : Site) : List (Occurrence × Nat) := p.findings.filterMap Finding.entry?

/-- The distances that a node itself gives rise to. -/
def ownEntries (p : Site) : List (Occurrence × Nat) := p.own.filterMap Finding.entry?

theorem lists_entries : Lists entries ownEntries := by
  intro p
  have h := (findings_perm p).filterMap Finding.entry?
  rwa [List.filterMap_append, List.filterMap_flatMap] at h

theorem entries_redeclaration (c : Context) (name : Token) :
    (c.redeclaration name : List (Finding Occurrence)).filterMap Finding.entry? = [] := by
  unfold Context.redeclaration
  split <;> simp [Finding.ofToken, Finding.entry?]

theorem entries_parameterFindings (c : Context) (ps : List Token) :
    (c.parameterFindings ps : List (Finding Occurrence)).filterMap Finding.entry? = [] := by
  induction ps generalizing c with
  | nil => rfl
  | cons p rest ih =>
    simp only [Context.parameterFindings, List.filterMap_append, ih, entries_redeclaration,
      List.append_nil]

theorem entries_locate (c : Context) (label : Label) (r : Ref Occurrence) :
    (c.locate label r).filterMap Finding.entry? =
      ((c.distance? r.token.lexeme).map (r.mark, ·)).toList := by
  unfold Context.locate
  cases c.distance? r.token.lexeme <;> simp [Finding.entry?]

/-- A statement gives rise to no distance itself. -/
theorem entries_ownStatement (c : Context) (s : Stmt Occurrence) :
    (ownStatement c s).filterMap Finding.entry? = [] := by
  have hif : ∀ (b : Prop) [Decidable b] (t : Token) (e : ScopeError),
      (if b then [(.ofToken t e : Finding Occurrence)] else []).filterMap Finding.entry? = [] := by
    intro b _ t e
    split <;> simp [Finding.ofToken, Finding.entry?]
  cases s with
  | «class» name superclass =>
    cases superclass <;> simp [ownStatement, entries_redeclaration, hif]
  | var | function => simp [ownStatement, entries_redeclaration]
  | «return» => simp [ownStatement, hif]
  | _ => rfl

/-- The distance of a node that is a reference is that of its context, unless the node is a
misuse, and no other node has one itself. -/
theorem ownEntries_cases (p : Site) :
    p.ownEntries = (p.reference?.bind fun r =>
        (p.context.distance? r.token.lexeme).map (r.mark, ·)).toList ∨
      p.ownEntries = [] ∧ ∃ f ∈ p.own, f.report? ≠ none := by
  obtain ⟨c, openers, node⟩ := p
  cases node with
  | expression e =>
    cases e with
    | «variable» name =>
      refine .inl ?_
      simp only [ownEntries, own, ownExpression, Expr.resolve, reference?, List.filterMap_append,
        entries_locate]
      split <;> simp [Finding.ofToken, Finding.entry?]
    | assign name => exact .inl (entries_locate c .assign name)
    | this keyword =>
      cases hc : c.enclosingClass <;>
        simp [ownEntries, own, ownExpression, Expr.resolve, reference?, hc, entries_locate,
          Finding.ofToken, Finding.report?, Finding.entry?]
    | super keyword =>
      cases hc : c.enclosingClass <;>
        simp [ownEntries, own, ownExpression, Expr.resolve, reference?, hc, entries_locate,
          Finding.ofToken, Finding.report?, Finding.entry?]
    | _ => exact .inl rfl
  | statement s => exact .inl (entries_ownStatement c s)
  | body => exact .inl rfl
  | function kind f => exact .inl (entries_parameterFindings _ f.params)

theorem mem_ownMarks_of_mem_ownEntries {x : Occurrence × Nat} (hx : x ∈ p.ownEntries) :
    x.1 ∈ p.ownMarks := by
  rcases ownEntries_cases p with h | ⟨h, -⟩
  · rw [h, Option.mem_toList, Option.bind_eq_some_iff] at hx
    obtain ⟨r, hr, hd⟩ := hx
    obtain ⟨d, -, rfl⟩ := Option.map_eq_some_iff.1 hd
    simp [ownMarks, hr]
  · rw [h] at hx
    cases hx

/-- The distances found at a site are those of its references. -/
theorem mem_marks_of_mem_entries {x : Occurrence × Nat} (hx : x ∈ p.entries) : x.1 ∈ p.marks := by
  induction p using induction with
  | h p ih =>
    rcases lists_entries.mem_iff.1 hx with hx | ⟨q, hq, hx⟩
    · exact lists_marks.mem_iff.2 (.inl (mem_ownMarks_of_mem_ownEntries hx))
    · exact lists_marks.mem_iff.2 (.inr ⟨q, hq, ih q hq hx⟩)

end Site

/-! ## What concerns a visited site -/

namespace Visited

variable {body : List (Stmt Occurrence)} {p q : Site}

/-- What the walk finds at a site it finds in the whole. -/
theorem mem_findings (h : Visited body p) {f : Finding Occurrence} (hf : f ∈ p.findings) :
    f ∈ resolve body := by
  induction h with
  | root => exact hf
  | @child p q _ hq ih =>
    refine ih ((p.findings_perm).mem_iff.2 ?_)
    simp only [List.mem_append, List.mem_flatMap]
    exact .inr ⟨q, hq, hf⟩

/-- What the walk comes to is listed in the whole. -/
theorem mem_whole {α : Type} {whole own : Site → List α} (h : Visited body p)
    (hlists : Site.Lists whole own) {a : α} (ha : a ∈ whole p) :
    a ∈ whole ⟨{}, [], .body body⟩ := by
  induction h with
  | root => exact ha
  | child _ hq ih => exact ih (hlists.mem_iff.2 (.inr ⟨_, hq, ha⟩))

theorem mem_marks (h : Visited body p) {i : Occurrence} (hi : i ∈ p.marks) :
    i ∈ Stmt.marksAll body :=
  h.mem_whole Site.lists_marks hi

theorem nodup_marks (h : Visited body p) (hbody : (Stmt.marksAll body).Nodup) : p.marks.Nodup := by
  induction h with
  | root => exact hbody
  | child _ hq ih => exact Site.lists_marks.nodup_child ih hq

/-- The distances of a program that concern a site are those found there, if no two references
share a mark. -/
theorem entry_iff (h : Visited body p) (hbody : (Stmt.marksAll body).Nodup) {i : Occurrence}
    (hi : i ∈ p.marks) (d : Nat) :
    (i, d) ∈ (resolve body).filterMap Finding.entry? ↔ (i, d) ∈ p.entries := by
  induction h with
  | root => rfl
  | @child p q hp hq ih =>
    have hmarks := hp.nodup_marks hbody
    rw [ih (Site.lists_marks.mem_iff.2 (.inr ⟨q, hq, hi⟩)), Site.lists_entries.mem_iff]
    constructor
    · rintro (hown | ⟨q', hq', hx⟩)
      · exact absurd hi (Site.lists_marks.not_mem_of_mem_own hmarks hq
          (Site.mem_ownMarks_of_mem_ownEntries hown))
      · have hi' : i ∈ q'.marks := Site.mem_marks_of_mem_entries hx
        rwa [Site.lists_marks.eq_of_mem hmarks hq hq' hi hi']
    · exact fun hx => .inr ⟨q, hq, hx⟩

end Visited

/-! ## Sites that share what is listed once -/

namespace Site

variable {α : Type} {whole own : Site → List α} {p q r : Site} {a : α}

theorem Lists.mem_of_reaches (h : Lists whole own) (hpq : p.Reaches q) (ha : a ∈ whole q) :
    a ∈ whole p := by
  induction hpq with
  | refl => exact ha
  | tail _ hc ih => exact ih (h.mem_iff.2 (.inr ⟨_, hc, ha⟩))

/-- Sites as large as each other that list the same are the same. -/
theorem Lists.eq_of_weight (h : Lists whole own) (hr : (whole r).Nodup) (hp : r.Reaches p)
    (hq : r.Reaches q) (ha : a ∈ whole p) (ha' : a ∈ whole q) (hweight : p.weight = q.weight) :
    p = q := by
  induction r using induction with
  | h r ih =>
    rcases Relation.ReflTransGen.cases_head hp with rfl | ⟨b, hb, hbp⟩ <;>
      rcases Relation.ReflTransGen.cases_head hq with rfl | ⟨c, hc, hcq⟩
    · rfl
    · have hle := Reaches.weight_le hcq
      have hlt := weight_lt_of_mem_children hc
      omega
    · have hle := Reaches.weight_le hbp
      have hlt := weight_lt_of_mem_children hb
      omega
    · obtain rfl := h.eq_of_mem hr hb hc (h.mem_of_reaches hbp ha) (h.mem_of_reaches hcq ha')
      exact ih b hb (h.nodup_child hr hb) hbp hcq

/-- Sites whose nodes themselves list the same are the same. -/
theorem Lists.eq_of_own (h : Lists whole own) (hr : (whole r).Nodup) (hp : r.Reaches p)
    (hq : r.Reaches q) (ha : a ∈ own p) (ha' : a ∈ own q) : p = q := by
  have hwhole : ∀ {s}, a ∈ own s → a ∈ whole s := fun hs => h.mem_iff.2 (.inl hs)
  -- what a node itself lists is not listed below it
  have hbelow : ∀ {s t : Site}, (whole s).Nodup → a ∈ own s → s.Reaches t → a ∈ own t → s = t := by
    intro s t hs has hst hat
    rcases Relation.ReflTransGen.cases_head hst with rfl | ⟨b, hb, hbt⟩
    · rfl
    · exact absurd (h.mem_of_reaches hbt (hwhole hat)) (h.not_mem_of_mem_own hs hb has)
  induction r using induction with
  | h r ih =>
    rcases Relation.ReflTransGen.cases_head hp with rfl | ⟨b, hb, hbp⟩
    · exact hbelow hr ha hq ha'
    rcases Relation.ReflTransGen.cases_head hq with rfl | ⟨c, hc, hcq⟩
    · exact (hbelow hr ha' hp ha).symm
    obtain rfl := h.eq_of_mem hr hb hc (h.mem_of_reaches hbp (hwhole ha))
      (h.mem_of_reaches hcq (hwhole ha'))
    exact ih b hb (h.nodup_child hr hb) hbp hcq

/-- Sites with the same node that have a mark in common are the same. -/
theorem Reaches.eq_of_node {i : Occurrence} (hr : r.marks.Nodup) (hp : r.Reaches p)
    (hq : r.Reaches q) (hi : i ∈ p.marks) (hnode : p.node = q.node) : p = q :=
  lists_marks.eq_of_weight hr hp hq hi (by simpa [marks, hnode] using hi) (by simp [weight, hnode])

end Site

end Lox
