import Lox.Proofs.Scope.Settled

/-!
# Recorded programs

A program in which resolving reports nothing is recorded: wherever the walk comes to a
reference, the recorded distance is the number of scopes that lie between the reference and the
innermost scope with its name. Recording further programs changes nothing about this.

## Main definitions

* `Locals.Records`: the distances of a program are recorded
* `Surveyed`: places of recorded programs

## Main results

* `Locals.records_record`: what is resolved without a report is recorded
* `Locals.Records.record`: recording keeps what was recorded before
* `SitesOf.eq_of_node`: a node with a reference stands at one site only
-/

namespace Lox

theorem Site.mem_ownMarks {p : Site} {r : Ref Occurrence} (hr : r ∈ p.reference?) :
    r.mark ∈ p.ownMarks := by
  simp [ownMarks, Option.mem_def.1 hr]

theorem Site.mem_marks_of_reference {p : Site} {r : Ref Occurrence} (hr : r ∈ p.reference?) :
    r.mark ∈ p.marks :=
  lists_marks.mem_iff.2 (.inl (mem_ownMarks hr))

namespace Resolved

variable {r : Resolved} {n : Nat}

theorem mem_entries_of_upTo {x : Occurrence × Nat} (h : x ∈ (r.upTo n).entries) :
    x ∈ r.entries := by
  obtain ⟨f, hf, hx⟩ := List.mem_filterMap.1 h
  exact List.mem_filterMap.2 ⟨f, List.mem_of_mem_take hf, hx⟩

theorem upTo_length (r : Resolved) : r.upTo r.findings.length = r := by
  simp [upTo]

end Resolved

namespace Locals

/-- The distances of a genuine program, in which nothing is reported, are recorded. -/
structure Records (l : Locals) (body : List (Stmt Occurrence)) : Prop where
  /-- The program is genuine. -/
  genuine : Stmt.GenuineAll body
  /-- Nothing is reported. -/
  clean : ∀ f ∈ resolve body, f.report? = none
  /-- The marks are numbers of earlier occurrences. -/
  marks : ∀ i ∈ Stmt.marksAll body, i < l.next
  /-- The distance of a reference is the one in its context. -/
  distances : ∀ p, Visited body p → ∀ r ∈ p.reference?,
    l.distance? r.mark = p.context.distance? r.token.lexeme

variable {l : Locals} {body : List (Stmt Occurrence)} {program : List (Stmt Unit)}

theorem distance?_of_next_le {i : Occurrence} (h : l.next ≤ i) : l.distance? i = none := by
  have hnone : l.distances[i]? = none := Array.getElem?_eq_none h
  simp [distance?, hnone]

/-- The marks of a program that is numbered from a number on. -/
theorem numbers_ofProgram (n : Occurrence) (program : List (Stmt Unit)) :
    Numbers n (Resolved.ofProgram n program).next
      (Stmt.marksAll (Resolved.ofProgram n program).body) :=
  Stmt.numbers_numberAll n program

theorem mem_marksAll_of_mem_entries {n : Occurrence} {x : Occurrence × Nat}
    (h : x ∈ (Resolved.ofProgram n program).entries) :
    x.1 ∈ Stmt.marksAll (Resolved.ofProgram n program).body :=
  Site.mem_marks_of_mem_entries (p := ⟨{}, [], .body (Resolved.ofProgram n program).body⟩) h

/-- The distances of earlier occurrences are as they were. -/
structure Extends (l l' : Locals) : Prop where
  /-- There are the earlier occurrences, and maybe later ones. -/
  le : l.next ≤ l'.next
  /-- The distances are the same. -/
  distance? : ∀ i, i < l.next → l'.distance? i = l.distance? i

/-- Recording a program as far as it was resolved keeps the distances of earlier occurrences. -/
theorem extends_record_upTo (l : Locals) (program : List (Stmt Unit)) (n : Nat) :
    l.Extends (l.record ((Resolved.ofProgram l.next program).upTo n)) := by
  have hnumbers := numbers_ofProgram l.next program
  have hnext := next_record (r := (Resolved.ofProgram l.next program).upTo n) hnumbers.le
  refine ⟨hnext ▸ hnumbers.le, fun i hi => distance?_record_of_not_mem fun hentry => ?_⟩
  obtain ⟨x, hx, rfl⟩ := List.mem_map.1 hentry
  have hmark := hnumbers.mem_iff.1 (mem_marksAll_of_mem_entries (Resolved.mem_entries_of_upTo hx))
  exact absurd hi (Nat.not_lt.2 hmark.1)

/-- Recording a program keeps the distances of earlier occurrences. -/
theorem extends_record (l : Locals) (program : List (Stmt Unit)) :
    l.Extends (l.record (Resolved.ofProgram l.next program)) := by
  have h := l.extends_record_upTo program (Resolved.ofProgram l.next program).findings.length
  rwa [Resolved.upTo_length] at h

/-- Recording keeps what was recorded before. -/
theorem Records.record (h : l.Records body) (program : List (Stmt Unit)) :
    (l.record (Resolved.ofProgram l.next program)).Records body where
  genuine := h.genuine
  clean := h.clean
  marks i hi := Nat.lt_of_lt_of_le (h.marks i hi) (l.extends_record program).le
  distances p hp r hr := by
    have hmark := h.marks _ (hp.mem_marks (Site.mem_marks_of_reference hr))
    rw [(l.extends_record program).distance? _ hmark]
    exact h.distances p hp r hr

/-- The distances of a program that concern a reference are the one in its context. -/
theorem mem_entries_iff_of_visited {n : Occurrence} {p : Site}
    (hclean : ∀ f ∈ resolve (Resolved.ofProgram n program).body, f.report? = none)
    (hp : Visited (Resolved.ofProgram n program).body p) {r : Ref Occurrence}
    (hr : r ∈ p.reference?) (d : Nat) :
    (r.mark, d) ∈ (Resolved.ofProgram n program).entries ↔
      p.context.distance? r.token.lexeme = some d := by
  have hnodup := (numbers_ofProgram n program).nodup
  have hfind : (r.mark, d) ∈ (Resolved.ofProgram n program).entries ↔ (r.mark, d) ∈ p.entries :=
    hp.entry_iff hnodup (Site.mem_marks_of_reference hr) d
  have hbelow : ¬ ∃ q ∈ p.children, (r.mark, d) ∈ q.entries := by
    rintro ⟨q, hq, hx⟩
    exact Site.lists_marks.not_mem_of_mem_own (hp.nodup_marks hnodup) hq (Site.mem_ownMarks hr)
      (Site.mem_marks_of_mem_entries hx)
  rw [hfind, Site.lists_entries.mem_iff, or_iff_left hbelow]
  rcases p.ownEntries_cases with h | ⟨-, f, hf, hreport⟩
  · rw [h, Option.mem_def.1 hr]
    simp
  · have hmem : f ∈ p.findings :=
      p.findings_perm.mem_iff.2 (List.mem_append_left _ hf)
    exact absurd (hclean f (hp.mem_findings hmem)) hreport

theorem clean_of_reports {r : Resolved} (h : r.reports = []) :
    ∀ f ∈ r.findings, f.report? = none :=
  List.filterMap_eq_nil_iff.1 h

/-- What is resolved without a report is recorded. -/
theorem records_record (hgenuine : Stmt.GenuineAll program)
    (hreports : (Resolved.ofProgram l.next program).reports = []) :
    (l.record (Resolved.ofProgram l.next program)).Records
      (Resolved.ofProgram l.next program).body := by
  have hnumbers := numbers_ofProgram l.next program
  have hclean := clean_of_reports hreports
  refine ⟨Stmt.genuineAll_numberAll _ _ hgenuine, hclean, fun i hi => ?_, fun p hp r hr => ?_⟩
  · rw [next_record hnumbers.le]
    exact (hnumbers.mem_iff.1 hi).2
  · have hiff := mem_entries_iff_of_visited hclean hp hr
    have hmark := hnumbers.mem_iff.1 (hp.mem_marks (Site.mem_marks_of_reference hr))
    cases hd : p.context.distance? r.token.lexeme with
    | none =>
      rw [distance?_record_of_not_mem fun hi => ?_, distance?_of_next_le hmark.1]
      obtain ⟨⟨i, d⟩, hx, rfl⟩ := List.mem_map.1 hi
      simpa [hd] using (hiff d).1 hx
    | some d =>
      refine distance?_record_of_mem hnumbers.le hmark.2 ((hiff d).2 hd) fun d' hd' => ?_
      simpa [hd] using ((hiff d').1 hd').symm

end Locals

/-! ## Places of recorded programs -/

/-- Sites of programs whose distances are recorded. -/
structure Surveyed (l : Locals) (K : Site → Prop) : Prop where
  /-- The sites below one are among them. -/
  child : ∀ {p q : Site}, K p → q ∈ p.children → K q
  /-- The sites are settled. -/
  settled : ∀ {p : Site}, K p → p.Settled
  /-- The nodes themselves give rise to no report. -/
  clean : ∀ {p : Site}, K p → ∀ f ∈ p.own, f.report? = none
  /-- The distance of a reference is the one in its context. -/
  distance? : ∀ {p : Site}, K p → ∀ r ∈ p.reference?,
    l.distance? r.mark = p.context.distance? r.token.lexeme

theorem Surveyed.below {l : Locals} {K : Site → Prop} (hs : Surveyed l K) {p q : Site} (h : K p)
    (hq : p.Below q) : K q :=
  hs.child h (Site.mem_children_iff.2 hq)

/-- The sites of some programs. -/
def SitesOf (programs : List (List (Stmt Occurrence))) (p : Site) : Prop :=
  ∃ body ∈ programs, Visited body p

theorem surveyed_visited {l : Locals} {body : List (Stmt Occurrence)} (h : l.Records body) :
    Surveyed l (Visited body) where
  child := .child
  settled := fun hp => hp.settled h.genuine
  clean := fun {p} hp f hf =>
    h.clean f (hp.mem_findings (p.findings_perm.mem_iff.2 (List.mem_append_left _ hf)))
  distance? := fun hp => h.distances _ hp

theorem surveyed_sitesOf {l : Locals} {programs : List (List (Stmt Occurrence))}
    (h : ∀ body ∈ programs, l.Records body) : Surveyed l (SitesOf programs) where
  child := fun ⟨body, hbody, hp⟩ hq => ⟨body, hbody, hp.child hq⟩
  settled := fun ⟨body, hbody, hp⟩ => (surveyed_visited (h body hbody)).settled hp
  clean := fun ⟨body, hbody, hp⟩ => (surveyed_visited (h body hbody)).clean hp
  distance? := fun ⟨body, hbody, hp⟩ => (surveyed_visited (h body hbody)).distance? hp

/-- In programs in which no two references share a mark, a node with a reference stands at one
site only. -/
theorem SitesOf.eq_of_node {programs : List (List (Stmt Occurrence))} {p q : Site}
    (hnodup : (programs.flatMap Stmt.marksAll).Nodup) (hp : SitesOf programs p)
    (hq : SitesOf programs q) (hmarks : p.marks ≠ []) (hnode : p.node = q.node) : p = q := by
  obtain ⟨a, ha, hpa⟩ := hp
  obtain ⟨b, hb, hqb⟩ := hq
  obtain ⟨i, hi⟩ := List.exists_mem_of_ne_nil _ hmarks
  have hi' : i ∈ q.marks := by simpa [Site.marks, hnode] using hi
  obtain ⟨hown, hdisjoint⟩ := List.pairwise_flatMap.1 hnodup
  have hsame : a = b := by
    have : Std.Symm fun a b : List (Stmt Occurrence) =>
        ∀ x ∈ Stmt.marksAll a, ∀ y ∈ Stmt.marksAll b, x ≠ y :=
      ⟨fun a b h x hx y hy => (h y hy x hx).symm⟩
    refine Classical.byContradiction fun hne => ?_
    exact hdisjoint.forall ha hb hne i (hpa.mem_marks hi) i (hqb.mem_marks hi') rfl
  subst hsame
  have hroot : (Site.mk {} [] (.body a)).marks.Nodup := hown a ha
  exact hpa.reaches.eq_of_node hroot hqb.reaches hi hnode

/-! ## What distances lead to -/

namespace Context

variable {c : Context} {name : String} {d : Nat}

/-- A distance leads to a scope with the name. -/
theorem has_of_distance? (h : c.distance? name = some d) :
    ∃ scope, c.scopes[d]? = some scope ∧ scope.has name := by
  obtain ⟨hd, hhas, -⟩ := List.findIdx?_eq_some_iff_getElem.1 h
  exact ⟨_, List.getElem?_eq_getElem hd, hhas⟩

/-- The name has ended unless it is being initialized. -/
theorem find?_of_distance? (h : c.distance? name = some d)
    (hended : ∀ scope ∈ c.scopes, scope.find? name ≠ some false) :
    (c.scopes[d]?).bind (·.find? name) = some true := by
  obtain ⟨scope, hscope, hhas⟩ := has_of_distance? h
  have hne := hended scope (List.mem_of_getElem? hscope)
  obtain ⟨b, hb⟩ := Option.isSome_iff_exists.1 hhas
  cases b with
  | false => exact absurd hb hne
  | true => simp [hscope, hb]

end Context

namespace Surveyed

variable {l : Locals} {K : Site → Prop} {c : Context} {os : List Opener} {r : Ref Occurrence}
  {d : Nat}

/-- A variable that is read is not being initialized. -/
theorem find?_variable (hs : Surveyed l K) (h : K ⟨c, os, .expression (.variable r)⟩)
    (hd : l.distance? r.mark = some d) :
    (c.scopes[d]?).bind (·.find? r.token.lexeme) = some true := by
  rw [hs.distance? h r rfl] at hd
  refine Context.find?_of_distance? hd fun scope hscope => ?_
  have hclean := hs.clean h
  simp only [Site.own, Site.ownExpression, Expr.resolve, List.mem_append] at hclean
  cases hc : c.scopes with
  | nil => simp [hc] at hscope
  | cons inner outer =>
    rw [hc] at hscope
    rcases List.mem_cons.1 hscope with rfl | hscope
    · intro hfalse
      have hin : c.inInitializer r.token.lexeme := by simp [Context.inInitializer, hc, hfalse]
      have := hclean (.ofToken r.token .ownInitializer) (.inl (by simp [hin]))
      simp [Finding.ofToken, Finding.report?] at this
    · exact (hs.settled h).context.ended scope (by simpa [hc] using hscope) _

/-- `this` is never being initialized. -/
theorem find?_this (hs : Surveyed l K) (h : K ⟨c, os, .expression (.this r)⟩)
    (hd : l.distance? r.mark = some d) :
    (c.scopes[d]?).bind (·.find? r.token.lexeme) = some true := by
  rw [hs.distance? h r rfl] at hd
  have hword : r.token.lexeme = Keyword.thisWord.text := (hs.settled h).genuine
  refine Context.find?_of_distance? hd fun scope hscope => ?_
  rw [hword]
  exact (hs.settled h).context.keywords scope hscope _

section Superclass

variable {name : Token} {statics methods : List (FunDecl Occurrence)}

/-- A superclass is another class. -/
theorem superclass_ne (hs : Surveyed l K)
    (h : K ⟨c, os, .statement (.class name (some r) statics methods)⟩) :
    r.token.lexeme ≠ name.lexeme := by
  intro heq
  have := hs.clean h (.ofToken r.token .selfInheritance)
    (by simp [Site.own, Site.ownStatement, heq])
  simp [Finding.ofToken, Finding.report?] at this

/-- The resolver comes to a superclass when the name of the class is declared. -/
theorem superclass_child (hs : Surveyed l K)
    (h : K ⟨c, os, .statement (.class name (some r) statics methods)⟩) :
    K ⟨c.declared (some name), os, .expression (.variable r)⟩ :=
  hs.below h (.superclass c os name r statics methods)

/-- What a superclass stands for does not depend on the name of the class. -/
theorem find?_superclass (hs : Surveyed l K)
    (h : K ⟨c, os, .statement (.class name (some r) statics methods)⟩)
    (hd : l.distance? r.mark = some d) :
    (c.scopes[d]?).bind (·.find? r.token.lexeme) = some true := by
  have hfind := hs.find?_variable (hs.superclass_child h) hd
  have hne := hs.superclass_ne h
  rwa [Context.declared, Context.define, Context.find?_setName hne, Context.declare,
    Context.find?_setName hne] at hfind

theorem distance?_superclass (hs : Surveyed l K)
    (h : K ⟨c, os, .statement (.class name (some r) statics methods)⟩) :
    l.distance? r.mark = c.distance? r.token.lexeme := by
  have hne := hs.superclass_ne h
  rw [hs.distance? (hs.superclass_child h) r rfl, Context.declared, Context.define,
    Context.distance?_setName hne, Context.declare, Context.distance?_setName hne]

end Superclass

/-- A use of `super` stands in a class with a superclass. -/
theorem enclosingClass_super {method : Token} (hs : Surveyed l K)
    (h : K ⟨c, os, .expression (.super r method)⟩) : c.enclosingClass = .derived := by
  have hclean := hs.clean h
  cases hc : c.enclosingClass with
  | none | base =>
    simp [Site.own, Site.ownExpression, Expr.resolve, hc, Finding.ofToken,
      Finding.report?] at hclean
  | derived => rfl

/-- A use of `super` has a distance, and `this` lies directly inside of it. -/
theorem find?_super {method : Token} (hs : Surveyed l K)
    (h : K ⟨c, os, .expression (.super r method)⟩) :
    ∃ d, l.distance? r.mark = some (d + 1) ∧
      (c.scopes[d + 1]?).bind (·.find? Keyword.superWord.text) = some true ∧
      (c.scopes[d]?).bind (·.find? Keyword.thisWord.text) = some true := by
  have hsettled := hs.settled h
  have hword : r.token.lexeme = Keyword.superWord.text := hsettled.genuine
  have hclass := hs.enclosingClass_super h
  obtain ⟨d, hd, hthis⟩ := hsettled.context.super hclass
  refine ⟨d, by rw [hs.distance? h r rfl, hword, hd], ?_, hthis⟩
  exact Context.find?_of_distance? hd fun scope hscope =>
    hsettled.context.keywords scope hscope _

/-- The distance of a variable that is assigned leads to a scope. -/
theorem lt_assign {value : Expr Occurrence} (hs : Surveyed l K)
    (h : K ⟨c, os, .expression (.assign r value)⟩) (hd : l.distance? r.mark = some d) :
    d < c.scopes.length := by
  rw [hs.distance? h r rfl] at hd
  obtain ⟨scope, hscope, -⟩ := Context.has_of_distance? hd
  exact (List.getElem?_eq_some_iff.1 hscope).1

/-- The name that is assigned is declared by the opener of the scope that its distance leads
to. -/
theorem names_assign {value : Expr Occurrence} (hs : Surveyed l K)
    (h : K ⟨c, os, .expression (.assign r value)⟩) (hd : l.distance? r.mark = some d) :
    d ≤ c.scopes.length ∧ ∀ o ∈ (os.drop d).head?, r.token.lexeme ∈ o.names := by
  rw [hs.distance? h r rfl] at hd
  obtain ⟨scope, hscope, hhas⟩ := Context.has_of_distance? hd
  obtain ⟨hlt, rfl⟩ := List.getElem?_eq_some_iff.1 hscope
  refine ⟨Nat.le_of_lt hlt, fun o ho => ?_⟩
  rw [List.head?_drop] at ho
  obtain ⟨hlto, rfl⟩ := List.getElem?_eq_some_iff.1 ho
  exact (List.forall₂_iff_get.1 (hs.settled h).context.names).2 d hlt hlto _ hhas

end Surveyed

end Lox
