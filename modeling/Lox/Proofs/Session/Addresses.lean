import Lox.Proofs.Parser.Ordered
import Lox.Proofs.Scope.Located
import Lox.Proofs.Session.Resolutions

/-!
# Recorded addresses

The trees that are parsed from a text are genuine and in the order of the text, also where
something is reported, and numbering them changes neither. So the distances that are recorded
when the text is resolved are the lexical addresses of its references, and a reference has no
distance if it is misplaced.

## Main definitions

* `Locals.resolved`: a text as it is parsed, numbered and resolved
* `Resolved.references`: the references of a program, each with the regions around it

## Main results

* `Resolved.mem_entries_iff`: the entries of a program in order are the addresses of its references
* `Locals.distances_lexical`: the recorded distances of a text are lexical addresses
-/

namespace Lox

/-! ## What is found -/

theorem Region.findIdx?_isReceiver {around : List Region} (h : innermost? around = none) :
    around.findIdx? isReceiver = none := by
  induction around with
  | nil => rfl
  | cons region rest ih =>
    cases region with
    | receiver inherits => cases h
    | names | superclass => simp [List.findIdx?_cons, isReceiver, ih h]

/-- A misplaced reference belongs to no scope. -/
theorem Reference.address?_of_misplaced {μ : Type} {around : List Region} {x : Reference μ}
    (h : x.misplaced? around ≠ none) : x.address? around = none := by
  cases x with
  | name => exact absurd rfl h
  | this =>
    refine Region.findIdx?_isReceiver ?_
    simp only [misplaced?] at h
    split at h
    · assumption
    · exact absurd rfl h
  | super =>
    refine if_neg fun hclass => ?_
    simp [misplaced?, hclass] at h

/-- What is found about references contains all distances. -/
theorem Finding.entries_filter {μ : Type} (fs : List (Finding μ)) :
    (fs.filter ofReference).filterMap entry? = fs.filterMap entry? := by
  rw [List.filterMap_filter]
  refine List.filterMap_congr fun f _ => ?_
  cases f with
  | resolved => rfl
  | misuse => exact ite_self none

/-- What is found about references contains all reports that they are misplaced. -/
theorem Finding.reports_filter {μ : Type} (fs : List (Finding μ)) :
    (fs.filter ofReference).filterMap report? =
      (fs.filterMap report?).filter Report.isMisplaced := by
  rw [List.filterMap_filter, List.filter_filterMap]
  refine List.filterMap_congr fun f _ => ?_
  cases f with
  | resolved => rfl
  | misuse r =>
    show (if r.isMisplaced then some r else none) = (some r).filter Report.isMisplaced
    exact Option.filter_some.symm

/-! ## Programs -/

namespace Resolved

/-- The references of a program, each with the regions around it. -/
def references (r : Resolved) : List (List Region × Reference Occurrence) :=
  Stmt.referencesAll [] r.body

variable {n : Occurrence} {program : List (Stmt Unit)}

/-- What is found of the references of a program that is in order. -/
theorem findings_references (hg : Stmt.GenuineAll program) (horder : Stmt.InOrderAll program) :
    (ofProgram n program).findings.filter Finding.ofReference =
      Reference.findings (ofProgram n program).references :=
  resolve_references (Stmt.genuineAll_numberAll n program hg)
    (Stmt.inOrderAll_numberAll n program horder)

theorem nodup_references (n : Occurrence) (program : List (Stmt Unit)) :
    ((ofProgram n program).references.map (·.2.ref.mark)).Nodup :=
  (Stmt.perm_referencesAll [] _).nodup_iff.2 (Locals.numbers_ofProgram n program).nodup

/-- A reference has an entry if and only if it has an address. -/
theorem mem_entries_iff (hg : Stmt.GenuineAll program) (horder : Stmt.InOrderAll program)
    {x : List Region × Reference Occurrence} (hx : x ∈ (ofProgram n program).references) (d : Nat) :
    (x.2.ref.mark, d) ∈ (ofProgram n program).entries ↔ x.2.address? x.1 = some d := by
  have hentry : ∀ y : List Region × Reference Occurrence,
      (y.2.finding? y.1).bind Finding.entry? = (y.2.address? y.1).map (y.2.ref.mark, ·) := by
    rintro ⟨around, y⟩
    simp only [Reference.finding?]
    cases hmisplaced : y.misplaced? around with
    | some e =>
      rw [Reference.address?_of_misplaced (by simp [hmisplaced])]
      rfl
    | none => cases y.address? around <;> rfl
  have hentries : (ofProgram n program).entries =
      (ofProgram n program).references.filterMap
        fun y => (y.2.address? y.1).map (y.2.ref.mark, ·) := by
    rw [entries, ← Finding.entries_filter, findings_references hg horder, Reference.findings,
      List.filterMap_filterMap]
    exact List.filterMap_congr fun y _ => hentry y
  rw [hentries, List.mem_filterMap]
  constructor
  · rintro ⟨y, hy, hd⟩
    obtain ⟨d', hd', heq⟩ := Option.map_eq_some_iff.1 hd
    obtain ⟨hmark, rfl⟩ := Prod.mk.inj heq
    -- a mark is that of one reference
    obtain rfl := List.inj_on_of_nodup_map (nodup_references n program) hy hx hmark
    exact hd'
  · exact fun hd => ⟨x, hx, by rw [hd]; rfl⟩

end Resolved

namespace Locals

/-- A text as it is parsed, numbered and resolved behind earlier ones. -/
def resolved (l : Locals) (source : String) : Resolved :=
  Resolved.ofProgram l.next (parse source).statements

/-- The distances that are recorded when a text is resolved are the lexical addresses of its
references, and those that are reported as misplaced have none. The references are all the
occurrences of the text, and no others are reported as misplaced. -/
theorem distances_lexical (l : Locals) (source : String) :
    (∀ x ∈ (l.resolved source).references,
      (l.record (l.resolved source)).distance? x.2.ref.mark = x.2.address? x.1 ∧
        (x.2.misplaced? x.1 ≠ none →
          (l.record (l.resolved source)).distance? x.2.ref.mark = none)) ∧
    ((l.resolved source).references.map (·.2.ref.mark)).Perm
      (Stmt.marksAll (l.resolved source).body) ∧
    (l.resolved source).reports.filter Report.isMisplaced =
      (l.resolved source).references.filterMap fun x =>
        (x.2.misplaced? x.1).map fun e => Report.ofToken x.2.ref.token (.scope e) := by
  obtain ⟨hg, horder⟩ := wellFormed_parse source
  have hperm : ((l.resolved source).references.map (·.2.ref.mark)).Perm
      (Stmt.marksAll (l.resolved source).body) := Stmt.perm_referencesAll [] _
  refine ⟨fun x hx => ?_, hperm, ?_⟩
  · have hmark := hperm.mem_iff.1 (List.mem_map_of_mem hx)
    have hdistance : (l.record (l.resolved source)).distance? x.2.ref.mark = x.2.address? x.1 :=
      Option.ext fun d =>
        (distance?_record_iff hmark d).trans (Resolved.mem_entries_iff hg horder hx d)
    exact ⟨hdistance, fun h => hdistance.trans (Reference.address?_of_misplaced h)⟩
  · have hfindings : (l.resolved source).findings.filter Finding.ofReference = _ :=
      Resolved.findings_references hg horder
    rw [Resolved.reports, ← Finding.reports_filter, hfindings, Reference.findings,
      List.filterMap_filterMap]
    refine List.filterMap_congr fun x _ => ?_
    simp only [Reference.finding?]
    cases x.2.misplaced? x.1 with
    | some e => rfl
    | none => cases x.2.address? x.1 <;> rfl

/-- The variable of a block from a function in it, a superclass, and in its method `super`, `this`
and a variable that is global; at last a variable in its own initializer. -/
example : (resolved {} "\x7b var a; fun f() \x7b a; \x7d
    class B < f \x7b m() \x7b super.m(this, b); \x7d \x7d var c = c; \x7d").references.map
      (fun x => x.2.address? x.1) = [some 1, some 0, some 2, some 1, none, some 0] := by
  decide +kernel

end Locals

end Lox
