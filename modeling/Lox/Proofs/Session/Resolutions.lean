import Lox.Proofs.Machine.Declared
import Lox.Proofs.Parser.Tokens
import Lox.Proofs.Session.Growth
import Mathlib.Algebra.Order.BigOperators.Group.List
import Mathlib.Algebra.Order.Group.Nat

/-!
# The resolutions of a session

A session numbers the references of the texts that it resolves one after another, so each number
is that of one place in one text. Resolving a text finds at most one distance for each of its
references and leaves those of earlier texts as they are. Every program that is run was resolved,
and so was every function that there is.

## Main definitions

* `Resolution`, `Session.resolutions`: the texts that were resolved, also those that were not run

## Main results

* `Site.nodup_entries`: a reference has at most one entry
* `Session.recorded_ofTexts`: the distances of a session are the entries of its resolutions
* `History.exists_resolution`, `History.functions_declaredIn`: what is run was resolved
-/

namespace Lox

/-! ## One resolution -/

namespace Site

/-- There are at most as many entries for a mark as references with it. -/
theorem count_entries_le (p : Site) (i : Occurrence) :
    (p.entries.map (·.1)).count i ≤ p.marks.count i := by
  induction p using induction with
  | h p ih =>
    rw [((lists_entries p).map _).count_eq, (lists_marks p).count_eq, List.map_append,
      List.count_append, List.count_append, List.map_flatMap]
    refine Nat.add_le_add ?_ ?_
    · rcases ownEntries_cases p with h | ⟨h, -⟩
      · rw [h, ownMarks]
        cases p.reference? with
        | none => exact Nat.le_refl _
        | some r => cases hd : p.context.distance? r.token.lexeme <;> simp [hd]
      · simp [h]
    · rw [List.count_flatMap, List.count_flatMap]
      exact List.sum_le_sum fun q hq => ih q hq

/-- Where no two references share a mark, each has at most one entry. -/
theorem nodup_entries {p : Site} (h : p.marks.Nodup) : (p.entries.map (·.1)).Nodup :=
  List.nodup_iff_count_le_one.2 fun i =>
    Nat.le_trans (p.count_entries_le i) (List.nodup_iff_count_le_one.1 h i)

end Site

namespace Locals

variable {l : Locals} {program : List (Stmt Unit)} {i : Occurrence}

theorem nodup_entries_ofProgram (n : Occurrence) (program : List (Stmt Unit)) :
    ((Resolved.ofProgram n program).entries.map (·.1)).Nodup :=
  Site.nodup_entries (p := ⟨{}, [], .body (Resolved.ofProgram n program).body⟩)
    (numbers_ofProgram n program).nodup

/-- The distances of a program, once it is recorded, are its entries. -/
theorem distance?_record_iff
    (hi : i ∈ Stmt.marksAll (Resolved.ofProgram l.next program).body) (d : Nat) :
    (l.record (Resolved.ofProgram l.next program)).distance? i = some d ↔
      (i, d) ∈ (Resolved.ofProgram l.next program).entries := by
  have hnumbers := numbers_ofProgram l.next program
  have hmark := hnumbers.mem_iff.1 hi
  have hunique : ∀ {d d' : Nat}, (i, d) ∈ (Resolved.ofProgram l.next program).entries →
      (i, d') ∈ (Resolved.ofProgram l.next program).entries → d' = d := by
    intro d d' hd hd'
    have hsame := List.inj_on_of_nodup_map (nodup_entries_ofProgram l.next program) hd' hd rfl
    exact (Prod.mk.inj hsame).2
  constructor
  · intro h
    by_cases hentry : i ∈ (Resolved.ofProgram l.next program).entries.map (·.1)
    · obtain ⟨⟨j, d'⟩, hd', rfl⟩ := List.mem_map.1 hentry
      rw [distance?_record_of_mem hnumbers.le hmark.2 hd' fun _ => hunique hd'] at h
      rwa [← Option.some.inj h]
    · rw [distance?_record_of_not_mem hentry, distance?_of_next_le hmark.1] at h
      cases h
  · exact fun h => distance?_record_of_mem hnumbers.le hmark.2 h fun _ => hunique h

end Locals

/-! ## Resolutions of a session -/

/-- A text that was resolved. -/
structure Resolution where
  /-- The distances before it. -/
  before : Locals
  /-- The statements as they were parsed. -/
  program : List (Stmt Unit)

namespace Resolution

/-- What the text is resolved to. -/
def resolved (x : Resolution) : Resolved := Resolved.ofProgram x.before.next x.program

/-- The marks of the references of the text. -/
def marks (x : Resolution) : List Occurrence := Stmt.marksAll x.resolved.body

/-- The distances when the text had been resolved. -/
def recorded (x : Resolution) : Locals := x.before.record x.resolved

end Resolution

namespace Session

/-- A text as it is resolved, unless the scanner or the parser reports a problem. -/
def resolution? (s : Session) (source : String) : Option Resolution :=
  if (parse source).reports.isEmpty then some ⟨s.locals, (parse source).statements⟩ else none

/-- The resolutions of texts one after another. -/
def resolutionsFrom (s : Session) : List (Options × String) → List Resolution
  | [] => []
  | x :: rest => (s.resolution? x.2).toList ++ (s.run x.1 x.2).2.resolutionsFrom rest

/-- The resolutions of a session: of all its texts but those that could not be parsed. -/
def resolutions (texts : List (Options × String)) : List Resolution := fresh.resolutionsFrom texts

variable {s : Session} {source : String} {r : Resolved}

theorem resolutionsFrom_append (s : Session) (texts more : List (Options × String)) :
    s.resolutionsFrom (texts ++ more) = s.resolutionsFrom texts ++
      (texts.foldl (fun s x => (s.run x.1 x.2).2) s).resolutionsFrom more := by
  induction texts generalizing s with
  | nil => rfl
  | cons x rest ih =>
    rw [List.cons_append, resolutionsFrom, ih, resolutionsFrom, List.append_assoc, List.foldl_cons]

theorem resolutions_append (texts more : List (Options × String)) :
    resolutions (texts ++ more) = resolutions texts ++ (ofTexts texts).resolutionsFrom more :=
  resolutionsFrom_append fresh texts more

theorem resolution?_of_accepted (h : s.accepted? source = some r) :
    ∃ x, s.resolution? source = some x ∧ x.resolved = r ∧
      x.recorded = s.locals.record r := by
  obtain ⟨hparse, rfl, -⟩ := accepted?_eq_some h
  exact ⟨⟨s.locals, (parse source).statements⟩, by simp [resolution?, hparse], rfl, rfl⟩

/-- The distances after a text are those that were recorded for it. -/
theorem locals_run (s : Session) (o : Options) (source : String) :
    (s.run o source).2.locals = ((s.resolution? source).map (·.recorded)).getD s.locals := by
  have hrecorded : s.recorded source =
      ((s.resolution? source).map (·.recorded)).getD s.locals := by
    unfold recorded resolution?
    split <;> rfl
  rw [← hrecorded]
  cases hr : s.accepted? source with
  | none =>
    obtain ⟨seen, hrun, -⟩ := run_of_rejected hr o
    rw [hrun]
  | some r =>
    obtain ⟨hparse, rfl, -⟩ := accepted?_eq_some hr
    rw [run_of_accepted hr, recorded, if_pos (by simp [hparse])]

/-- Distances in which resolutions are recorded. -/
structure RecordedIn (l : Locals) (xs : List Resolution) : Prop where
  /-- The references have earlier numbers. -/
  below : ∀ x ∈ xs, ∀ i ∈ x.marks, i < l.next
  /-- No two references share a number. -/
  nodup : (xs.flatMap Resolution.marks).Nodup
  /-- The distances are the entries. -/
  entries : ∀ x ∈ xs, ∀ i ∈ x.marks, ∀ d, l.distance? i = some d ↔ (i, d) ∈ x.resolved.entries

theorem RecordedIn.next {l : Locals} {xs : List Resolution} (h : RecordedIn l xs)
    (program : List (Stmt Unit)) :
    RecordedIn (Resolution.mk l program).recorded (xs ++ [⟨l, program⟩]) := by
  have hnumbers := Locals.numbers_ofProgram l.next program
  have hnext : (Resolution.mk l program).recorded.next =
      (Resolved.ofProgram l.next program).next := Locals.next_record hnumbers.le
  refine ⟨fun x hx i hi => ?_, ?_, fun x hx i hi d => ?_⟩
  · rcases List.mem_append.1 hx with hx | hx
    · exact Nat.lt_of_lt_of_le (h.below x hx i hi) (l.extends_record program).le
    · obtain rfl := List.mem_singleton.1 hx
      rw [hnext]
      exact (hnumbers.mem_iff.1 hi).2
  · rw [List.flatMap_append, List.flatMap_singleton, List.nodup_append]
    refine ⟨h.nodup, hnumbers.nodup, fun i hi j hj => ?_⟩
    obtain ⟨x, hx, hi⟩ := List.mem_flatMap.1 hi
    exact Nat.ne_of_lt (Nat.lt_of_lt_of_le (h.below x hx i hi) (hnumbers.mem_iff.1 hj).1)
  · rcases List.mem_append.1 hx with hx | hx
    · rw [← h.entries x hx i hi d]
      -- the new text has later numbers
      exact iff_of_eq
        (congrArg (· = some d) ((l.extends_record program).distance? i (h.below x hx i hi)))
    · obtain rfl := List.mem_singleton.1 hx
      exact Locals.distance?_record_iff hi d

/-- The distances of a session are the entries of its resolutions. -/
theorem recorded_ofTexts (texts : List (Options × String)) :
    RecordedIn (ofTexts texts).locals (resolutions texts) := by
  have hfold : ∀ (s : Session) (xs : List Resolution), RecordedIn s.locals xs →
      RecordedIn (texts.foldl (fun s x => (s.run x.1 x.2).2) s).locals
        (xs ++ s.resolutionsFrom texts) := by
    induction texts with
    | nil => exact fun s xs h => by simpa [resolutionsFrom] using h
    | cons x rest ih =>
      intro s xs h
      rw [List.foldl_cons, resolutionsFrom, ← List.append_assoc]
      refine ih _ _ ?_
      rw [locals_run]
      cases hx : s.resolution? x.2 with
      | none => simpa using h
      | some y =>
        unfold resolution? at hx
        split at hx <;> cases hx
        exact h.next _
  simpa [ofTexts, resolutions] using
    hfold fresh [] ⟨by simp, List.nodup_nil, by simp⟩

/-- Distances in which the same resolutions are recorded agree about them. -/
theorem RecordedIn.distance?_eq {l l' : Locals} {xs ys : List Resolution} (h : RecordedIn l xs)
    (h' : RecordedIn l' ys) {x : Resolution} (hx : x ∈ xs) (hy : x ∈ ys) {i : Occurrence}
    (hi : i ∈ x.marks) : l'.distance? i = l.distance? i :=
  Option.ext fun d => by rw [h.entries x hx i hi d, h'.entries x hy i hi d]

/-- The statements of a resolution are those of a text. -/
theorem exists_text_of_resolution {texts : List (Options × String)} {x : Resolution}
    (hx : x ∈ resolutions texts) : ∃ source, x.program = (parse source).statements := by
  unfold resolutions at hx
  generalize fresh = s at hx
  induction texts generalizing s with
  | nil => cases hx
  | cons y rest ih =>
    rcases List.mem_append.1 hx with hx | hx
    · unfold resolution? at hx
      split at hx
      · obtain rfl := List.mem_singleton.1 hx
        exact ⟨y.2, rfl⟩
      · cases hx
    · exact ih _ hx

/-- A resolved text has no token at two places. -/
theorem nodup_tokens_of_resolution {texts : List (Options × String)} {x : Resolution}
    (hx : x ∈ resolutions texts) : (Part.tokens (Stmt.partsAll x.resolved.body)).Nodup := by
  obtain ⟨source, hprogram⟩ := exists_text_of_resolution hx
  have hsame := Stmt.erase_numberAll x.before.next x.program
  have htokens := congrArg Part.tokens hsame
  rw [Part.tokens_map_erase, Part.tokens_map_erase] at htokens
  show (Part.tokens (Stmt.partsAll (Stmt.numberAll x.before.next x.program).1)).Nodup
  rw [htokens, hprogram]
  exact nodup_tokens_parse source

end Session

/-! ## What is run was resolved -/

namespace History

open Session (resolutions)

theorem ofTexts_concat (texts : List (Options × String)) (x : Options × String) :
    ofTexts (texts ++ [x]) = (ofTexts texts).next x.1 x.2 := by
  simp [ofTexts]

/-- The programs of a history were resolved. -/
theorem exists_resolution {texts : List (Options × String)} {body : List Code}
    (hbody : body ∈ (ofTexts texts).programs) :
    ∃ x ∈ resolutions texts, x.resolved.body = body := by
  induction texts using List.reverseRecOn with
  | nil => cases hbody
  | append_singleton texts y ih =>
    have hold : body ∈ (ofTexts texts).programs →
        ∃ x ∈ resolutions (texts ++ [y]), x.resolved.body = body := by
      intro h
      obtain ⟨x, hx, hxbody⟩ := ih h
      exact ⟨x, by rw [Session.resolutions_append]; exact List.mem_append_left _ hx, hxbody⟩
    rw [ofTexts_concat, next] at hbody
    cases hr : (ofTexts texts).session.accepted? y.2 with
    | none =>
      simp only [hr] at hbody
      exact hold hbody
    | some r =>
      simp only [hr] at hbody
      rcases List.mem_append.1 hbody with hbody | hbody
      · exact hold hbody
      · obtain rfl := List.mem_singleton.1 hbody
        rw [session_ofTexts] at hr
        obtain ⟨x, hx, rfl, -⟩ := Session.resolution?_of_accepted hr
        refine ⟨x, ?_, rfl⟩
        rw [Session.resolutions_append]
        simp [Session.resolutionsFrom, hx]

/-- A reference of a program that is run next was resolved with it or with an earlier text. -/
theorem exists_resolution_of_launched {texts : List (Options × String)} {source : String}
    {r : Resolved} (hr : (Session.ofTexts texts).accepted? source = some r) {body : List Code}
    (hbody : body ∈ (ofTexts texts).programs ++ [r.body]) :
    ∃ x ∈ resolutions texts ++ ((Session.ofTexts texts).resolution? source).toList,
      x.resolved.body = body := by
  rcases List.mem_append.1 hbody with hbody | hbody
  · obtain ⟨x, hx, hxbody⟩ := exists_resolution hbody
    exact ⟨x, List.mem_append_left _ hx, hxbody⟩
  · obtain rfl := List.mem_singleton.1 hbody
    obtain ⟨x, hx, rfl, -⟩ := Session.resolution?_of_accepted hr
    exact ⟨x, by simp [hx], rfl⟩

/-- The functions of a session are those of its programs. -/
theorem functions_declaredIn (texts : List (Options × String)) :
    ∀ f fn, (ofTexts texts).session.store.function? f = some fn →
      fn.DeclaredIn (SitesOf (ofTexts texts).programs) := by
  induction texts using List.reverseRecOn with
  | nil =>
    intro f fn h
    cases h
  | append_singleton texts y ih =>
    have hv := valid_ofTexts texts
    rw [ofTexts_concat]
    unfold next
    cases hr : (ofTexts texts).session.accepted? y.2 with
    | none =>
      obtain ⟨seen, hrun, -⟩ := Session.run_of_rejected hr y.1
      simp only [hrun]
      exact ih
    | some r =>
      rw [Session.run_of_accepted hr]
      have hs := hv.surveyed hr y.1
      refine Config.functions_run (fun fn fn₀ h h₀ => h₀.agrees h) (fun f fn h => ?_)
        (fun m e he fn hfn => ?_) y.1.budget
      · exact (ih f fn h).mono fun p ⟨body, hbody, hp⟩ => ⟨body, by simp [hbody], hp⟩
      · exact (Config.fits_after (hv.fits r) hs he).control.declaredIn hs hfn

end History

namespace Function

variable {fn : Function} {programs : List (List Code)}

/-- The references of a function are among those of one program. -/
theorem DeclaredIn.marks (h : fn.DeclaredIn (SitesOf programs)) :
    ∃ body ∈ programs, ∀ i ∈ Stmt.functionMarks fn.decl, i ∈ Stmt.marksAll body := by
  obtain ⟨kind, c, openers, ⟨body, hbody, hvisited⟩, -⟩ := h
  exact ⟨body, hbody, fun i hi => hvisited.mem_marks hi⟩

end Function

end Lox
