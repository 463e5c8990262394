import Lox.Proofs.Machine.Echo
import Lox.Proofs.Session.Rejected

/-!
# Sessions with and without echo

A session that echoes the values of expression statements and one that does not come to the same
when they run the same texts. What is seen of the two differs in the echoes only, and there is
one for each expression statement that was completed, where it was.

## Main definitions

* `Options.withEcho`: options with or without echo
* `Session.ofTextsWithEcho`: a session after some texts, all run with or all without echo

## Main results

* `Session.run_withEcho`: running texts with and without echo
-/

namespace Lox

/-- The same options, with echo or without. -/
def Options.withEcho (o : Options) (interactive : Bool) : Options := { o with interactive }

theorem Event.Silent.isEcho {event : Event} (h : event.Silent) : event.isEcho = false := by
  cases event with
  | echoed text =>
    have hlength := congrArg String.length h
    simp [Event.out, Text.line] at hlength
  | _ => rfl

namespace Session

/-- A session after some texts that were all run with echo, or all without. -/
def ofTextsWithEcho (interactive : Bool) (texts : List (Options × String)) : Session :=
  ofTexts (texts.map fun x => (x.1.withEcho interactive, x.2))

variable {s : Session} {source : String} {r : Resolved} {o : Options}

theorem isEcho_acceptedEvents (p : Source) (r : Resolved) :
    ∀ event ∈ acceptedEvents p r, event.isEcho = false := fun event h =>
  (List.mem_append.1 h).elim (fun h => (silent_parseEvents p event h).isEcho)
    fun h => (silent_findings _ event h).isEcho

theorem isEcho_ending (o : Options) (halt : Option Halt) :
    ∀ event ∈ (ending o halt).2, event.isEcho = false := by
  intro event h
  unfold ending at h
  split at h
  · split at h <;> simp only [List.mem_cons, List.not_mem_nil, or_false] at h
    · obtain rfl | rfl := h <;> rfl
    · subst h
      rfl
  all_goals cases h

/-- Echo makes no difference for a text in which a problem is reported. -/
theorem run_withEcho_of_rejected (h : s.accepted? source = none) (o : Options)
    (interactive : Bool) : s.run (o.withEcho interactive) source = s.run o source := by
  by_cases hparse : (parse source).reports = []
  · have hresolve : (Resolved.ofProgram s.locals.next (parse source).statements).reports ≠ [] := by
      simpa [accepted?, hparse] using h
    simp [run, runParsed, hparse, hresolve]
  · rw [run_of_reports hparse, run_of_reports hparse]

/-- Nothing but echoes is left out of what is seen of a text when it is run without them. -/
theorem transcript_filter {p : Source} {shown plain after : Transcript}
    (hplain : shown.filter (!·.isEcho) = plain) (hafter : ∀ event ∈ after, event.isEcho = false) :
    (acceptedEvents p r ++ (shown ++ after)).filter (!·.isEcho) =
      acceptedEvents p r ++ (plain ++ after) := by
  have hkeep : ∀ t : Transcript, (∀ event ∈ t, event.isEcho = false) →
      t.filter (!·.isEcho) = t := fun t ht =>
    List.filter_eq_self.2 fun event h => by rw [ht event h, Bool.not_false]
  rw [List.filter_append, List.filter_append, hplain, hkeep _ (isEcho_acceptedEvents p r),
    hkeep _ hafter]

/-- An echo is neither a report nor an error. -/
theorem views_filter (t : Transcript) :
    Transcript.reports (t.filter (!·.isEcho)) = t.reports ∧
      Transcript.errors (t.filter (!·.isEcho)) = t.errors := by
  simp only [Transcript.reports, Transcript.errors, List.filterMap_filter]
  exact ⟨congrArg (List.filterMap · t) (funext fun event => by cases event <;> rfl),
    congrArg (List.filterMap · t) (funext fun event => by cases event <;> rfl)⟩

/-- What running a text with echo comes to. -/
theorem run_withEcho_of_accepted (hr : s.accepted? source = some r) (o : Options) :
    let setup := s.setupFor o r
    let moments := (s.launch r).moments (setup.withEcho false) o.budget
    let before := acceptedEvents (parse source) r
    let after := (ending o (s.outcome (o.withEcho false) r).halt).2
    let shown := s.run (o.withEcho true) source
    let plain := s.run (o.withEcho false) source
    shown.2 = plain.2 ∧ shown.1.ending = plain.1.ending ∧
      plain.1.transcript = before ++ (moments.flatMap (Config.seen setup) ++ after) ∧
      shown.1.transcript = before ++ (moments.flatMap (Config.echoed setup) ++ after) := by
  intro setup moments before after shown plain
  obtain ⟨hhalt, hstate, hshown⟩ := Config.run_echo setup o.budget (s.launch r)
  have hplain := Config.transcript_run setup o.budget (s.launch r)
  change (s.outcome (o.withEcho true) r).halt = (s.outcome (o.withEcho false) r).halt at hhalt
  change (s.outcome (o.withEcho true) r).state = (s.outcome (o.withEcho false) r).state at hstate
  change (s.outcome (o.withEcho true) r).transcript = _ at hshown
  change (s.outcome (o.withEcho false) r).transcript = _ at hplain
  have hending : ∀ interactive halt, ending (o.withEcho interactive) halt = ending o halt :=
    fun _ _ => rfl
  simp only [shown, plain, run_of_accepted hr, hhalt, hstate, hshown, hplain, hending]
  exact ⟨trivial, trivial, rfl, rfl⟩

/-- The session after texts does not depend on the echo. -/
theorem ofTextsWithEcho_eq (texts : List (Options × String)) :
    ofTextsWithEcho true texts = ofTextsWithEcho false texts := by
  have hrun : ∀ (s : Session) (o : Options) (source : String),
      (s.run (o.withEcho true) source).2 = (s.run (o.withEcho false) source).2 := by
    intro s o source
    cases hr : s.accepted? source with
    | none => rw [run_withEcho_of_rejected hr, run_withEcho_of_rejected hr]
    | some r => exact (run_withEcho_of_accepted hr o).1
  have hfold : ∀ s : Session,
      (texts.map fun x => (x.1.withEcho true, x.2)).foldl (fun s x => (s.run x.1 x.2).2) s =
        (texts.map fun x => (x.1.withEcho false, x.2)).foldl (fun s x => (s.run x.1 x.2).2) s := by
    induction texts with
    | nil => exact fun _ => rfl
    | cons x rest ih =>
      intro s
      rw [List.map_cons, List.map_cons, List.foldl_cons, List.foldl_cons, hrun, ih]
  exact hfold fresh

/-- Running a text after others, all of them with echo or all without: the objects, the distances
and the readings of the clock at the end are the same, so is how the run ends and what is
reported, and what is seen without echo is what is seen with it less the echoes. A text in which a
problem is reported echoes nothing. That of any other is what its steps show; with echo, each step
that completes an expression statement shows the value. -/
theorem run_withEcho (texts : List (Options × String)) (o : Options) (source : String) :
    let s := ofTextsWithEcho false texts
    let shown := (ofTextsWithEcho true texts).run (o.withEcho true) source
    let plain := s.run (o.withEcho false) source
    shown.2 = plain.2 ∧ shown.1.ending = plain.1.ending ∧
      shown.1.transcript.reports = plain.1.transcript.reports ∧
      shown.1.transcript.errors = plain.1.transcript.errors ∧
      plain.1.transcript = shown.1.transcript.filter (!·.isEcho) ∧
      match s.accepted? source with
      | none => shown.1.transcript = plain.1.transcript
      | some r =>
        let setup := s.setupFor o r
        let moments := (s.launch r).moments (setup.withEcho false) o.budget
        let before := acceptedEvents (parse source) r
        let after := (ending o (s.outcome (o.withEcho false) r).halt).2
        plain.1.transcript = before ++ (moments.flatMap (Config.seen setup) ++ after) ∧
          shown.1.transcript = before ++ (moments.flatMap (Config.echoed setup) ++ after) := by
  intro s shown plain
  have hshown : shown = s.run (o.withEcho true) source := by
    simp only [shown, s, ofTextsWithEcho_eq]
  cases hr : s.accepted? source with
  | none =>
    have hsame : shown = plain := by
      rw [hshown, run_withEcho_of_rejected hr, ← run_withEcho_of_rejected hr o false]
    rw [hsame]
    refine ⟨rfl, rfl, rfl, rfl, (List.filter_eq_self.2 fun event h => ?_).symm, rfl⟩
    rw [(silent_of_rejected hr _ event h).isEcho, Bool.not_false]
  | some r =>
    obtain ⟨hsession, hending, hplain', hshown'⟩ := run_withEcho_of_accepted hr o
    rw [← hshown] at hsession hending hshown'
    have hfilter : plain.1.transcript = shown.1.transcript.filter (!·.isEcho) := by
      rw [hshown', transcript_filter (Config.filter_flatMap_echoed _ _) (isEcho_ending _ _)]
      exact hplain'
    obtain ⟨hreports, herrors⟩ := views_filter shown.1.transcript
    rw [← hfilter] at hreports herrors
    exact ⟨hsession, hending, hreports.symm, herrors.symm, hfilter, hplain', hshown'⟩

end Session

end Lox
