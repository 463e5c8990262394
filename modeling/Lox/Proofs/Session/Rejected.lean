import Lox.CommandLine
import Lox.Proofs.Session.Twin

/-!
# Rejected texts

A text in which a problem is reported is not run: it prints nothing, ends without a runtime error
and leaves the objects as they were. Distances that were found before the problem stay recorded,
but nothing in the session refers to them, so no other text is answered in another way than
without the rejected one. All this also holds of a text that exhausts the stack of the host before
it is run, only that no flag tells of it, and a script then leaves another status.

## Main definitions

* `Session.attempts`: the answers to texts, one after another
* `Session.Skipped`: what a text comes to that is not run

## Main results

* `Session.hadError_iff`, `Session.hadRuntimeError_iff`: what the flags say
* `Session.skipped_of_rejected`, `Session.skipped_of_cut`: texts that are not run
* `Session.attempt_rejected`: a rejected text among others
-/

namespace Lox

namespace Event

/-- What tells of a problem or is kept in the log puts nothing on the output. -/
def Silent (e : Event) : Prop := e.out = ""

theorem silent_reported (r : Report) : (Event.reported r).Silent := rfl

theorem silent_logged (entry : LogEntry) : (Event.logged entry).Silent := rfl

end Event

theorem Transcript.out_of_silent {t : Transcript} (h : ∀ e ∈ t, e.Silent) : t.out = "" := by
  induction t with
  | nil => rfl
  | cons e t ih =>
    have hsplit := Transcript.out_append [e] t
    rw [List.singleton_append, ih fun x hx => h x (by simp [hx])] at hsplit
    rw [hsplit, Transcript.out, List.map_singleton, h e (by simp)]
    rfl

namespace Session

/-- The session after texts, one after another. -/
def afterAttempts (texts : List (Options × String)) : Session :=
  texts.foldl (fun s x => (s.attempt x.1 x.2).2) fresh

/-- The answers to texts, one after another. -/
def attempts (s : Session) : List (Options × String) → List Answer
  | [] => []
  | x :: rest => (s.attempt x.1 x.2).1 :: attempts (s.attempt x.1 x.2).2 rest

theorem length_attempts (s : Session) (texts : List (Options × String)) :
    (s.attempts texts).length = texts.length := by
  induction texts generalizing s with
  | nil => rfl
  | cons x rest ih => rw [attempts, List.length_cons, ih, List.length_cons]

theorem attempts_append (s : Session) (before after : List (Options × String)) :
    s.attempts (before ++ after) = s.attempts before ++
      (before.foldl (fun s x => (s.attempt x.1 x.2).2) s).attempts after := by
  induction before generalizing s with
  | nil => rfl
  | cons x rest ih => rw [List.cons_append, attempts, ih, attempts, List.cons_append]; rfl

theorem Twin.attempts {s s' : Session} (h : s.Twin Eq s') (texts : List (Options × String)) :
    s'.attempts texts = s.attempts texts := by
  induction texts generalizing s s' with
  | nil => rfl
  | cons x rest ih =>
    rw [Session.attempts, Session.attempts, h.attempt_eq x.1 x.2, ih (h.next_attempt x.1 x.2)]

/-- Every session is its own twin. -/
theorem twin_afterAttempts (texts : List (Options × String)) :
    (afterAttempts texts).Twin Eq (afterAttempts texts) := by
  have hfold : ∀ s : Session, s.Twin Eq s →
      (texts.foldl (fun s x => (s.attempt x.1 x.2).2) s).Twin Eq
        (texts.foldl (fun s x => (s.attempt x.1 x.2).2) s) := by
    induction texts with
    | nil => exact fun _ h => h
    | cons x rest ih => exact fun s h => ih _ (h.next_attempt x.1 x.2)
  exact hfold fresh (twin_fresh Eq)

/-! ## What is reported -/

variable {s : Session} {source : String} {r : Resolved}

theorem silent_parseEvents (p : Source) : ∀ e ∈ parseEvents p, e.Silent := by
  intro e he
  rcases List.mem_append.1 he with he | he
  · obtain ⟨x, -, rfl⟩ := List.mem_map.1 he
    exact Event.silent_reported x
  · obtain rfl := List.mem_singleton.1 he
    exact Event.silent_logged _

theorem silent_findings (findings : List (Finding Occurrence)) :
    ∀ e ∈ findings.map findingEvent, e.Silent := by
  intro e he
  obtain ⟨f, -, rfl⟩ := List.mem_map.1 he
  cases f with
  | resolved => exact Event.silent_logged _
  | misuse x => exact Event.silent_reported x

theorem reports_map_reported (rs : List Report) : Transcript.reports (rs.map .reported) = rs := by
  have hsome : Event.report? ∘ Event.reported = some := rfl
  rw [Transcript.reports, List.filterMap_map, hsome, List.filterMap_some]

theorem reports_parseEvents (p : Source) : Transcript.reports (parseEvents p) = p.reports := by
  rw [parseEvents, Transcript.reports_append, reports_map_reported]
  exact List.append_nil _

theorem reports_findings (findings : List (Finding Occurrence)) :
    Transcript.reports (findings.map findingEvent) = findings.filterMap Finding.report? := by
  rw [Transcript.reports, List.filterMap_map]
  congr 1
  funext f
  cases f <;> rfl

theorem reports_ending (o : Options) (halt : Option Halt) :
    Transcript.reports (ending o halt).2 = [] := by
  unfold ending
  split
  · split <;> rfl
  all_goals rfl

/-- Nothing that is seen of a run is a report. -/
theorem reports_outcome (s : Session) (o : Options) (r : Resolved) :
    Transcript.reports (s.outcome o r).transcript = [] := by
  obtain ⟨m, d, t, -, -, hsteps, hrun⟩ :=
    Config.exists_moment (s.setupFor o r) o.budget (s.launch r) []
  have htranscript : (s.outcome o r).transcript = t := by
    rcases hrun with hrun | ⟨halt, st, -, hrun⟩ <;>
      simp [outcome, Config.run, hrun, Run.transcript]
  rw [htranscript, hsteps.reports]

/-- A text that is run has no report, and one that is not run has some. -/
theorem reports_run_eq_nil (s : Session) (o : Options) (source : String) :
    Transcript.reports (s.run o source).1.transcript = [] ↔ s.accepted? source ≠ none := by
  cases hr : s.accepted? source with
  | some r =>
    obtain ⟨hparse, -, hresolve⟩ := accepted?_eq_some hr
    have hfindings : Transcript.reports (r.findings.map findingEvent) = [] := by
      rw [reports_findings]
      exact hresolve
    simp [run_of_accepted hr o, acceptedEvents, reports_parseEvents, hparse, hfindings,
      reports_outcome, reports_ending]
  | none =>
    suffices Transcript.reports (s.run o source).1.transcript ≠ [] by simpa using this
    -- the problem is one of the resolver, or the text does not get to it
    by_cases hparse : (parse source).reports = []
    · have hresolve :
          (Resolved.ofProgram s.locals.next (parse source).statements).reports ≠ [] := by
        simpa [accepted?, hparse] using hr
      rw [answer_of_misuses hparse hresolve]
      simp only [acceptedEvents, Transcript.reports_append, reports_findings]
      intro hnil
      rw [List.append_eq_nil_iff, List.append_eq_nil_iff] at hnil
      exact hresolve hnil.1.2
    · rw [run_of_reports hparse, Transcript.reports_append, reports_parseEvents]
      exact fun hnil => hparse (List.append_eq_nil_iff.1 hnil).1

/-- A problem was reported exactly if the flag says so. -/
theorem hadError_iff (s : Session) (o : Options) (source : String) :
    (s.run o source).1.hadError = true ↔
      Transcript.reports (s.run o source).1.transcript ≠ [] := by
  rw [Answer.hadError, decide_eq_true_iff, ending_run_eq_rejected, ne_eq, reports_run_eq_nil,
    not_not]

/-- A runtime error was told exactly if the flag says so. -/
theorem hadRuntimeError_iff (s : Session) (o : Options) (source : String) :
    (s.run o source).1.hadRuntimeError = true ↔
      Transcript.errors (s.run o source).1.transcript ≠ [] := by
  have hlength := length_errors_run s o source
  rw [Answer.hadRuntimeError, decide_eq_true_iff]
  split at hlength
  · next h => simp [h, List.ne_nil_of_length_eq_add_one hlength]
  · next h => simp [h, List.eq_nil_of_length_eq_zero hlength]

/-! ## Texts that are not run -/

/-- A text is not run: it prints nothing, tells no runtime error, and changes the session in the
distances of later occurrences at most. -/
structure Skipped (s : Session) (step : Answer × Session) : Prop where
  /-- Nothing is printed. -/
  silent : ∀ e ∈ step.1.transcript, e.Silent
  /-- No runtime error is told. -/
  errors : step.1.transcript.errors = []
  /-- The flag says so. -/
  hadRuntimeError : step.1.hadRuntimeError = false
  /-- The session is as it was, up to later distances. -/
  session : ∃ l, s.locals.Extends l ∧ step.2 = { s with locals := l }

theorem Skipped.out {step : Answer × Session} (h : s.Skipped step) :
    step.1.transcript.out = "" :=
  Transcript.out_of_silent h.silent

/-- The session after it is a twin of the one before. -/
theorem Skipped.twin {step : Answer × Session} (h : s.Skipped step) (hs : s.Twin Eq s) :
    step.2.Twin Eq s := by
  obtain ⟨l, hl, hstep⟩ := h.session
  rw [hstep]
  exact hs.extend_left hl

theorem silent_of_rejected (h : s.accepted? source = none) (o : Options) :
    ∀ e ∈ (s.run o source).1.transcript, e.Silent := by
  intro e he
  by_cases hparse : (parse source).reports = []
  · have hresolve : (Resolved.ofProgram s.locals.next (parse source).statements).reports ≠ [] := by
      simpa [accepted?, hparse] using h
    rw [answer_of_misuses hparse hresolve, acceptedEvents] at he
    rcases List.mem_append.1 he with he | he
    · rcases List.mem_append.1 he with he | he
      · exact silent_parseEvents _ e he
      · exact silent_findings _ e he
    · obtain rfl := List.mem_singleton.1 he
      exact Event.silent_logged _
  · rw [run_of_reports hparse] at he
    rcases List.mem_append.1 he with he | he
    · exact silent_parseEvents _ e he
    · obtain rfl := List.mem_singleton.1 he
      exact Event.silent_logged _

/-- A text in which a problem is reported is not run. -/
theorem skipped_of_rejected (h : s.accepted? source = none) (o : Options) :
    s.Skipped (s.run o source) := by
  have hsilent := silent_of_rejected h o
  obtain ⟨seen, hrun, herrors⟩ := run_of_rejected h o
  rw [hrun] at hsilent ⊢
  exact ⟨hsilent, herrors, rfl, _, s.extends_recorded source, rfl⟩

/-- A text that exhausts the stack before it is run. -/
theorem skipped_of_cut {o : Options} (h : o.host.cut? source ≠ none) (s : Session) :
    s.Skipped (s.attempt o source) ∧ (s.attempt o source).1.ending = .stackOverflow := by
  cases hcut : o.host.cut? source with
  | none => exact absurd hcut h
  | some cut =>
    cases cut with
    | parsing n =>
      -- nothing was numbered yet
      rw [attempt_of_parsing hcut]
      refine ⟨⟨fun e he => ?_, ?_, rfl, _, ⟨Nat.le_refl _, fun _ _ => rfl⟩, rfl⟩, rfl⟩
      · obtain ⟨x, -, rfl⟩ := List.mem_map.1 he
        exact Event.silent_reported x
      · exact List.filterMap_eq_nil_iff.2 fun e he => by
          obtain ⟨x, -, rfl⟩ := List.mem_map.1 he
          rfl
    | resolving n =>
      -- the whole text was numbered, and has the distances found up to there
      rw [attempt_of_resolving hcut]
      refine ⟨⟨fun e he => ?_, ?_, rfl, _, s.locals.extends_record_upTo _ n, rfl⟩, rfl⟩
      · rcases List.mem_append.1 he with he | he
        · exact silent_parseEvents _ e he
        · exact silent_findings _ e he
      · rw [Transcript.errors_append, errors_parseEvents, errors_findings]
        rfl

/-- Whether a problem was reported where the stack was not exhausted does not depend on how the
text would be run. -/
theorem reports_or_cut_iff (s : Session) (o : Options) (source : String) :
    (s.attempt o source).1.transcript.reports ≠ [] ∨ o.host.cut? source ≠ none ↔
      s.accepted? source = none ∨ o.host.cut? source ≠ none := by
  by_cases hcut : o.host.cut? source = none
  · rw [attempt_of_lasting hcut, ne_eq, reports_run_eq_nil, not_not]
  · simp [hcut]

/-- A text is not run if a problem is reported or the stack is exhausted. -/
theorem skipped_attempt {o : Options}
    (h : s.accepted? source = none ∨ o.host.cut? source ≠ none) :
    s.Skipped (s.attempt o source) := by
  by_cases hcut : o.host.cut? source = none
  · rw [attempt_of_lasting hcut]
    exact skipped_of_rejected (h.resolve_right (not_not.2 hcut)) o
  · exact (skipped_of_cut hcut s).1

/-- The flag for problems tells of those of texts that do not exhaust the stack. -/
theorem hadError_attempt_iff (s : Session) (o : Options) (source : String) :
    (s.attempt o source).1.hadError = true ↔
      o.host.cut? source = none ∧ (s.attempt o source).1.transcript.reports ≠ [] := by
  by_cases hcut : o.host.cut? source = none
  · rw [attempt_of_lasting hcut, hadError_iff, and_iff_right hcut]
  · simp [Answer.hadError, (skipped_of_cut hcut s).2, hcut]

theorem hadRuntimeError_attempt_iff (s : Session) (o : Options) (source : String) :
    (s.attempt o source).1.hadRuntimeError = true ↔
      (s.attempt o source).1.transcript.errors ≠ [] := by
  by_cases hcut : o.host.cut? source = none
  · rw [attempt_of_lasting hcut, hadRuntimeError_iff]
  · obtain ⟨hskipped, -⟩ := skipped_of_cut hcut s
    simp [hskipped.hadRuntimeError, hskipped.errors]

/-! ## A rejected text among others -/

open CommandLine (Invocation perform runScript exitOf)

/-- Running a script that is not run tells whether it exhausts the stack. -/
theorem runScript_of_skipped {o : Options}
    (h : fresh.accepted? source = none ∨ o.host.cut? source ≠ none) :
    (runScript o source).1.out = "" ∧
      (o.host.cut? source = none → (runScript o source).2 = .status .staticError) ∧
      (o.host.cut? source ≠ none → (runScript o source).2 = .status .runtimeError ∧
        Prompt.overflowNotice ∈ (runScript o source).1) := by
  have hout := (skipped_attempt h).out
  refine ⟨?_, fun hcut => ?_, fun hcut => ?_⟩
  · rw [runScript, Transcript.out_append, hout]
    unfold Prompt.afterRun
    split <;> rfl
  · have hending := (ending_run_eq_rejected o).2 (h.resolve_right (not_not.2 hcut))
    simp only [runScript, attempt_of_lasting hcut, hending, exitOf]
  · simp [runScript, (skipped_of_cut hcut fresh).2, Prompt.afterRun, exitOf]

/-- The program given a script that can be read. -/
theorem perform_script (o : Options) {w : CommandLine.Surroundings} {arguments : List String}
    {script : String} {verbose : Bool}
    (harguments : Invocation.ofArguments? arguments = some ⟨.run script, verbose⟩)
    (hscript : w.script script = .ok source) :
    perform o w arguments =
      ((runScript { o with interactive := false, trace := w.trace.enabled } source).1, verbose,
        (runScript { o with interactive := false, trace := w.trace.enabled } source).2) := by
  simp only [perform, harguments, Invocation.perform, CommandLine.withScript, hscript]

/-- The flags of a text say what was told, and never both. A text in which a problem is reported
prints nothing and leaves the objects as they were, and every other text is answered as if it
had not been there; so does one that exhausts the stack of the host before it is run, for which no
flag is set. A script in which a problem is reported leaves the status 65, unless it exhausts the
stack: then the notice of that is given, and the status is 70. -/
theorem attempt_rejected (before after : List (Options × String)) (o : Options) (source : String) :
    let s := afterAttempts before
    let step := s.attempt o source
    (step.1.hadError = true ↔ o.host.cut? source = none ∧ step.1.transcript.reports ≠ []) ∧
      (step.1.hadRuntimeError = true ↔ step.1.transcript.errors ≠ []) ∧
      ¬ (step.1.hadError = true ∧ step.1.hadRuntimeError = true) ∧
      (step.1.transcript.reports ≠ [] ∨ o.host.cut? source ≠ none →
        step.1.transcript.out = "" ∧ step.1.hadRuntimeError = false ∧
          (o.host.cut? source ≠ none → step.1.ending = .stackOverflow) ∧
          step.2.store = s.store ∧ step.2.readings = s.readings ∧
          step.2.operations = s.operations ∧
          fresh.attempts (before ++ after) =
            (fresh.attempts (before ++ (o, source) :: after)).eraseIdx before.length) ∧
      ∀ w arguments script verbose,
        Invocation.ofArguments? arguments = some ⟨.run script, verbose⟩ →
        w.script script = .ok source →
        (fresh.attempt o source).1.transcript.reports ≠ [] ∨ o.host.cut? source ≠ none →
          ∃ t status, perform o w arguments = (t, verbose, .status status) ∧ t.out = "" ∧
            (o.host.cut? source = none → status.code = 65) ∧
            (o.host.cut? source ≠ none → status.code = 70 ∧ Prompt.overflowNotice ∈ t) := by
  intro s step
  refine ⟨hadError_attempt_iff s o source, hadRuntimeError_attempt_iff s o source, ?_,
    fun h => ?_, fun w arguments script verbose harguments hscript h => ?_⟩
  · -- they tell of two different endings
    rintro ⟨herror, hruntime⟩
    have hrejected := of_decide_eq_true herror
    rw [of_decide_eq_true hruntime] at hrejected
    cases hrejected
  · have hskipped : s.Skipped step := skipped_attempt ((reports_or_cut_iff s o source).1 h)
    obtain ⟨l, -, hstep⟩ := hskipped.session
    refine ⟨hskipped.out, hskipped.hadRuntimeError, fun hcut => (skipped_of_cut hcut s).2,
      congrArg (·.store) hstep, congrArg (·.readings) hstep, congrArg (·.operations) hstep, ?_⟩
    -- the texts after it find a twin of the session that they would have found
    have hafter := (hskipped.twin (twin_afterAttempts before)).attempts after
    rw [attempts_append, attempts_append,
      List.eraseIdx_append_of_length_le (by rw [length_attempts]), length_attempts, Nat.sub_self]
    simp only [attempts, List.eraseIdx_cons_zero]
    exact congrArg _ hafter
  · -- a script is run in a fresh session, and without the options of a prompt
    have hskips := (reports_or_cut_iff fresh o source).1 h
    obtain ⟨hout, hlasting, hexhausted⟩ := runScript_of_skipped
      (o := { o with interactive := false, trace := w.trace.enabled }) hskips
    have hperform := perform_script o harguments hscript
    by_cases hcut : o.host.cut? source = none
    · exact ⟨_, .staticError, by rw [hperform, hlasting hcut], hout, fun _ => rfl,
        fun h => absurd hcut h⟩
    · obtain ⟨hexit, hnotice⟩ := hexhausted hcut
      exact ⟨_, .runtimeError, by rw [hperform, hexit], hout, fun h => absurd h hcut,
        fun _ => ⟨rfl, hnotice⟩⟩

/-- A text is rejected after the distance of a reference in it was found, between a function and
a call of it, and as a script. -/
theorem attempt_rejected_return :
    let source := "{ var a; a; } return;"
    let before := [(Options.still, "fun f() { return 1; }")]
    let step := (afterAttempts before).attempt .still source
    let w : CommandLine.Surroundings := { file? := fun _ => some source.toUTF8 }
    step.1.transcript.reports ≠ [] ∧ step.1.transcript.out = "" ∧ step.1.hadError = true ∧
      (fresh.attempts (before ++ [(.still, "print f();")])).length = 2 ∧
      fresh.attempts (before ++ [(.still, "print f();")]) =
        (fresh.attempts
          (before ++ (.still, source) :: [(.still, "print f();")])).eraseIdx 1 ∧
      ∃ t status, perform .still w ["return.lox"] = (t, false, .status status) ∧ t.out = "" ∧
        status.code = 65 := by
  intro source before step w
  have hreports : step.1.transcript.reports ≠ [] := by decide +kernel
  have hfresh : (fresh.attempt .still source).1.transcript.reports ≠ [] := by decide +kernel
  have hlasting : Options.still.host.cut? source = none := by decide +kernel
  have hscript : w.script "return.lox" = .ok source := by
    simp only [CommandLine.Surroundings.script, w,
      CommandLine.decodeScript?_toUTF8 (show '\r' ∉ source.toList by decide +kernel)]
  obtain ⟨herror, -, -, hrejected, hcommand⟩ :=
    attempt_rejected before [(.still, "print f();")] .still source
  obtain ⟨hout, -, -, -, -, -, hanswers⟩ := hrejected (.inl hreports)
  obtain ⟨t, status, hperform, hempty, hstatus, -⟩ :=
    hcommand w ["return.lox"] "return.lox" false (by decide) hscript (.inl hfresh)
  exact ⟨hreports, hout, herror.2 ⟨hlasting, hreports⟩, length_attempts _ _, hanswers, t, status,
    hperform, hempty, hstatus hlasting⟩

/-- A text in which the scanner reports a problem, and which takes more frames than there are. -/
theorem attempt_of_exhausting {o : Options} {frames : Nat} (hhost : o.host = .ofFrames frames)
    (hread : (Host.readWithin frames 0 (scan source).tokens).length < (scan source).tokens.length)
    (hreports : (scan source).reports ≠ []) (s : Session) :
    o.host.cut? source ≠ none ∧ (s.attempt o source).1.transcript.reports ≠ [] := by
  have hcut := Host.cut?_ofFrames hread
  have hle := Host.length_reports_le_reportsWithin frames (scan source)
  rw [← hhost] at hcut
  rw [attempt_of_parsing hcut, reports_map_reported, parse, List.take_append,
    List.take_of_length_le hle]
  exact ⟨by simp [hcut], List.append_ne_nil_of_left_ne_nil hreports _⟩

/-- A character that starts no token, and a number in parentheses. -/
def deepText (n : Nat) : List Char :=
  '@' :: List.replicate n '(' ++ '1' :: List.replicate n ')' ++ [';']

theorem decodeScript?_deepText (n : Nat) :
    CommandLine.decodeScript? (String.ofList (deepText n)).toUTF8 =
      some (String.ofList (deepText n)) :=
  CommandLine.decodeScript?_toUTF8 (by simp [deepText])

/-- A script in which the scanner reports a problem, and which exhausts the stack of the parser: no
flag is set, and the status is not that of a problem. -/
theorem perform_deepText {n : Nat}
    (hread : (Host.readWithin 10_000 0 (scan (String.ofList (deepText n))).tokens).length <
      (scan (String.ofList (deepText n))).tokens.length)
    (hreports : (scan (String.ofList (deepText n))).reports ≠ []) :
    let source := String.ofList (deepText n)
    let step := fresh.attempt .still source
    let w : CommandLine.Surroundings := { file? := fun _ => some source.toUTF8 }
    step.1.transcript.reports ≠ [] ∧ step.1.hadError = false ∧
      ∃ t, perform .still w ["deep.lox"] = (t, false, .status .runtimeError) ∧
        CommandLine.ExitStatus.runtimeError.code ≠ 65 := by
  intro source step w
  obtain ⟨hcut, hreported⟩ :=
    attempt_of_exhausting (show Options.still.host = .ofFrames 10_000 from rfl) hread hreports fresh
  refine ⟨hreported, ?_, ?_⟩
  · rw [Answer.hadError, show step.1.ending = .stackOverflow from (skipped_of_cut hcut fresh).2]
    rfl
  · have hscript : w.script "deep.lox" = .ok source := by
      simp only [CommandLine.Surroundings.script, w, source, decodeScript?_deepText]
    obtain ⟨-, -, hexhausted⟩ := runScript_of_skipped
      (o := { Options.still with interactive := false, trace := w.trace.enabled }) (.inr hcut)
    have harguments : Invocation.ofArguments? ["deep.lox"] = some ⟨.run "deep.lox", false⟩ := by
      decide
    rw [perform_script .still harguments hscript, (hexhausted hcut).1]
    exact ⟨_, rfl, by decide⟩

/-- A script in which the scanner reports a problem, and whose thousand parentheses exhaust the
stack. -/
theorem attempt_deep :
    let source := String.ofList (deepText 1000)
    let step := fresh.attempt .still source
    let w : CommandLine.Surroundings := { file? := fun _ => some source.toUTF8 }
    step.1.transcript.reports ≠ [] ∧ step.1.hadError = false ∧
      ∃ t, perform .still w ["deep.lox"] = (t, false, .status .runtimeError) ∧
        CommandLine.ExitStatus.runtimeError.code ≠ 65 := by
  apply perform_deepText
  · rw [scan, String.toList_ofList]
    decide +kernel
  · rw [scan, String.toList_ofList]
    decide +kernel

end Session

end Lox
