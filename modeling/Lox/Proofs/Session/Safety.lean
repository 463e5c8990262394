import Lox.Proofs.Session.History

/-!
# Accepted texts are safe

A text in which no problem is reported never runs into an internal fault, whatever became of
the texts before it. At every moment of its run the recorded distances lead to what is looked
up, `super` stands for a class, and calls have as many arguments as parameters. What ends the
run is the end of the program, one runtime error or too many nested calls.

## Main results

* `Session.run_safe`: running any text after any others
-/

namespace Lox

namespace Session

/-! ## Endings -/

theorem halt_of_fault {o : Options} {halt : Option Halt} {f : Fault}
    (h : (ending o halt).1 = .fault f) : halt = some (.aborted (.fault f)) := by
  unfold ending at h
  split at h <;> simp_all

theorem ending_ne_rejected (o : Options) (halt : Option Halt) : (ending o halt).1 ≠ .rejected := by
  unfold ending
  split <;> simp

/-- What is seen of the end of a run is a runtime error exactly if it ended the run. -/
theorem length_errors_ending (o : Options) (halt : Option Halt) :
    (Transcript.errors (ending o halt).2).length =
      if (ending o halt).1 = .failed then 1 else 0 := by
  unfold ending
  split
  · split <;> rfl
  all_goals rfl

/-! ## Runs -/

variable {s : Session} {source : String} {r : Resolved}

/-- Nothing that is seen before the end of a run is a runtime error. -/
theorem errors_outcome (s : Session) (o : Options) (r : Resolved) :
    Transcript.errors (s.outcome o r).transcript = [] := by
  obtain ⟨m, d, t, -, -, hsteps, hrun⟩ :=
    Config.exists_moment (s.setupFor o r) o.budget (s.launch r) []
  have htranscript : (s.outcome o r).transcript = t := by
    rcases hrun with hrun | ⟨halt, st, -, hrun⟩ <;>
      simp [outcome, Config.run, hrun, Run.transcript]
  rw [htranscript, hsteps.errors]

/-- A text is not run exactly if a problem is reported. -/
theorem ending_run_eq_rejected (o : Options) :
    (s.run o source).1.ending = .rejected ↔ s.accepted? source = none := by
  cases hr : s.accepted? source with
  | none =>
    obtain ⟨seen, hrun, -⟩ := run_of_rejected hr o
    simp [hrun]
  | some r =>
    rw [run_of_accepted hr o]
    simpa using ending_ne_rejected o _

/-- A runtime error is told once, if it ends the run, and not at all otherwise. -/
theorem length_errors_run (s : Session) (o : Options) (source : String) :
    (Transcript.errors (s.run o source).1.transcript).length =
      if (s.run o source).1.ending = .failed then 1 else 0 := by
  cases hr : s.accepted? source with
  | none =>
    obtain ⟨seen, hrun, hseen⟩ := run_of_rejected hr o
    simp [hrun, hseen]
  | some r =>
    rw [run_of_accepted hr o]
    simp only [Transcript.errors_append, errors_acceptedEvents, errors_outcome, List.nil_append]
    exact length_errors_ending o _

end Session

namespace History.Valid

variable {h : History} {source : String} {r : Resolved}

theorem ending_ne_fault (hv : h.Valid) (o : Options) (source : String) (f : Fault) :
    (h.session.run o source).1.ending ≠ .fault f := by
  cases hr : h.session.accepted? source with
  | none =>
    obtain ⟨seen, hrun, -⟩ := Session.run_of_rejected hr o
    simp [hrun]
  | some r =>
    rw [Session.run_of_accepted hr o]
    intro hfault
    have hlegal := (Config.fits_run (hv.fits r) (hv.surveyed hr o) o.budget []).2
    exact hlegal _ (Session.halt_of_fault hfault) f rfl

theorem safe (hv : h.Valid) (hr : h.session.accepted? source = some r) {o : Options} {n : Nat}
    {c : Config} (hc : (h.session.launch r).after? (h.session.setupFor o r) n = some c) :
    c.Safe (h.session.setupFor o r) :=
  (Config.fits_after (hv.fits r) (hv.surveyed hr o) hc).safe (hv.surveyed hr o)

end History.Valid

/-- Running a text after any others never ends in an internal fault; it tells one runtime error
if that ends it, and none otherwise. If no problem is reported, then at every moment of the run
what is looked up next is there. -/
theorem Session.run_safe (texts : List (Options × String)) (o : Options) (source : String) :
    (∀ f, ((ofTexts texts).run o source).1.ending ≠ .fault f) ∧
      (((ofTexts texts).run o source).1.ending = .rejected ↔
        (ofTexts texts).accepted? source = none) ∧
      (Transcript.errors ((ofTexts texts).run o source).1.transcript).length =
        (if ((ofTexts texts).run o source).1.ending = .failed then 1 else 0) ∧
      ∀ r ∈ (ofTexts texts).accepted? source, ∀ n, ∀ c,
        ((ofTexts texts).launch r).after? ((ofTexts texts).setupFor o r) n = some c →
          c.Safe ((ofTexts texts).setupFor o r) := by
  have hv := History.valid_ofTexts texts
  rw [← History.session_ofTexts]
  exact ⟨hv.ending_ne_fault o source, ending_run_eq_rejected o, length_errors_run _ o source,
    fun r hr n c hc => hv.safe hr hc⟩

/-- After a text that failed inside a method, a method of a class with a superclass is run. -/
theorem Session.run_safe_method :
    let s := ofTexts [(.still, "class A { m() { nil(); } } A().m();")]
    ∃ r c,
      s.accepted? "class B < A { m() { super.m; } } B().m();" = some r ∧
        (s.launch r).after? (s.setupFor .still r) 15 = some c ∧
        c.state.environment ≠ Store.globals ∧ c.Safe (s.setupFor .still r) := by
  intro s
  have hmoment : ((s.accepted? "class B < A { m() { super.m; } } B().m();").bind fun r =>
      (s.launch r).after? (s.setupFor .still r) 15).any
        (·.state.environment ≠ Store.globals) := by
    decide +kernel
  obtain ⟨c, hc, hinside⟩ := (Option.any_eq_true ..).1 hmoment
  obtain ⟨r, hr, hc⟩ := Option.bind_eq_some_iff.1 hc
  exact ⟨r, c, hr, hc, of_decide_eq_true hinside, (run_safe _ .still _).2.2.2 r hr 15 c hc⟩

end Lox
