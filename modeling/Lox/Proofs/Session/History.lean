import Lox.Proofs.Machine.Chains
import Lox.Proofs.Parser.Scanned
import Lox.Session

/-!
# Histories of sessions

A session runs texts one after another, whatever became of the earlier ones. Its history keeps
the programs that were run and what every environment was made for. The world of a history is
sound after any texts, so every run of an accepted text starts in a sound world.

## Main definitions

* `Session.accepted?`: what a text in which no problem is reported is resolved to
* `Session.recorded`: the distances after a text
* `Session.launch`, `Session.setupFor`, `Session.outcome`: the run of an accepted text
* `Session.ofTexts`: a session after some texts
* `History`, `History.ofTexts`: a session with its past
* `History.Valid`: what holds of every history

## Main results

* `Session.run_of_accepted`, `Session.run_of_rejected`: what running a text comes to
* `History.valid_ofTexts`: every history is valid
* `History.Valid.fits`: the run of an accepted text starts in a sound world
-/

namespace Lox

/-- Options with a clock that stands still. -/
def Options.still : Options := { clock := fun _ => 0 }

namespace Session

/-- What a text is resolved to, unless a problem is reported. -/
def accepted? (s : Session) (source : String) : Option Resolved :=
  let p := parse source
  let r := Resolved.ofProgram s.locals.next p.statements
  if p.reports.isEmpty && r.reports.isEmpty then some r else none

/-- The distances after a text: those of a text that is parsed are recorded. -/
def recorded (s : Session) (source : String) : Locals :=
  if (parse source).reports.isEmpty
  then s.locals.record (Resolved.ofProgram s.locals.next (parse source).statements)
  else s.locals

/-- The setup of the run of a resolved text. -/
def setupFor (s : Session) (o : Options) (r : Resolved) : Setup := setup o (s.locals.record r)

/-- Where the run of a resolved text starts. -/
def launch (s : Session) (r : Resolved) : Config :=
  Config.ofProgram { store := s.store, readings := s.readings, operations := s.operations } r.body

/-- What the run of a resolved text comes to. -/
def outcome (s : Session) (o : Options) (r : Resolved) : Run :=
  (s.launch r).run (s.setupFor o r) o.budget

/-- What is seen of a text in which no problem is reported before it is run. -/
def acceptedEvents (p : Source) (r : Resolved) : Transcript :=
  parseEvents p ++ r.findings.map findingEvent

/-- A session after some texts. -/
def ofTexts (texts : List (Options × String)) : Session :=
  texts.foldl (fun s x => (s.run x.1 x.2).2) fresh

variable {s : Session} {source : String} {r : Resolved}

theorem accepted?_eq_some (h : s.accepted? source = some r) :
    (parse source).reports = [] ∧ r = Resolved.ofProgram s.locals.next (parse source).statements ∧
      r.reports = [] := by
  simp only [accepted?, Option.ite_none_right_eq_some, Bool.and_eq_true, List.isEmpty_iff,
    Option.some.injEq] at h
  obtain ⟨⟨hparse, hresolve⟩, rfl⟩ := h
  exact ⟨hparse, rfl, hresolve⟩

theorem errors_parseEvents (p : Source) : Transcript.errors (parseEvents p) = [] :=
  List.filterMap_eq_nil_iff.2 fun event hevent => by
    rcases List.mem_append.1 hevent with h | h
    · obtain ⟨x, -, rfl⟩ := List.mem_map.1 h
      rfl
    · obtain rfl := List.mem_singleton.1 h
      rfl

theorem errors_findings (findings : List (Finding Occurrence)) :
    Transcript.errors (findings.map findingEvent) = [] :=
  List.filterMap_eq_nil_iff.2 fun event hevent => by
    obtain ⟨f, -, rfl⟩ := List.mem_map.1 hevent
    cases f <;> rfl

theorem errors_acceptedEvents (p : Source) (r : Resolved) :
    Transcript.errors (acceptedEvents p r) = [] := by
  rw [acceptedEvents, Transcript.errors_append, errors_parseEvents, errors_findings,
    List.append_nil]

theorem errors_logged (entry : LogEntry) : Transcript.errors [.logged entry] = [] := rfl

/-- A text in which a problem is reported is not run. -/
theorem run_of_rejected (h : s.accepted? source = none) (o : Options) :
    ∃ seen, s.run o source = (⟨seen, .rejected⟩, { s with locals := s.recorded source }) ∧
      Transcript.errors seen = [] := by
  by_cases hparse : (parse source).reports = []
  · have hresolve : (Resolved.ofProgram s.locals.next (parse source).statements).reports ≠ [] := by
      simpa [accepted?, hparse] using h
    refine ⟨_, by simp only [run, runParsed, recorded, hparse, List.isEmpty_iff, hresolve]; rfl, ?_⟩
    rw [Transcript.errors_append, Transcript.errors_append, errors_parseEvents, errors_findings,
      errors_logged]
    rfl
  · refine ⟨_, by rw [run_of_reports hparse o s, recorded, if_neg (by simpa using hparse)], ?_⟩
    rw [Transcript.errors_append, errors_parseEvents, errors_logged]
    rfl

/-- A text in which no problem is reported is run. -/
theorem run_of_accepted (h : s.accepted? source = some r) (o : Options) :
    s.run o source =
      (⟨acceptedEvents (parse source) r ++
          ((s.outcome o r).transcript ++ (ending o (s.outcome o r).halt).2),
        (ending o (s.outcome o r).halt).1⟩,
      ⟨(s.outcome o r).state.store, s.locals.record r, (s.outcome o r).state.readings,
        (s.outcome o r).state.operations⟩) := by
  obtain ⟨hparse, rfl, hresolve⟩ := accepted?_eq_some h
  simp only [run, runParsed, hparse, hresolve, List.isEmpty_nil, if_true]
  rfl

end Session

/-! ## Histories -/

/-- A session with the programs that were run in it and what each of its environments was made
for. -/
structure History where
  /-- The session. -/
  session : Session
  /-- The programs. -/
  programs : List (List Code)
  /-- What the environments were made for, in the order of their identities. -/
  origins : List Origin

namespace History

/-- Nothing was run. -/
def fresh : History := ⟨Session.fresh, [], [.globals]⟩

/-- The history after one more text. -/
def next (h : History) (o : Options) (source : String) : History :=
  let session := (h.session.run o source).2
  match h.session.accepted? source with
  | some r =>
    { session
      programs := h.programs ++ [r.body]
      origins := h.origins ++
        (h.session.launch r).openedWithin (h.session.setupFor o r) o.budget }
  | none => { h with session }

/-- The history after some texts. -/
def ofTexts (texts : List (Options × String)) : History :=
  texts.foldl (fun h x => h.next x.1 x.2) fresh

variable {h : History} {o : Options} {source : String} {r : Resolved}

theorem session_next : (h.next o source).session = (h.session.run o source).2 := by
  unfold next
  cases h.session.accepted? source <;> rfl

theorem session_ofTexts (texts : List (Options × String)) :
    (ofTexts texts).session = Session.ofTexts texts := by
  have hfold : ∀ h : History, (texts.foldl (fun h x => h.next x.1 x.2) h).session =
      texts.foldl (fun s x => (s.run x.1 x.2).2) h.session := by
    induction texts with
    | nil => exact fun h => rfl
    | cons x rest ih => exact fun h => by rw [List.foldl_cons, List.foldl_cons, ih, session_next]
  exact hfold fresh

/-- The world of a history. -/
def world (h : History) : World := ⟨SitesOf h.programs, h.session.store, h.origins⟩

/-- What holds of every history. -/
structure Valid (h : History) : Prop where
  /-- The world is sound. -/
  sound : h.world.Sound
  /-- The distances of the programs are recorded. -/
  records : ∀ body ∈ h.programs, h.session.locals.Records body
  /-- No two references of the programs share a mark. -/
  nodup : (h.programs.flatMap Stmt.marksAll).Nodup
  /-- The environments around closures lead to the globals. -/
  closed : h.session.store.Closed

theorem valid_fresh : fresh.Valid where
  sound := World.sound_fresh.withSites fun _ h => h.elim
  records := by simp [fresh]
  nodup := by simp [fresh]
  closed f fn hfn := by cases hfn

namespace Valid

/-- The programs with one that is accepted are recorded. -/
theorem records_accepted (hv : h.Valid) (hr : h.session.accepted? source = some r) :
    ∀ body ∈ h.programs ++ [r.body], (h.session.locals.record r).Records body := by
  obtain ⟨hparse, rfl, hresolve⟩ := Session.accepted?_eq_some hr
  intro body hbody
  rcases List.mem_append.1 hbody with hbody | hbody
  · exact (hv.records body hbody).record _
  · obtain rfl := List.mem_singleton.1 hbody
    exact Locals.records_record (genuineAll_parse hparse) hresolve

theorem surveyed (hv : h.Valid) (hr : h.session.accepted? source = some r) (o : Options) :
    Surveyed (h.session.setupFor o r).locals (SitesOf (h.programs ++ [r.body])) :=
  surveyed_sitesOf (hv.records_accepted hr)

/-- No two references share a mark in the programs with one that is accepted. -/
theorem nodup_accepted (hv : h.Valid) (hr : h.session.accepted? source = some r) :
    ((h.programs ++ [r.body]).flatMap Stmt.marksAll).Nodup := by
  obtain ⟨-, rfl, -⟩ := Session.accepted?_eq_some hr
  have hnumbers := Locals.numbers_ofProgram h.session.locals.next (parse source).statements
  rw [List.flatMap_append, List.nodup_append]
  refine ⟨hv.nodup, by simpa using hnumbers.nodup, fun i hi j hj => ?_⟩
  obtain ⟨body, hbody, hi⟩ := List.mem_flatMap.1 hi
  have hlt := (hv.records body hbody).marks i hi
  have hle := (hnumbers.mem_iff.1 (by simpa using hj)).1
  exact Nat.ne_of_lt (Nat.lt_of_lt_of_le hlt hle)

/-- The run of an accepted text starts in a sound world. -/
theorem fits (hv : h.Valid) (r : Resolved) :
    (h.session.launch r).Fits (SitesOf (h.programs ++ [r.body])) h.origins where
  sound := hv.sound.withSites fun p ⟨body, hbody, hp⟩ => ⟨body, by simp [hbody], hp⟩
  control := .complete .globals (by simp) ⟨rfl, r.body, by simp, .root⟩

/-- The programs stay recorded when a text is read. -/
theorem records_recorded (hv : h.Valid) (source : String) :
    ∀ body ∈ h.programs, (h.session.recorded source).Records body := by
  intro body hbody
  unfold Session.recorded
  split
  · exact (hv.records body hbody).record _
  · exact hv.records body hbody

/-- One more text keeps a history valid. -/
theorem next (hv : h.Valid) (o : Options) (source : String) : (h.next o source).Valid := by
  unfold History.next
  cases hr : h.session.accepted? source with
  | none =>
    obtain ⟨seen, hrun, -⟩ := Session.run_of_rejected hr o
    rw [hrun]
    exact ⟨hv.sound, hv.records_recorded source, hv.nodup, hv.closed⟩
  | some r =>
    rw [Session.run_of_accepted hr o]
    have hfits := hv.fits r
    have hsurveyed := hv.surveyed hr o
    exact ⟨(Config.fits_run hfits hsurveyed o.budget []).1, hv.records_accepted hr,
      hv.nodup_accepted hr, (Config.closed_run hfits hsurveyed hv.closed o.budget []).1⟩

end Valid

/-- Every history is valid. -/
theorem valid_ofTexts (texts : List (Options × String)) : (ofTexts texts).Valid := by
  have hfold : ∀ h : History, h.Valid → (texts.foldl (fun h x => h.next x.1 x.2) h).Valid := by
    induction texts with
    | nil => exact fun h hv => hv
    | cons x rest ih => exact fun h hv => ih _ (hv.next x.1 x.2)
  exact hfold fresh valid_fresh

end History

end Lox
