import Lox.Host
import Lox.Machine.Run

/-!
# Sessions

A session runs one source text after another. Its objects and the distances of all references
it has resolved survive from one text to the next. A text in which a problem is reported is not
run and leaves the objects as they were, though the distances that were found up to there stay
recorded; a run that is cut off keeps what it did up to there.

## Main definitions

* `Options`: how a session runs its texts
* `Ending`, `Answer`: how running a text ended, and what could be seen
* `Session`, `Session.fresh`
* `Session.run`: running a text
* `Session.attempt`: running a text as far as the stack of the host lasts
* `Session.runUnresolved`: running a text without resolving it

## Main results

* `run_of_reports`: a text that cannot be parsed changes nothing
-/

namespace Lox

/-- How a session runs its texts. -/
structure Options where
  /-- Whether the values of expression statements are echoed. -/
  interactive : Bool := false
  /-- Whether a runtime error is followed by a trace. -/
  trace : Bool := false
  /-- How many calls may be nested. -/
  callLimit : Nat := 1000
  /-- How many steps a run may take. -/
  budget : Nat := 1_000_000_000_000_000
  /-- What the clock shows when it is read for the `n`-th time in the session. -/
  clock : Nat → Float
  /-- Which texts exhaust the stack before they are run. -/
  host : Host := .standard

/-- How running a text ended. -/
inductive Ending where
  /-- A problem was reported, and nothing was run. -/
  | rejected
  /-- The program came to its end. -/
  | completed
  /-- A runtime error ended the program. -/
  | failed
  /-- An internal fault ended the program. -/
  | fault (f : Fault)
  /-- Calls were nested too deeply, or the text was. -/
  | stackOverflow
  /-- The program needs more steps than it was given. -/
  | unfinished
  deriving DecidableEq, Repr

/-- What could be seen of running a text, and how it ended. -/
structure Answer where
  /-- What could be seen. -/
  transcript : Transcript
  /-- How it ended. -/
  ending : Ending

namespace Answer

/-- Whether a problem was reported. -/
def hadError (a : Answer) : Bool := a.ending = .rejected

/-- Whether a runtime error ended the program. -/
def hadRuntimeError (a : Answer) : Bool := a.ending = .failed

end Answer

/-- What survives from one text to the next. -/
structure Session where
  /-- The objects. -/
  store : Store
  /-- The distances of references. -/
  locals : Locals
  /-- How often the clock was read. -/
  readings : Nat
  /-- How many operations were done. -/
  operations : Nat

namespace Session

/-- A session in which nothing was run. -/
def fresh : Session := ⟨Store.fresh, {}, 0, 0⟩

/-- What ends a run, and what is seen of it. -/
def ending (o : Options) : Option Halt → Ending × Transcript
  | some (.aborted (.error e)) =>
    (.failed, .failed e :: if o.trace then [.traced] else [])
  | some (.aborted (.fault f)) => (.fault f, [])
  | some (.aborted .stackOverflow) => (.stackOverflow, [])
  | some .finished | some (.value _) => (.completed, [])
  | none => (.unfinished, [])

/-- The setup of a run. -/
def setup (o : Options) (locals : Locals) : Setup :=
  { interactive := o.interactive, callLimit := o.callLimit, clock := o.clock, locals }

/-- Running statements with given distances. -/
def execute (o : Options) (s : Session) (body : List Code) : Answer × Session :=
  match s with
  | { store, locals, readings, operations } =>
    let r := (Config.ofProgram { store, readings, operations } body).run (setup o locals) o.budget
    let (outcome, seen) := ending o r.halt
    (⟨r.transcript ++ seen, outcome⟩,
      { store := r.state.store, locals, readings := r.state.readings,
        operations := r.state.operations })

/-- What is seen of scanning and parsing. -/
def parseEvents (p : Source) : Transcript :=
  p.reports.map .reported ++ [.logged (.parsed p.scan.all.length p.statements.length)]

/-- What is seen of a finding. -/
def findingEvent : Finding Occurrence → Event
  | .resolved _ ref distance => .logged (.resolved ref.token.lexeme ref.token.line distance)
  | .misuse r => .reported r

/-- Running statements that were parsed without a problem, after what was seen before. The
distances are recorded even if a misuse is found. -/
def runParsed (o : Options) (s : Session) (seen : Transcript) (body : List (Stmt Unit)) :
    Answer × Session :=
  let r := Resolved.ofProgram s.locals.next body
  let seen := seen ++ r.findings.map findingEvent
  let s := { s with locals := s.locals.record r }
  if r.reports.isEmpty then
    let (answer, s) := execute o s r.body
    (⟨seen ++ answer.transcript, answer.ending⟩, s)
  else (⟨seen ++ [.logged .scopeRejected], .rejected⟩, s)

/-- Running a text that does not exhaust the stack before it is run. -/
def run (o : Options) (s : Session) (source : String) : Answer × Session :=
  let p := parse source
  let seen := parseEvents p
  if p.reports.isEmpty then runParsed o s seen p.statements
  else (⟨seen ++ [.logged .syntaxRejected], .rejected⟩, s)

/-- Running a text as far as the stack of the host lasts. If that is exhausted before the text is
run, what was found up to there stays reported and recorded. -/
def attempt (o : Options) (s : Session) (source : String) : Answer × Session :=
  let p := parse source
  match o.host.cut? source with
  | none => s.run o source
  | some (.parsing n) => (⟨(p.reports.take n).map .reported, .stackOverflow⟩, s)
  | some (.resolving n) =>
    let r := (Resolved.ofProgram s.locals.next p.statements).upTo n
    (⟨parseEvents p ++ r.findings.map findingEvent, .stackOverflow⟩,
      { s with locals := s.locals.record r })

/-- A text that does not exhaust the stack is run. -/
theorem attempt_of_lasting {o : Options} {source : String} (h : o.host.cut? source = none)
    (s : Session) : s.attempt o source = s.run o source := by
  simp only [attempt, h]

theorem attempt_of_parsing {o : Options} {source : String} {n : Nat}
    (h : o.host.cut? source = some (.parsing n)) (s : Session) :
    s.attempt o source =
      (⟨((parse source).reports.take n).map .reported, .stackOverflow⟩, s) := by
  simp only [attempt, h]

theorem attempt_of_resolving {o : Options} {source : String} {n : Nat}
    (h : o.host.cut? source = some (.resolving n)) (s : Session) :
    s.attempt o source =
      (⟨parseEvents (parse source) ++
          ((Resolved.ofProgram s.locals.next (parse source).statements).findings.take n).map
            findingEvent, .stackOverflow⟩,
        { s with
          locals := s.locals.record
            ((Resolved.ofProgram s.locals.next (parse source).statements).upTo n) }) := by
  simp only [attempt, h, Resolved.upTo]

/-- Running the statements of a text, whatever was reported, without resolving them: every
variable is looked up among the globals. -/
def runUnresolved (o : Options) (source : String) : Answer :=
  let p := parse source
  let (answer, _) := execute o fresh (Stmt.numberAll 0 p.statements).1
  ⟨p.reports.map .reported ++ answer.transcript, answer.ending⟩

/-- A text that the scanner or the parser rejects changes nothing. -/
theorem run_of_reports {source : String} (h : (parse source).reports ≠ []) (o : Options)
    (s : Session) :
    s.run o source =
      (⟨parseEvents (parse source) ++ [.logged .syntaxRejected], .rejected⟩, s) := by
  simp [run, h]

end Session

end Lox
