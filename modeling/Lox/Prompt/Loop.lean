import Lox.Prompt.Command
import Lox.Session

/-!
# The prompt

The prompt reads one input after the other: a text is normalized and then passed over if it is
blank, obeyed if it is a command, and otherwise run in an interactive session. What the session
reports has been told when the next input is read, and calls that are nested too deeply end one
text only.

## Main definitions

* `Input`: what the prompt is given
* `Prompt`: the state between inputs
* `Prompt.feed`: one input
* `Prompt.run`: inputs up to their end
-/

namespace Lox

/-- What the prompt is given. -/
inductive Input where
  /-- A text. -/
  | text (s : String)
  /-- An interruption of the typing. -/
  | interrupt
  deriving DecidableEq, Repr

/-- The state of the prompt between inputs. -/
structure Prompt where
  /-- The session that runs texts. -/
  session : Session := .fresh
  /-- The trace flag. -/
  trace : TraceFlag := {}

namespace Prompt

/-- What is shown before the first input. -/
def banner : Transcript := [.told "treelox repl, Ctrl-D to exit, / for commands"]

/-- What is shown when the input ends. -/
def farewell : Transcript := [.told ""]

/-- The line that tells that calls were nested too deeply. -/
def overflowNotice : Event := .warned "Fatal: stack overflow."

/-- What follows the answer of a session. -/
def afterRun : Ending → Transcript
  | .stackOverflow => [overflowNotice]
  | _ => []

/-- A text is run. -/
def runText (o : Options) (p : Prompt) (source : String) : Transcript × Prompt :=
  let o := { o with interactive := true, trace := p.trace.enabled }
  let (answer, session) := p.session.run o source
  (answer.transcript ++ afterRun answer.ending, { p with session })

/-- A command is obeyed. -/
def obey (p : Prompt) : Command → Transcript × Prompt
  | .clear => ([.told "<clear>"], p)
  | .reset => ([.told "Environment reset."], { p with session := .fresh })
  | .unknown name => ([.warned ("Unknown command: " ++ name)], p)
  | .trace request =>
    match request.apply p.trace with
    | some trace =>
      ([.told ("Python traceback: " ++ if trace.enabled then "on" else "off")],
        { p with trace })
    | none => ([.warned "Usage: /py-traceback [on|off]"], p)

/-- One input: what is shown, and the state after it. -/
def feed (o : Options) (p : Prompt) : Input → Transcript × Prompt
  | .interrupt => ([.told "KeyboardInterrupt"], p)
  | .text s =>
    let line := normalize s.toList
    if Text.isBlankText line then ([], p)
    else
      match Command.ofLine? line with
      | some command => p.obey command
      | none => p.runText o (String.ofList line)

/-- What is shown for each input, and the state after the last. -/
def feedAll (o : Options) (p : Prompt) : List Input → List (Transcript × Prompt)
  | [] => []
  | input :: rest =>
    let step := p.feed o input
    step :: step.2.feedAll o rest

/-- What is shown from the first line to the last. -/
def run (o : Options) (p : Prompt) (inputs : List Input) : Transcript :=
  banner ++ (p.feedAll o inputs).flatMap (·.1) ++ farewell

end Prompt

end Lox
