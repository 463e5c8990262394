import Lox.Prompt.Loop
import Lox.Syntax.Printer

/-!
# The command line

The program runs a script, lists the tokens or the syntax trees of one, or starts the prompt.
A script that is rejected, or ended by a runtime error, leaves an exit status of its own.

## Main definitions

* `Action`, `Invocation`, `Invocation.ofArguments?`: what the arguments ask for
* `decodeScript?`: the text of a script file
* `Invocation.perform`: what is done, and the exit status
-/

namespace Lox.CommandLine

/-- What the program does. -/
inductive Action where
  /-- Lists the tokens of a script. -/
  | tokens (script : String)
  /-- Lists the syntax trees of a script. -/
  | trees (script : String)
  /-- Runs a script. -/
  | run (script : String)
  /-- Starts the prompt. -/
  | prompt
  deriving DecidableEq, Repr

/-- The script that an action is about. -/
def Action.script? : Action → Option String
  | .tokens script | .trees script | .run script => some script
  | .prompt => none

/-- What is asked of the program. -/
structure Invocation where
  /-- What it does. -/
  action : Action
  /-- Whether the log is shown. -/
  verbose : Bool
  deriving DecidableEq, Repr

/-- What is done with a script. -/
inductive Mode where
  | run | tokens | trees
  deriving DecidableEq, Repr

/-- The arguments that have been read. -/
structure Reading where
  /-- What is done with the script. -/
  mode : Mode := .run
  /-- Whether the log is shown. -/
  verbose : Bool := false
  /-- The script. -/
  script : Option String := none

namespace Reading

/-- The arguments with one more read; of the flags for the mode the last counts, and there is
at most one script. -/
def add (r : Reading) (argument : String) : Option Reading :=
  if argument = "--tokens" then some { r with mode := .tokens }
  else if argument = "--ast" then some { r with mode := .trees }
  else if argument = "-v" ∨ argument = "--verbose" then some { r with verbose := true }
  else if argument.toList.head? = some '-' ∨ r.script.isSome then none
  else some { r with script := some argument }

/-- What is asked of the program: a listing needs a script. -/
def invocation? (r : Reading) : Option Invocation :=
  match r.mode, r.script with
  | .run, some script => some ⟨.run script, r.verbose⟩
  | .run, none => some ⟨.prompt, r.verbose⟩
  | .tokens, some script => some ⟨.tokens script, r.verbose⟩
  | .trees, some script => some ⟨.trees script, r.verbose⟩
  | _, none => none

end Reading

/-- What the arguments ask for, if they are understood. -/
def Invocation.ofArguments? (arguments : List String) : Option Invocation :=
  (arguments.foldlM Reading.add {}).bind Reading.invocation?

/-- A text with one line feed for every way to end a line: a carriage return, alone or before a
line feed. -/
def unifyLineEnds : List Char → List Char
  | '\r' :: '\n' :: rest => '\n' :: unifyLineEnds rest
  | '\r' :: rest => '\n' :: unifyLineEnds rest
  | c :: rest => c :: unifyLineEnds rest
  | [] => []

/-- The text of a script file, if its bytes encode one. -/
def decodeScript? (bytes : ByteArray) : Option String :=
  (String.fromUTF8? bytes).map fun s => String.ofList (unifyLineEnds s.toList)

theorem unifyLineEnds_of_not_mem {s : List Char} (h : '\r' ∉ s) : unifyLineEnds s = s := by
  induction s using unifyLineEnds.induct with
  | case1 | case2 => simp at h
  | case3 c rest _ _ ih =>
    simp only [List.mem_cons, not_or] at h
    rw [unifyLineEnds, ih h.2] <;> simp_all
  | case4 => rfl

/-- A text without carriage returns is read as it was written. -/
theorem decodeScript?_toUTF8 {source : String} (h : '\r' ∉ source.toList) :
    decodeScript? source.toUTF8 = some source := by
  have hdecode : String.fromUTF8? source.toUTF8 = some source := dif_pos source.isValidUTF8
  rw [decodeScript?, hdecode, Option.map_some, unifyLineEnds_of_not_mem h, String.ofList_toList]

/-- Why a script cannot be read. -/
inductive FileError where
  /-- There is no such file. -/
  | missing
  /-- The file encodes no text. -/
  | undecodable
  deriving DecidableEq, Repr

/-- The exit statuses of the program. -/
inductive ExitStatus where
  | success | usage | staticError | runtimeError
  deriving DecidableEq, Repr

namespace ExitStatus

/-- The number of a status. -/
def code : ExitStatus → Nat
  | success => 0
  | usage => 64
  | staticError => 65
  | runtimeError => 70

end ExitStatus

/-- How the program ends. -/
inductive Exit where
  /-- With a status. -/
  | status (s : ExitStatus)
  /-- A script could not be read. -/
  | unreadable (e : FileError)
  /-- A script ran into an internal fault, or needs more steps than it was given. -/
  | crashed (ending : Ending)
  deriving DecidableEq, Repr

/-- What is shown when the arguments are not understood. -/
def usage : Transcript := [.told "Usage: treelox [--tokens | --ast] [-v] [script]"]

/-- What is shown of the tokens of a script. -/
def listTokens (source : String) : Transcript :=
  let s := scan source
  s.reports.map .reported ++ s.all.map fun t => .told t.display

/-- What is shown of the syntax trees of a script. -/
def listTrees (source : String) : Transcript :=
  let p := parse source
  p.reports.map .reported ++ p.statements.map fun s => .told s.text

/-- The end of the program after running a script. -/
def exitOf : Ending → Exit
  | .completed => .status .success
  | .rejected => .status .staticError
  | .failed | .stackOverflow => .status .runtimeError
  | .fault f => .crashed (.fault f)
  | .unfinished => .crashed .unfinished

/-- Running a script in a session of its own. -/
def runScript (o : Options) (source : String) : Transcript × Exit :=
  let answer := (Session.fresh.attempt o source).1
  (answer.transcript ++ Prompt.afterRun answer.ending, exitOf answer.ending)

/-- What the surroundings of the program give it. -/
structure Surroundings where
  /-- The bytes of a file, if there is one of the name. -/
  file? : String → Option ByteArray
  /-- The trace flag. -/
  trace : TraceFlag := {}
  /-- What the prompt is given. -/
  inputs : List Input := []

namespace Surroundings

/-- The text of a script. -/
def script (w : Surroundings) (name : String) : Except FileError String :=
  match w.file? name with
  | none => .error .missing
  | some bytes =>
    match decodeScript? bytes with
    | some source => .ok source
    | none => .error .undecodable

end Surroundings

/-- What is done with a script, if it can be read. -/
def withScript (w : Surroundings) (name : String) (use : String → Transcript × Exit) :
    Transcript × Exit :=
  match w.script name with
  | .ok source => use source
  | .error e => ([], .unreadable e)

/-- What is done, what is shown, and the end of the program. -/
def Invocation.perform (o : Options) (w : Surroundings) (i : Invocation) : Transcript × Exit :=
  let o := { o with interactive := false, trace := w.trace.enabled }
  match i.action with
  | .tokens script => withScript w script fun s => (listTokens s, .status .success)
  | .trees script => withScript w script fun s => (listTrees s, .status .success)
  | .run script => withScript w script (runScript o)
  | .prompt => (({ trace := w.trace } : Prompt).run o w.inputs, .status .success)

/-- What the program shows for its arguments, whether it shows the log, and its end. -/
def perform (o : Options) (w : Surroundings) (arguments : List String) :
    Transcript × Bool × Exit :=
  match Invocation.ofArguments? arguments with
  | some i =>
    let (t, exit) := i.perform o w
    (t, i.verbose, exit)
  | none => (usage, false, .status .usage)

end Lox.CommandLine
