import Lox.CommandLine
import Std.Time.DateTime.Timestamp

/-!
# The program

The arguments, the script and the typed lines are read here, and the transcripts that the
library answers with are written out. Nothing is decided here but where a text comes from and
where it goes.

## Main definitions

* `Console.write`: a transcript on the two outputs
* `Console.readText`: a text typed over one or several lines
* `main`: the program
-/

namespace Lox.Console

open CommandLine (Exit Invocation Surroundings)

/-- The variable of the surroundings that holds the trace flag. -/
def traceVariable : String := "TREELOX_DEBUG_PY_TRACE"

/-- The time in seconds. -/
def now : IO Float := do
  let t ← Std.Time.Timestamp.now
  return Float.ofInt t.toNanosecondsSinceUnixEpoch.val / 1e9

/-- The options of a run that starts now: the clock advances with every reading. -/
def options : IO Options := do
  let t ← now
  return { clock := fun n => t + n.toFloat * 1e-6 }

/-- A transcript on the output and the error output. -/
def write (verbose : Bool) (t : Transcript) : IO Unit := do
  let out ← IO.getStdout
  let err ← IO.getStderr
  for event in t do
    out.putStr event.out
    err.putStr (event.err verbose)
  out.flush

/-- The bytes of a file, if it can be read. -/
def readFile? (name : String) : IO (Option ByteArray) := do
  try
    return some (← IO.FS.readBinFile name)
  catch _ =>
    return none

/-- A text typed over one or several lines, nothing if the input is at its end: the key Enter
says whether a line ends the text. -/
partial def readText (mark : String) (buffer : Prompt.Buffer) : IO (Option String) := do
  let out ← IO.getStdout
  out.putStr mark
  out.flush
  let line ← (← IO.getStdin).getLine
  if line.isEmpty then
    return none
  let (buffer, actions) := (buffer.insert (line.toList.filter (· != '\n'))).enter
  if actions.contains .submit then
    return some (String.ofList buffer.text)
  else
    readText "... " buffer

/-- The prompt, until the input ends. -/
partial def converse (verbose : Bool) (p : Prompt) : IO Unit := do
  match ← readText "> " (.ofText []) with
  | some s =>
    let (t, p) := p.feed (← options) (.text s)
    write verbose t
    converse verbose p
  | none => write verbose Prompt.farewell

/-- The line that tells why the program could not go on. -/
def complaint? : Exit → Option String
  | .status _ => none
  | .unreadable .missing => some "No such file."
  | .unreadable .undecodable => some "The file is not encoded in UTF-8."
  | .crashed (.fault f) => some f.message
  | .crashed _ => some "The program needs too many steps."

/-- The number that the program ends with. -/
def number : Exit → UInt32
  | .status s => s.code.toUInt32
  | .unreadable _ | .crashed _ => 1

/-- The program for its arguments, other than the prompt. -/
def runOnce (trace : TraceFlag) (arguments : List String) : IO UInt32 := do
  let script := (Invocation.ofArguments? arguments).bind (·.action.script?)
  let bytes ← match script with
    | some name => readFile? name
    | none => pure none
  let surroundings : Surroundings := { file? := fun _ => bytes, trace }
  let (t, verbose, exit) := CommandLine.perform (← options) surroundings arguments
  write verbose t
  if let some complaint := complaint? exit then
    IO.eprintln complaint
  return number exit

end Lox.Console

/-- The program. -/
def main (arguments : List String) : IO UInt32 := do
  let trace : Lox.TraceFlag := ⟨← IO.getEnv Lox.Console.traceVariable⟩
  match Lox.CommandLine.Invocation.ofArguments? arguments with
  | some ⟨.prompt, verbose⟩ =>
    Lox.Console.write verbose Lox.Prompt.banner
    Lox.Console.converse verbose { trace }
    return 0
  | _ => Lox.Console.runOnce trace arguments
