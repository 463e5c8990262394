import Lox.Prompt.Buffer
import Lox.Prompt.Trace

/-!
# Commands at the prompt

A line whose first character that is not blank is a slash is a command: its first word names
it, and what follows is its argument.

## Main definitions

* `normalize`: a line without invisible characters
* `Command`, `Command.ofLine?`: the command of a line
* `Completion`, `completions`: the commands that a text may be the start of
-/

namespace Lox.Prompt

/-- The characters that are dropped from what is typed. -/
def invisible : List Char :=
  ['\u200b', '\u200c', '\u200d', '\ufeff', '\u00a0', '\r']

/-- A line without invisible characters. -/
def normalize (s : List Char) : List Char := s.filter fun c => !invisible.contains c

/-- What is asked of the trace flag. -/
inductive TraceRequest where
  /-- To be on or off. -/
  | set (on : Bool)
  /-- To change. -/
  | toggle
  /-- Something that is not understood. -/
  | unclear
  deriving DecidableEq, Repr

/-- The commands of the prompt. -/
inductive Command where
  /-- Clears the screen. -/
  | clear
  /-- Changes the trace flag. -/
  | trace (request : TraceRequest)
  /-- Starts a new session. -/
  | reset
  /-- A command that there is not. -/
  | unknown (name : String)
  deriving DecidableEq, Repr

namespace TraceRequest

/-- The request that an argument makes. -/
def ofArgument (s : List Char) : TraceRequest :=
  if Text.isOneOf s ["on", "1", "true", "yes"] then .set true
  else if Text.isOneOf s ["off", "0", "false", "no"] then .set false
  else if s = [] then .toggle
  else .unclear

/-- The flag after a request, if the request is clear. -/
def apply (f : TraceFlag) : TraceRequest → Option TraceFlag
  | .set on => some (.set on)
  | .toggle => some (.set !f.enabled)
  | .unclear => none

end TraceRequest

namespace Command

/-- The command of a name and an argument. -/
def ofWords (name argument : List Char) : Command :=
  if name = "/clear".toList then .clear
  else if name = "/py-traceback".toList then .trace (.ofArgument argument)
  else if name = "/reset".toList then .reset
  else .unknown (String.ofList name)

/-- The command of a line, if it is one. -/
def ofLine? (line : List Char) : Option Command :=
  let s := Text.trim line
  if startsCommand s then
    let (name, argument) := Text.cutWord s
    some (ofWords name argument)
  else none

end Command

/-- A command that completes a text. -/
structure Completion where
  /-- The name of the command. -/
  name : String
  /-- The number of characters that it replaces. -/
  replaced : Nat
  /-- What the command does. -/
  description : String
  deriving DecidableEq, Repr

/-- The names and the descriptions of the commands. -/
def commandList : List (String × String) :=
  [("/clear", "Clear the terminal screen"),
   ("/py-traceback", "Toggle Python traceback on errors"),
   ("/reset", "Reset the REPL environment")]

/-- The commands that a text may be the start of. -/
def completions (s : List Char) : List Completion :=
  if startsCommand s then
    (commandList.filter fun c => s.isPrefixOf c.1.toList).map fun c => ⟨c.1, s.length, c.2⟩
  else []

end Lox.Prompt
