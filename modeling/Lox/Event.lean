import Lox.RuntimeError
import Lox.Report

/-!
# Events

What a session does that can be seen from outside, in order: it prints, echoes the values of
statements, reports problems, tells the error that ended a run, and keeps a log. A transcript
is a list of events; what appears on the output and on the error output is read off it.

## Main definitions

* `LogEntry`, with `LogEntry.text`
* `Event`
* `Event.out`, `Event.err`: what an event puts on the two outputs
* `Transcript.out`, `Transcript.err`, `Transcript.reports`, `Transcript.errors`,
  `Transcript.log`: views of a transcript

## Main results

* `Transcript.out_append` and its like: the views follow the transcript
-/

namespace Lox

/-- What the log records. -/
inductive LogEntry where
  /-- A source was scanned and parsed. -/
  | parsed (tokens statements : Nat)
  /-- The scanner or the parser reported a problem. -/
  | syntaxRejected
  /-- The resolver reported a problem. -/
  | scopeRejected
  /-- A reference was resolved. -/
  | resolved (lexeme : String) (line distance : Nat)
  /-- A class was made. -/
  | classMade (name : String) (methods statics : Nat) (superclass : Option String)
  deriving DecidableEq, Repr

namespace LogEntry

open Decimal.Layout (digits)

/-- The part of the program that writes an entry. -/
def logger : LogEntry → String
  | parsed .. | syntaxRejected | scopeRejected => "treelox.runner"
  | resolved .. => "treelox.resolver"
  | classMade .. => "treelox.runtime"

/-- The message of an entry. -/
def message : LogEntry → String
  | parsed tokens statements =>
    "scanned " ++ digits tokens ++ " tokens, parsed " ++ digits statements ++ " statements"
  | syntaxRejected => "syntax errors reported, skipping resolution"
  | scopeRejected => "resolution errors reported, skipping execution"
  | resolved lexeme line distance =>
    "resolved " ++ Text.quoted lexeme ++ " at line " ++ digits line ++ " to distance " ++
      digits distance
  | classMade name methods statics superclass =>
    "class " ++ name ++ " created: " ++ digits methods ++ " methods, " ++ digits statics ++
      " static, superclass=" ++ superclass.getD "None"

/-- The line of an entry. -/
def text (e : LogEntry) : String := e.logger ++ ": " ++ e.message

end LogEntry

/-- What can be seen of a session. -/
inductive Event where
  /-- A program printed a text. -/
  | printed (text : String)
  /-- The value of a statement was shown. -/
  | echoed (text : String)
  /-- A problem was reported. -/
  | reported (report : Report)
  /-- A runtime error ended a run. -/
  | failed (error : RuntimeError)
  /-- The trace of the program itself was asked for after a runtime error. -/
  | traced
  /-- A line of the command line or the prompt on the output. -/
  | told (text : String)
  /-- A line of the command line or the prompt on the error output. -/
  | warned (text : String)
  /-- An entry of the log. -/
  | logged (entry : LogEntry)
  deriving DecidableEq, Repr

namespace Event

/-- What an event puts on the output. -/
def out : Event → String
  | printed text | echoed text | told text => Text.line text
  | _ => ""

/-- What an event puts on the error output; a verbose session shows its log there. -/
def err (verbose : Bool) : Event → String
  | reported r => Text.line r.text
  | failed e => Text.line e.notice
  | traced => "\nPython traceback:\n"
  | warned text => Text.line text
  | logged entry => if verbose then Text.line entry.text else ""
  | _ => ""

/-- The report of an event. -/
def report? : Event → Option Report
  | reported r => some r
  | _ => none

/-- The runtime error of an event. -/
def error? : Event → Option RuntimeError
  | failed e => some e
  | _ => none

/-- The log entry of an event. -/
def log? : Event → Option LogEntry
  | logged entry => some entry
  | _ => none

end Event

/-- Events in the order in which they happened. -/
abbrev Transcript := List Event

namespace Transcript

/-- What a transcript puts on the output. -/
def out (t : Transcript) : String := String.join (t.map Event.out)

/-- What a transcript puts on the error output. -/
def err (verbose : Bool) (t : Transcript) : String := String.join (t.map (Event.err verbose))

/-- The problems that were reported. -/
def reports (t : Transcript) : List Report := t.filterMap Event.report?

/-- The runtime errors. -/
def errors (t : Transcript) : List RuntimeError := t.filterMap Event.error?

/-- The log. -/
def log (t : Transcript) : List LogEntry := t.filterMap Event.log?

/-- The output follows the transcript. -/
@[simp] theorem out_append (a b : Transcript) : out (a ++ b) = out a ++ out b := by
  simp [out, String.join_append]

@[simp] theorem err_append (verbose : Bool) (a b : Transcript) :
    err verbose (a ++ b) = err verbose a ++ err verbose b := by
  simp [err, String.join_append]

@[simp] theorem reports_append (a b : Transcript) : reports (a ++ b) = reports a ++ reports b := by
  simp [reports]

@[simp] theorem errors_append (a b : Transcript) : errors (a ++ b) = errors a ++ errors b := by
  simp [errors]

end Transcript

end Lox
