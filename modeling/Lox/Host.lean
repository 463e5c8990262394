import Lox.Parser.Statement

/-!
# The stack of the host

A text is parsed and resolved by functions that call each other as deeply as it is nested, on a
host whose stack is limited. So the stack may be exhausted before the text is run. What was
reported and recorded up to there stays. A script is run on such a host, by `Session.attempt`;
`Session.run` is what becomes of a text where there is stack enough.

## Main definitions

* `Exhaustion`: where a text exhausts the stack
* `Host`: which texts do so
* `Host.ofFrames`, `Host.standard`: hosts by the size of the stack
-/

namespace Lox

/-- Where a text exhausts the stack, before it is run. -/
inductive Exhaustion where
  /-- In the parser, after some reports of the scanner and the parser. -/
  | parsing (reports : Nat)
  /-- In the resolver, after some of its findings. -/
  | resolving (findings : Nat)
  deriving DecidableEq, Repr

/-- What texts do to the stack of a host. -/
structure Host where
  /-- Where a text exhausts the stack, if it does. -/
  exhausted? : String → Option Exhaustion

namespace Host

/-- Where the stack is exhausted on the way to running a text. -/
def cut? (h : Host) (source : String) : Option Exhaustion :=
  match h.exhausted? source with
  | some (.resolving n) => if (parse source).reports.isEmpty then some (.resolving n) else none
  | cut => cut

/-- A text in which the scanner or the parser reports a problem does not get to the resolver. -/
theorem reports_of_resolving {h : Host} {source : String} {n : Nat}
    (hcut : h.cut? source = some (.resolving n)) : (parse source).reports = [] := by
  unfold cut? at hcut
  split at hcut
  · exact List.isEmpty_iff.1 (Option.ite_none_right_eq_some.1 hcut).1
  · next hne => exact absurd hcut (hne n)

/-- The frames on the stack after a token, from those before it. The parser takes sixteen from one
open parenthesis to the next, and three from one open brace to the next. -/
def framesAfter (frames : Nat) (t : Token) : Nat :=
  match t.kind with
  | .symbol .leftParen => frames + 16
  | .symbol .rightParen => frames - 16
  | .symbol .leftBrace => frames + 3
  | .symbol .rightBrace => frames - 3
  | _ => frames

/-- The tokens that are read before the frames are more than `limit`. -/
def readWithin (limit frames : Nat) : List Token → List Token
  | [] => []
  | t :: rest =>
    if limit < framesAfter frames t then []
    else t :: readWithin limit (framesAfter frames t) rest

/-- How many reports are made before the frames are more than `limit`. -/
def reportsWithin (limit : Nat) (s : Scan) : Nat :=
  -- at the end of what is read the parser only misses what the stack has no room for
  let reply := Parser.program ⟨readWithin limit 0 s.tokens, s.finish⟩
  s.reports.length + reply.reports.countP (·.place ≠ .atEnd)

/-- A host whose stack has room for `limit` frames, as far as they are due to brackets: those that
the parser takes for anything else, and those of the resolver, are not counted. -/
def ofFrames (limit : Nat) : Host where
  exhausted? source :=
    let s := scan source
    if (readWithin limit 0 s.tokens).length < s.tokens.length
    then some (.parsing (reportsWithin limit s)) else none

/-- A text whose brackets take more frames than there are is cut off in the parser. -/
theorem cut?_ofFrames {limit : Nat} {source : String}
    (h : (readWithin limit 0 (scan source).tokens).length < (scan source).tokens.length) :
    (ofFrames limit).cut? source = some (.parsing (reportsWithin limit (scan source))) := by
  simp only [cut?, ofFrames, if_pos h]

/-- What the scanner reports is reported before the parser is called. -/
theorem length_reports_le_reportsWithin (limit : Nat) (s : Scan) :
    s.reports.length ≤ reportsWithin limit s :=
  Nat.le_add_right _ _

/-- A host whose stack has the room that the program asks for. -/
def standard : Host := ofFrames 10_000

end Host

end Lox
