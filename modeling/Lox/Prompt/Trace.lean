import Lox.Text.Blank

/-!
# The trace flag

Whether runtime errors are followed by a trace is kept as the text of a variable of the
surroundings, which may also be missing: the flag is on if the text, without blanks at its ends
and whatever the case of its letters, is one of four words.

## Main definitions

* `TraceFlag`, with `TraceFlag.enabled` and `TraceFlag.set`

## Main results

* `enabled_set`: a flag that was set is as it was set
-/

namespace Lox

/-- The text of the trace variable, unless it is missing. -/
structure TraceFlag where
  /-- The text. -/
  raw : Option String := none
  deriving DecidableEq, Repr

namespace Text

/-- A text with small letters for the capital letters from A to Z. -/
def lower (s : List Char) : List Char := s.map Char.toLower

/-- Whether a text is one of some words, whatever the case of its letters. -/
def isOneOf (s : List Char) (words : List String) : Bool :=
  words.any fun w => lower s = w.toList

end Text

namespace TraceFlag

/-- Whether the flag is on. -/
def enabled (f : TraceFlag) : Bool :=
  Text.isOneOf (Text.trim (f.raw.getD "").toList) ["1", "true", "yes", "on"]

/-- The flag turned on or off. -/
def set : Bool → TraceFlag
  | true => ⟨some "1"⟩
  | false => ⟨none⟩

/-- A flag that was set is as it was set. -/
@[simp] theorem enabled_set (on : Bool) : (set on).enabled = on := by
  cases on <;> decide +kernel

end TraceFlag

end Lox
