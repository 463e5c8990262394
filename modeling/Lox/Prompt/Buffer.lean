import Lox.Scan.Tokens
import Lox.Text.Blank

/-!
# The prompt's buffer

The text being typed at the prompt, with a cursor. Enter submits the text, unless brackets are
still open: then it starts a line that is indented by their number. A blank last line submits
what is above it in any case, and a command is submitted at once.

## Main definitions

* `openDepth`: the brackets that are open at the end of a text
* `Buffer`, with `Buffer.insert` and `Buffer.deleteBefore`
* `Buffer.enter`, `Buffer.backspace`: the two keys
-/

namespace Lox.Prompt

/-- The depth after one more token: a closing bracket that closes nothing is passed over. -/
def depthAfter (depth : Nat) (t : Token) : Nat :=
  match t.kind with
  | .symbol .leftParen | .symbol .leftBrace => depth + 1
  | .symbol .rightParen | .symbol .rightBrace => depth - 1
  | _ => depth

/-- The brackets that are open at the end of a text. -/
def openDepth (s : List Char) : Nat := (scanChars s).tokens.foldl depthAfter 0

/-- The spaces before a line that continues a text: four for each open bracket. -/
def indent (s : List Char) : List Char := List.replicate (4 * openDepth s) ' '

/-- Whether a text starts a command. -/
def startsCommand (s : List Char) : Bool := s.head? = some '/'

/-- A text with a cursor in front of one of its characters or at its end. -/
structure Buffer where
  /-- The text. -/
  text : List Char
  /-- The number of characters before the cursor. -/
  cursor : Nat
  deriving DecidableEq, Repr

/-- What a key asks for beside its change of the buffer. -/
inductive Action where
  /-- The text is handed over. -/
  | submit
  /-- Completions are shown. -/
  | complete
  deriving DecidableEq, Repr

namespace Buffer

/-- A text with the cursor at its end. -/
def ofText (s : List Char) : Buffer := ⟨s, s.length⟩

/-- The buffer with a text inserted at the cursor. -/
def insert (b : Buffer) (s : List Char) : Buffer :=
  ⟨b.text.take b.cursor ++ s ++ b.text.drop b.cursor, b.cursor + s.length⟩

/-- The buffer without the character before the cursor. -/
def deleteBefore (b : Buffer) : Buffer :=
  ⟨b.text.take (b.cursor - 1) ++ b.text.drop b.cursor, b.cursor - 1⟩

/-- The text without its last line, if it has several and the last is blank. -/
def withoutBlankLine? (s : List Char) : Option (List Char) :=
  let ls := Text.lines s
  match ls.getLast?, ls.dropLast with
  | some last, first :: rest =>
    if Text.isBlankText last then some (Text.unlines (first :: rest)) else none
  | _, _ => none

/-- The key Enter. -/
def enter (b : Buffer) : Buffer × List Action :=
  match withoutBlankLine? b.text with
  | some s => (ofText s, [.submit])
  | none =>
    -- a command is complete on one line, whatever brackets its argument opens
    if !startsCommand b.text && 0 < openDepth b.text then
      (b.insert ('\n' :: indent b.text), [])
    else (b, [.submit])

/-- The key Backspace. -/
def backspace (b : Buffer) : Buffer × List Action :=
  let b := b.deleteBefore
  (b, if startsCommand b.text then [.complete] else [])

end Buffer

end Lox.Prompt
