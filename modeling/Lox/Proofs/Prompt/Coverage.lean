import Lox.Proofs.Prompt.Placement

/-!
# What highlighting leaves of a line

Highlighting cuts a line and loses nothing of it: at every moment the fragments so far are the text
up to where the search goes on, whichever tokens are left and wherever their lexemes are found.
Lines that were asked for are kept, which nobody notices: an answer depends on its line alone.

## Main definitions

* `Prompt.Highlighter.askAll`: lines asked for one after another
* `Prompt.Highlighter.Sound`: what was kept is what would be found

## Main results

* `Prompt.text_fragments`: the fragments of what is left of a line make it up
* `Prompt.Highlighter.Sound.ask`: asking for one more line
* `Prompt.Highlighter.text_ask`: the fragments of a line of a document make it up
-/

namespace Lox.Prompt

/-- The fragments of what is left of a line make it up, whatever tokens are left. -/
theorem text_fragments (left : List Char) (before : List TokenKind) (ts : List Token) :
    (fragments left before ts).flatMap Fragment.text = left := by
  induction ts generalizing left before with
  | nil => exact text_plain left
  | cons t ts ih =>
    simp only [fragments]
    split
    · next gap after hfind =>
      -- the gap, the lexeme and what follows it are what was left
      have hwhole := findIn_append hfind
      rw [List.flatMap_append, text_plain, List.flatMap_cons, ih]
      simpa using hwhole
    · exact ih left (t.kind :: before)

/-- The fragments of a line make it up. -/
theorem text_highlight (line : List Char) : (highlight line).flatMap Fragment.text = line := by
  cases line with
  | nil => rfl
  | cons c rest => exact text_fragments (c :: rest) [] _

namespace Highlighter

variable {h : Highlighter}

/-- Lines are asked for one after another. -/
def askAll (h : Highlighter) (asked : List Nat) : Highlighter :=
  asked.foldl (fun h n => (h.ask n).2) h

/-- What was kept for a line is what would be found for it. -/
def Sound (h : Highlighter) : Prop :=
  ∀ n fragments, h.found.lookup n = some fragments → fragments = highlightLine h.document n

/-- A line is answered from the document, and what is kept of the answer is sound. -/
theorem Sound.ask (hs : h.Sound) (n : Nat) :
    (h.ask n).1 = highlightLine h.document n ∧ (h.ask n).2.Sound ∧
      (h.ask n).2.document = h.document := by
  unfold Highlighter.ask
  split
  · next fragments hfound => exact ⟨hs n fragments hfound, hs, rfl⟩
  · refine ⟨rfl, ?_, rfl⟩
    intro m fragments hm
    rw [List.lookup_cons] at hm
    split at hm
    · next heq =>
      rw [eq_of_beq heq]
      exact (Option.some.inj hm).symm
    · exact hs m fragments hm

theorem Sound.askAll (hs : h.Sound) (asked : List Nat) :
    (h.askAll asked).Sound ∧ (h.askAll asked).document = h.document := by
  induction asked generalizing h with
  | nil => exact ⟨hs, rfl⟩
  | cons n asked ih =>
    obtain ⟨-, hnext, hdocument⟩ := hs.ask n
    obtain ⟨hlast, hsame⟩ := ih hnext
    exact ⟨hlast, hsame.trans hdocument⟩

/-- The fragments of a line of a document make up the line, and whatever lines were asked for
before, they are the same. -/
theorem text_ask (document : List Char) (asked : List Nat) {n : Nat} {line : List Char}
    (hline : (Text.lines document)[n]? = some line) :
    let answer := (({ document : Highlighter }.askAll asked).ask n).1
    answer.flatMap Fragment.text = line ∧ answer = highlightLine document n := by
  intro answer
  have hfresh : ({ document : Highlighter }).Sound := by
    intro m fragments hm
    cases hm
  obtain ⟨hsound, hdocument⟩ := hfresh.askAll asked
  have hanswer : answer = highlightLine document n :=
    (hsound.ask n).1.trans (by rw [hdocument])
  refine ⟨?_, hanswer⟩
  rw [hanswer, highlightLine, hline, Option.getD_some, text_highlight]

/-- A line with a misleading comment, an unexpected character and a string that is not closed,
asked for a second time. -/
theorem text_ask_unclosed :
    let document := "x\n/* nil */ nil @ nil \"nil".toList
    let line := "/* nil */ nil @ nil \"nil".toList
    (Text.lines document)[1]? = some line ∧
      (({ document : Highlighter }.askAll [1, 0, 7]).ask 1).1.flatMap Fragment.text = line := by
  intro document line
  have hline : (Text.lines document)[1]? = some line := by decide +kernel
  exact ⟨hline, (text_ask document [1, 0, 7] hline).1⟩

end Highlighter

end Lox.Prompt
