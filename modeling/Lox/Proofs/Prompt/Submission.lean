import Lox.Prompt.Buffer

/-!
# What Enter hands over

Enter at the end of a text hands the text over, or it starts a line because a bracket is open. The
line that it starts is blank, also where a string or a comment of the text is still open, so the
next Enter takes it away again and hands over the text as it was. Of what was typed, nothing is left
out but a blank last line.

## Main definitions

* `Prompt.Buffer.EndsBlank`: a text of several lines whose last line is blank

## Main results

* `Text.lines_append_cons`: the last line of a text
* `Prompt.Buffer.withoutBlankLine?_eq_some_iff`: what stands above a blank last line
* `Prompt.Buffer.enter_continued`: Enter on a line that Enter has started
* `Prompt.Buffer.enter_twice`: Enter hands over a text at the first press or at the second
-/

namespace Lox

namespace Text

/-! ## The last line of a text -/

/-- The lines of a text are its parts between line feeds. -/
theorem lines_eq_splitOn (s : List Char) : lines s = s.splitOn '\n' := by
  induction s with
  | nil => rfl
  | cons c rest ih =>
    obtain ⟨line, more, hrest⟩ := List.exists_cons_of_ne_nil (lines_ne_nil rest)
    have hsplit : rest.splitOn '\n' = line :: more := ih.symm.trans hrest
    by_cases hc : c = '\n' <;>
      simp [lines, List.splitOn_cons_eq_if_modifyHead, hc, hrest, hsplit]

/-- What follows a line feed, if it is one line, is the last line. -/
theorem lines_append_cons (above : List Char) {last : List Char} (hlast : '\n' ∉ last) :
    lines (above ++ '\n' :: last) = lines above ++ [last] := by
  simp only [lines_eq_splitOn, List.splitOn_append_cons_self]
  rw [List.splitOn_eq_singleton hlast]

/-- A text without a line feed is one line. -/
theorem lines_of_not_mem {s : List Char} (h : '\n' ∉ s) : lines s = [s] :=
  (lines_eq_splitOn s).trans (List.splitOn_eq_singleton h)

/-- A text is one line, or it has a last line below others. -/
theorem exists_last_line (s : List Char) :
    '\n' ∉ s ∨ ∃ above last, s = above ++ '\n' :: last ∧ '\n' ∉ last := by
  induction s with
  | nil => exact .inl List.not_mem_nil
  | cons c rest ih =>
    rcases ih with hrest | ⟨above, last, rfl, hlast⟩
    -- a line feed in front is the last one only if none follows
    · by_cases hc : c = '\n'
      · exact .inr ⟨[], rest, by rw [hc, List.nil_append], hrest⟩
      · exact .inl (by simp [Ne.symm hc, hrest])
    · exact .inr ⟨c :: above, last, rfl, hlast⟩

/-- Spaces are blank. -/
theorem isBlankText_replicate (n : Nat) : isBlankText (List.replicate n ' ') := by
  refine List.all_eq_true.2 fun c hc => ?_
  rw [List.eq_of_mem_replicate hc]
  decide

end Text

namespace Prompt.Buffer

/-! ## Blank last lines -/

/-- A text has several lines, and the last is blank. -/
structure EndsBlank (s above last : List Char) : Prop where
  /-- The last line stands below the others. -/
  text_eq : s = above ++ '\n' :: last
  /-- It is one line. -/
  one_line : '\n' ∉ last
  /-- It is blank. -/
  blank : Text.isBlankText last

/-- A text with a last line below others is cut off above that line just if the line is blank. -/
theorem withoutBlankLine?_append (above : List Char) {last : List Char} (hlast : '\n' ∉ last) :
    withoutBlankLine? (above ++ '\n' :: last) =
      if Text.isBlankText last then some above else none := by
  obtain ⟨first, rest, hlines⟩ := List.exists_cons_of_ne_nil (Text.lines_ne_nil above)
  have habove : Text.unlines (first :: rest) = above := hlines ▸ Text.unlines_lines above
  simp only [withoutBlankLine?, Text.lines_append_cons above hlast, List.getLast?_concat,
    List.dropLast_concat, hlines, habove]

/-- One line is not cut off. -/
theorem withoutBlankLine?_of_not_mem {s : List Char} (h : '\n' ∉ s) :
    withoutBlankLine? s = none := by
  simp [withoutBlankLine?, Text.lines_of_not_mem h]

/-- A text is cut off above a blank last line, and only there. -/
theorem withoutBlankLine?_eq_some_iff {s above : List Char} :
    withoutBlankLine? s = some above ↔ ∃ last, EndsBlank s above last := by
  constructor
  · intro h
    rcases Text.exists_last_line s with hline | ⟨above', last, rfl, hlast⟩
    · rw [withoutBlankLine?_of_not_mem hline] at h
      cases h
    · rw [withoutBlankLine?_append above' hlast] at h
      obtain ⟨hblank, habove⟩ := Option.ite_none_right_eq_some.1 h
      rw [← Option.some.inj habove]
      exact ⟨last, rfl, hlast, hblank⟩
  · rintro ⟨last, rfl, hlast, hblank⟩
    rw [withoutBlankLine?_append above hlast, if_pos hblank]

/-! ## The key Enter at the end of a text -/

@[simp] theorem text_ofText (s : List Char) : (ofText s).text = s := rfl

/-- What is inserted at the end of a text follows it. -/
theorem insert_ofText (s added : List Char) : (ofText s).insert added = ofText (s ++ added) := by
  simp [insert, ofText]

variable {s above last : List Char}

/-- Enter below a blank last line hands over what stands above the line. -/
theorem EndsBlank.enter (h : EndsBlank s above last) :
    (ofText s).enter = (ofText above, [.submit]) := by
  have hcut : withoutBlankLine? s = some above := withoutBlankLine?_eq_some_iff.2 ⟨last, h⟩
  simp [Buffer.enter, hcut]

/-- Enter elsewhere hands over the text, if it is a command or closes its brackets, and otherwise
starts a line. -/
theorem enter_ofText (h : ∀ above last, ¬ EndsBlank s above last) :
    (ofText s).enter =
      if startsCommand s ∨ openDepth s = 0 then (ofText s, [.submit])
      else (ofText (s ++ '\n' :: indent s), []) := by
  have hcut : withoutBlankLine? s = none := by
    refine Option.eq_none_iff_forall_ne_some.2 fun above hsome => ?_
    obtain ⟨last, hlast⟩ := withoutBlankLine?_eq_some_iff.1 hsome
    exact h above last hlast
  simp only [Buffer.enter, text_ofText, hcut, insert_ofText]
  by_cases hcommand : startsCommand s <;> by_cases hopen : openDepth s = 0 <;>
    simp [hcommand, hopen, Nat.pos_iff_ne_zero]

/-- The line that Enter starts is a blank last line: what is open in the text does not matter, since
lines are told by their characters alone. -/
theorem endsBlank_continued (s : List Char) :
    EndsBlank (s ++ '\n' :: indent s) s (indent s) where
  text_eq := rfl
  one_line h := absurd (List.eq_of_mem_replicate h) (by decide)
  blank := Text.isBlankText_replicate _

/-- Enter on a line that Enter has started takes the line away and hands over the text. -/
theorem enter_continued (s : List Char) :
    (ofText (s ++ '\n' :: indent s)).enter = (ofText s, [.submit]) :=
  (endsBlank_continued s).enter

/-- Enter pressed once or twice at the end of a text hands it over and loses nothing. A blank last
line is left out; any other text is handed over as it is, by the first press if it is a command or
closes its brackets, and otherwise by the second, after the first has started a line that is indented
by four spaces for each open bracket. -/
theorem enter_twice (s : List Char) :
    (∃ above last, EndsBlank s above last ∧ (ofText s).enter = (ofText above, [.submit])) ∨
    (∀ above last, ¬ EndsBlank s above last) ∧
      ((startsCommand s ∨ openDepth s = 0) ∧ (ofText s).enter = (ofText s, [.submit]) ∨
        (¬ startsCommand s ∧ 0 < openDepth s) ∧
          let continued := ofText (s ++ '\n' :: List.replicate (4 * openDepth s) ' ')
          (ofText s).enter = (continued, []) ∧ continued.enter = (ofText s, [.submit])) := by
  by_cases hblank : ∃ above last, EndsBlank s above last
  · obtain ⟨above, last, h⟩ := hblank
    exact .inl ⟨above, last, h, h.enter⟩
  · have hblank : ∀ above last, ¬ EndsBlank s above last := fun above last h =>
      hblank ⟨above, last, h⟩
    have henter := enter_ofText hblank
    refine .inr ⟨hblank, ?_⟩
    by_cases hnow : startsCommand s ∨ openDepth s = 0
    · rw [if_pos hnow] at henter
      exact .inl ⟨hnow, henter⟩
    · rw [if_neg hnow] at henter
      have hopen := (not_or.1 hnow).imp_right Nat.pos_of_ne_zero
      -- the line that is started is a blank last line, so the second press is of the first kind
      exact .inr ⟨hopen, henter, enter_continued s⟩

/-- The bracket before a string that is not closed is open, and the brackets in the string are not;
the line that is started stands in the string. -/
example :
    let s := "f(\"\x7b(".toList
    (ofText s).enter = (ofText "f(\"\x7b(\n    ".toList, []) ∧
      (ofText "f(\"\x7b(\n    ".toList).enter = (ofText s, [.submit]) := by
  decide +kernel

end Prompt.Buffer

end Lox
