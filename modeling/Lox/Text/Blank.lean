/-!
# Blank characters

A character is blank if it separates words: the white space of every script, the control
characters of a line, and the four separators of records. A text is trimmed of blanks at its
ends, and cut at its first run of blanks.

## Main definitions

* `isBlank`: the blank characters
* `trim`: a text without the blanks at its ends
* `isBlankText`: a text of blanks alone
* `cutWord`: the first word of a text and what follows the blanks after it
-/

namespace Lox.Text

/-- The ranges of code points that are blank, in increasing order. -/
def blankRanges : List (Nat × Nat) :=
  [(0x09, 0x0d), (0x1c, 0x20), (0x85, 0x85), (0xa0, 0xa0), (0x1680, 0x1680),
   (0x2000, 0x200a), (0x2028, 0x2029), (0x202f, 0x202f), (0x205f, 0x205f), (0x3000, 0x3000)]

/-- Whether a code point lies in one of the ranges. -/
def inRanges (ranges : List (Nat × Nat)) (c : Char) : Bool :=
  ranges.any fun r => r.1 ≤ c.toNat && c.toNat ≤ r.2

/-- Whether a character is blank. -/
def isBlank (c : Char) : Bool := inRanges blankRanges c

/-- A text without the blanks at its ends. -/
def trim (s : List Char) : List Char :=
  ((s.dropWhile isBlank).reverse.dropWhile isBlank).reverse

/-- Whether a text has no character but blanks. -/
def isBlankText (s : List Char) : Bool := s.all isBlank

/-- The first word of a text that starts with no blank, and what follows the blanks after it. -/
def cutWord (s : List Char) : List Char × List Char :=
  (s.takeWhile (!isBlank ·), (s.dropWhile (!isBlank ·)).dropWhile isBlank)

@[simp] theorem isBlankText_nil : isBlankText [] = true := rfl

@[simp] theorem isBlankText_cons (c : Char) (s : List Char) :
    isBlankText (c :: s) = (isBlank c && isBlankText s) := rfl

/-- The lines of a text, which line feeds separate: always at least one. -/
def lines : List Char → List (List Char)
  | [] => [[]]
  | c :: rest =>
    if c = '\n' then [] :: lines rest
    else match lines rest with
      | [] => [[c]]
      | line :: more => (c :: line) :: more

@[simp] theorem lines_nil : lines [] = [[]] := rfl

theorem lines_ne_nil (s : List Char) : lines s ≠ [] := by
  cases s with
  | nil => simp [lines]
  | cons c rest =>
    by_cases h : c = '\n'
    · simp [lines, h]
    · cases hr : lines rest <;> simp [lines, h, hr]

/-- Lines joined by line feeds. -/
def unlines (ls : List (List Char)) : List Char := List.intercalate ['\n'] ls

/-- Joining the lines of a text gives the text. -/
theorem unlines_lines (s : List Char) : unlines (lines s) = s := by
  induction s with
  | nil => rfl
  | cons c rest ih =>
    by_cases h : c = '\n'
    · subst h
      obtain ⟨l, ls, hl⟩ := List.exists_cons_of_ne_nil (lines_ne_nil rest)
      simp only [lines, hl, if_true]
      rw [hl] at ih
      simp [unlines, List.intercalate, List.intersperse] at ih ⊢
      exact ih
    · obtain ⟨l, ls, hl⟩ := List.exists_cons_of_ne_nil (lines_ne_nil rest)
      simp only [lines, h, hl, if_false]
      rw [hl] at ih
      cases ls <;> simp_all [unlines, List.intercalate, List.intersperse]

/-- A text ended by a line feed. -/
def line (s : String) : String := s ++ "\n"

end Lox.Text
