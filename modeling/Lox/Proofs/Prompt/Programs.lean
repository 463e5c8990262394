import Lox.Proofs.Parser.Scanned
import Lox.Proofs.Prompt.Refinement
import Lox.Proofs.Scan.Lexicon

/-!
# Programs at the prompt

A line is a command if it starts with a slash after blanks, and the language has two uses for a
slash there: a division, with which no program starts, and the opening of a comment. So a line in
which nothing is reported is run unless it starts with a comment. In that case it is no command that
there is, and the prompt says so and stays as it is.

## Main definitions

* `Prompt.opensComment`: a line that starts with a comment

## Main results

* `Sentence.ne_slash`: no declaration starts with a slash
* `Prompt.opensComment_of_slash`: a program that starts with a slash starts with a comment
* `Prompt.feed_valid`: what the prompt does with a line in which nothing is reported
-/

namespace Lox

/-! ## Blanks before a program -/

/-- Blanks are no printable characters. -/
theorem Text.not_printable_of_isBlank {c : Char} (h : isBlank c) :
    ¬ (33 ≤ c.toNat ∧ c.toNat ≤ 126) := by
  simp [isBlank, inRanges, blankRanges] at h
  omega

namespace Piece

variable {c : Char} {bs s : List Char}

theorem printable_of_isDigit (h : c.isDigit) : 33 ≤ c.toNat ∧ c.toNat ≤ 126 := by
  obtain ⟨hlow, hhigh⟩ := isDigit_iff.1 h
  have hlow : 48 ≤ c.toNat := hlow
  have hhigh : c.toNat ≤ 57 := hhigh
  omega

theorem printable_of_startsName (h : startsName c) : 33 ≤ c.toNat ∧ c.toNat ≤ 126 := by
  rcases startsName_iff.1 h with ⟨hlow, hhigh⟩ | ⟨hlow, hhigh⟩ | rfl
  · have hlow : 97 ≤ c.toNat := hlow
    have hhigh : c.toNat ≤ 122 := hhigh
    omega
  · have hlow : 65 ≤ c.toNat := hlow
    have hhigh : c.toNat ≤ 90 := hhigh
    omega
  · decide

/-- A blank that separates no tokens is an unexpected character. -/
theorem next_of_isBlank (hc : Text.isBlank c) (hsep : isSeparator c = false) (rest : List Char) :
    (next c rest).1.kind = .fault .unexpectedCharacter := by
  -- every character that starts something longer can be printed, and no blank can
  have hprintable := Text.not_printable_of_isBlank hc
  have hslash : c ≠ '/' := by
    rintro rfl
    exact hprintable (by decide)
  have hquote : c ≠ '"' := by
    rintro rfl
    exact hprintable (by decide)
  have hdigit : c.isDigit = false :=
    Bool.eq_false_iff.2 fun h => hprintable (printable_of_isDigit h)
  have hname : startsName c = false :=
    Bool.eq_false_iff.2 fun h => hprintable (printable_of_startsName h)
  have hone : oneCharacterSymbol? c = none := by
    unfold oneCharacterSymbol?
    split <;> first | rfl | exact absurd (by decide) hprintable
  have htwo : ∀ d, twoCharacterSymbol? c d = none := by
    intro d
    unfold twoCharacterSymbol?
    split <;> first | rfl | exact absurd (by decide) hprintable
  have hnext : next c rest = symbol c rest := by
    simp [next, hsep, hslash, hquote, hdigit, hname]
  rw [hnext]
  cases rest with
  | nil => simp [symbol, single, hone]
  | cons d rest => simp [symbol, htwo, single, hone]

/-- Where nothing is reported, the blanks at the front are pieces of their own. -/
theorem ofText_blanks (hbs : ∀ c ∈ bs, Text.isBlank c)
    (hclean : ∀ p ∈ ofText (bs ++ s), ∀ e, p.kind ≠ .fault e) :
    ofText (bs ++ s) = bs.map (fun c => ⟨.blank, [c]⟩) ++ ofText s := by
  induction bs with
  | nil => rfl
  | cons c bs ih =>
    obtain ⟨hc, hbs⟩ := List.forall_mem_cons.1 hbs
    rw [List.cons_append, ofText] at hclean ⊢
    obtain ⟨hfirst, hrest⟩ := List.forall_mem_cons.1 hclean
    cases hsep : isSeparator c with
    | false => exact absurd (next_of_isBlank hc hsep (bs ++ s)) (hfirst _)
    | true =>
      have hnext : next c (bs ++ s) = (⟨.blank, [c]⟩, bs ++ s) := by simp [next, hsep]
      rw [hnext] at hrest ⊢
      rw [ih hbs hrest]
      rfl

/-- A slash that opens no comment is a token. -/
theorem next_slash (hline : ¬ ['/'] <+: s) (hblock : ¬ ['*'] <+: s) :
    next '/' s = (⟨.token (.symbol .slash), ['/']⟩, s) := by
  refine slash_symbol ?_ ?_
  · rintro r rfl
    exact hline (List.prefix_append ['/'] r)
  · rintro r rfl
    exact hblock (List.prefix_append ['*'] r)

end Piece

/-- The first token of a text in which nothing is reported stands behind its blanks. -/
theorem exists_slash {bs s : List Char} (hbs : ∀ c ∈ bs, Text.isBlank c)
    (hclean : (scanChars (bs ++ '/' :: s)).reports = []) (hline : ¬ ['/'] <+: s)
    (hblock : ¬ ['*'] <+: s) :
    ∃ t ts, (scanChars (bs ++ '/' :: s)).tokens = t :: ts ∧ t.kind = .symbol .slash := by
  have hpieces := Piece.ofText_blanks hbs ((PlacedPiece.reports_place {} _).1 hclean)
  rw [Piece.ofText, Piece.next_slash hline hblock] at hpieces
  -- blanks are no tokens
  have hnone : ∀ p : Position, (PlacedPiece.place p
      (bs.map fun c => ⟨.blank, [c]⟩)).filterMap PlacedPiece.token? = [] := by
    intro p
    refine List.filterMap_eq_nil_iff.2 fun q hq => ?_
    obtain ⟨c, -, hc⟩ := List.mem_map.1 (PlacedPiece.piece_of_mem hq)
    simp [PlacedPiece.token?, ← hc]
  simp only [scanChars, hpieces, PlacedPiece.place_append, List.filterMap_append, hnone,
    List.nil_append]
  exact ⟨_, _, rfl, rfl⟩

/-- No program starts with a slash. -/
theorem Sentence.ne_slash {st : Stmt Unit} {t : Token} {ts : List Token}
    (h : Sentence (.declaration st) (t :: ts)) : t.kind ≠ .symbol .slash := by
  obtain ⟨a, us, heq, hstart⟩ := h.starts
  obtain ⟨rfl, -⟩ := List.cons.inj heq
  intro hslash
  rw [hslash] at hstart
  cases hstart

namespace Text

/-- Blanks are taken from the end up to a character that is not blank. -/
theorem rdropWhile_cons {c : Char} (hc : isBlank c = false) (s : List Char) :
    (c :: s).rdropWhile isBlank = c :: s.rdropWhile isBlank := by
  rw [List.rdropWhile, List.reverse_cons, List.dropWhile_append, List.rdropWhile]
  split
  · next hs => simp [hc, List.isEmpty_iff.1 hs]
  · simp

/-- A trimmed text starts with the first character that is not blank. -/
theorem trim_of_dropWhile {line s : List Char} {c : Char} (h : line.dropWhile isBlank = c :: s)
    (hc : isBlank c = false) : trim line = c :: s.rdropWhile isBlank := by
  rw [← rdropWhile_cons hc, ← h]
  rfl

end Text

namespace Prompt

open Text (isBlank isBlankText trim cutWord)

/-- Whether the first characters of a line that are not blank open a comment. -/
def opensComment (line : List Char) : Bool :=
  let s := line.dropWhile isBlank
  ['/', '/'].isPrefixOf s || ['/', '*'].isPrefixOf s

variable {line : List Char}

/-- The first character of a line that is not blank. -/
theorem exists_first (h : isBlankText line = false) :
    ∃ c s, line.dropWhile isBlank = c :: s ∧ isBlank c = false := by
  cases hs : line.dropWhile isBlank with
  | nil =>
    have hall : isBlankText line = true := List.all_eq_true.2 (List.dropWhile_eq_nil_iff.1 hs)
    rw [h] at hall
    cases hall
  | cons c s => exact ⟨c, s, rfl, by simpa [hs] using List.head?_dropWhile_not isBlank line⟩

/-- A line in which nothing is reported starts with a comment if it starts with a slash. -/
theorem opensComment_of_slash {s : List Char}
    (hvalid : (parse (String.ofList line)).reports = []) (hs : line.dropWhile isBlank = '/' :: s) :
    opensComment line = true := by
  by_contra hopens
  simp only [opensComment, hs, Bool.or_eq_true, List.isPrefixOf_iff_prefix,
    List.cons_prefix_cons, true_and, not_or] at hopens
  have hline : line.takeWhile isBlank ++ '/' :: s = line := by
    rw [← hs, List.takeWhile_append_dropWhile]
  have hscan : scan (String.ofList line) = scanChars (line.takeWhile isBlank ++ '/' :: s) := by
    rw [scan, String.toList_ofList, hline]
  have hclean : (scan (String.ofList line)).reports = [] := by
    simp only [parse, List.append_eq_nil_iff] at hvalid
    exact hvalid.1
  -- the slash would be the first token of a declaration
  obtain ⟨t, ts, htokens, hslash⟩ := exists_slash (fun c hc => List.mem_takeWhile_imp hc)
    (hscan ▸ hclean) hopens.1 hopens.2
  obtain ⟨body, hflat, hbody, -⟩ := exists_sentences hvalid
  rw [hscan, htokens] at hflat
  cases body with
  | nil => cases hflat
  | cons x body =>
    obtain ⟨a, us, hx, -⟩ := (hbody x (.head _)).starts
    rw [List.map_cons, List.flatten_cons, hx, List.cons_append] at hflat
    obtain ⟨rfl, -⟩ := List.cons.inj hflat
    exact (hx ▸ hbody x (.head _)).ne_slash hslash

/-- A line that starts with a comment is no command that there is. -/
theorem ofLine?_of_opensComment (h : opensComment line = true) :
    Command.ofLine? line = some (.unknown (String.ofList (cutWord (trim line)).1)) := by
  obtain ⟨d, s, hs, hd⟩ : ∃ d s, line.dropWhile isBlank = '/' :: d :: s ∧ (d = '/' ∨ d = '*') := by
    simp only [opensComment, Bool.or_eq_true, List.isPrefixOf_iff_prefix] at h
    rcases h with ⟨s, hs⟩ | ⟨s, hs⟩
    · exact ⟨'/', s, hs.symm, .inl rfl⟩
    · exact ⟨'*', s, hs.symm, .inr rfl⟩
  have hblank : isBlank d = false := by rcases hd with rfl | rfl <;> decide
  have htrim : trim line = '/' :: d :: s.rdropWhile isBlank := by
    rw [Text.trim_of_dropWhile hs (by decide), Text.rdropWhile_cons hblank]
  have hword : (cutWord (trim line)).1 =
      '/' :: d :: (s.rdropWhile isBlank).takeWhile (!isBlank ·) := by
    simp [htrim, cutWord, hblank, show isBlank '/' = false by decide]
  -- the names of commands go on with letters
  have hunknown : ∀ w argument, Command.ofWords ('/' :: d :: w) argument =
      .unknown (String.ofList ('/' :: d :: w)) := by
    intro w argument
    rcases hd with rfl | rfl <;> rfl
  have hstarts : startsCommand (trim line) = true := by simp [startsCommand, htrim]
  simp only [Command.ofLine?, hstarts, if_true, hword, hunknown]

/-- What the prompt does with a line in which nothing is reported. If the line starts with a
comment, it is taken for a command that there is not, and the prompt stays as it is. Otherwise the
session runs it. -/
theorem feed_valid (o : Options) (p : Prompt) (s : String)
    (hvalid : (parse (String.ofList (normalize s.toList))).reports = [])
    (hblank : isBlankText (normalize s.toList) = false) :
    let line := normalize s.toList
    p.feed o (.text s) =
      if opensComment line then
        ([.warned ("Unknown command: " ++ String.ofList (cutWord (trim line)).1)], p)
      else p.runText o (String.ofList line) := by
  intro line
  have hfeed : p.feed o (.text s) =
      (Command.ofLine? line).elim (p.runText o (String.ofList line)) p.obey := by
    simp only [feed, hblank, Bool.false_eq_true, if_false]
    cases Command.ofLine? (normalize s.toList) <;> rfl
  split
  · next hopens =>
    rw [hfeed, ofLine?_of_opensComment hopens]
    rfl
  · next hopens =>
    obtain ⟨c, u, hs, hc⟩ := exists_first hblank
    have hslash : c ≠ '/' := by
      rintro rfl
      exact hopens (opensComment_of_slash hvalid hs)
    have htrim : trim line = c :: u.rdropWhile isBlank := Text.trim_of_dropWhile hs hc
    have hnone : Command.ofLine? line = none := by
      simp [Command.ofLine?, startsCommand, htrim, hslash]
    rw [hfeed, hnone, Option.elim_none]

/-- A program with slashes of both kinds behind its first token. -/
theorem feed_valid_quotient :
    let source := " print 1 / 2; // half"
    (parse source).reports = [] ∧ isBlankText source.toList = false ∧
      ∀ p : Prompt, p.feed .still (.text source) = p.runText .still source := by
  intro source
  have hvalid : (parse (String.ofList (normalize source.toList))).reports = [] := by decide +kernel
  have hblank : isBlankText (normalize source.toList) = false := by decide +kernel
  refine ⟨by decide +kernel, by decide +kernel, fun p => ?_⟩
  have hopens : opensComment (normalize source.toList) = false := by decide +kernel
  have hsource : String.ofList (normalize source.toList) = source := by decide +kernel
  simpa only [hopens, hsource, Bool.false_eq_true, if_false] using
    feed_valid .still p source hvalid hblank

/-- A program after a comment is answered as a command, though a session runs it. -/
theorem comment_taken_for_command :
    let source := "/* note */ print 1;"
    (parse source).reports = [] ∧ isBlankText (normalize source.toList) = false ∧
      normalize source.toList = source.toList ∧
      (Prompt.feed .still {} (.text source)).1 = [.warned "Unknown command: /*"] ∧
      .printed "1" ∈ (Prompt.runText .still {} source).1 := by
  decide +kernel

end Prompt

end Lox
