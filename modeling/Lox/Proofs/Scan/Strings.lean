import Lox.Proofs.Scan.Segmentation

/-!
# Strings and the texts they write

A string is closed by the first quote of the source, before any escape is made into the character
that it stands for. Between its quotes every character stands for itself but the two of an escape,
so a text without quotes is written by itself, once no backslash of it happens to stand before the
letter of an escape; any of its tabs, carriage returns and line feeds may be written as an escape
instead. A string can be cut anywhere but inside an escape.

## Main definitions

* `Apart`: no escape stands across the border of two texts
* `Writable`: texts that a string can write without a change
* `Spelled`: what may stand between the quotes for a text
* `Yields`: the kinds of the tokens of a source without a scan report

## Main results

* `unescape_append`: the value of a string that is cut outside its escapes
* `Spelled.unescape_eq`: the value of what is spelled
* `yields_enclosed`: what stands between two quotes is one string
* `exists_body`: what stands between the quotes of a scanned string
-/

namespace Lox

/-- The letters of the escapes. -/
def escapeLetters : List Char := ['t', 'r', 'n']

/-- No escape stands across the border of two texts. -/
def Apart (x y : List Char) : Prop :=
  x.getLast? = some '\\' → ∀ c ∈ y.head?, c ∉ escapeLetters

/-- Texts without a quote in which no backslash stands before the letter of an escape. -/
structure Writable (text : List Char) : Prop where
  quote : '"' ∉ text
  backslash : ∀ c ∈ escapeLetters, ¬ ['\\', c] <:+: text

/-- A text and a body that spells it: every character stands for itself, and a tab, a carriage
return and a line feed may stand as an escape. -/
inductive Spelled : List Char → List Char → Prop where
  | nil : Spelled [] []
  | keep (c : Char) {text body : List Char} (h : Spelled text body) : Spelled (c :: text) (c :: body)
  | tab {text body : List Char} (h : Spelled text body) :
      Spelled ('\t' :: text) ('\\' :: 't' :: body)
  | carriageReturn {text body : List Char} (h : Spelled text body) :
      Spelled ('\r' :: text) ('\\' :: 'r' :: body)
  | lineFeed {text body : List Char} (h : Spelled text body) :
      Spelled ('\n' :: text) ('\\' :: 'n' :: body)

/-! ## Values of bodies -/

section Values

variable {c : Char} {x y text body : List Char}

theorem Apart.tail (h : Apart (c :: x) y) : Apart x y := by
  intro hlast
  apply h
  rw [List.getLast?_cons, hlast]
  rfl

/-- A character stands for itself unless it starts an escape. -/
theorem unescape_cons (h : Apart [c] y) : unescape (c :: y) = c :: unescape y := by
  -- a text that an escape starts contradicts that the two are apart
  have hletter : ∀ d ∈ escapeLetters, ∀ rest, c = '\\' → y = d :: rest → False := by
    rintro d hd rest rfl rfl
    exact h rfl d rfl hd
  rw [unescape]
  · exact hletter 't' (by decide)
  · exact hletter 'r' (by decide)
  · exact hletter 'n' (by decide)

/-- A body that is cut outside its escapes. -/
theorem unescape_append (h : Apart x y) : unescape (x ++ y) = unescape x ++ unescape y := by
  induction x using unescape.induct with
  | case1 rest ih => exact congrArg ('\t' :: ·) (ih h.tail.tail)
  | case2 rest ih => exact congrArg ('\r' :: ·) (ih h.tail.tail)
  | case3 rest ih => exact congrArg ('\n' :: ·) (ih h.tail.tail)
  | case4 c rest ht hr hn ih =>
    have hself : Apart [c] rest := by
      intro hc d hd hletter
      obtain rfl : c = '\\' := Option.some.inj hc
      obtain ⟨rest', rfl⟩ : ∃ rest', rest = d :: rest' := by
        cases rest with
        | nil => cases hd
        | cons e rest' => exact ⟨rest', by rw [Option.some.inj hd]⟩
      simp only [escapeLetters, List.mem_cons, List.not_mem_nil, or_false] at hletter
      rcases hletter with rfl | rfl | rfl
      · exact ht rest' rfl rfl
      · exact hr rest' rfl rfl
      · exact hn rest' rfl rfl
    -- the border of `c` lies within `x`, or is that of `x` and `y`
    have hwhole : Apart [c] (rest ++ y) := by
      cases rest with
      | nil => exact h
      | cons d rest => exact hself
    rw [List.cons_append, unescape_cons hwhole, unescape_cons hself, ih h.tail]
    rfl
  | case5 => rfl

theorem Writable.tail (h : Writable (c :: text)) : Writable text where
  quote hmem := h.quote (List.mem_cons_of_mem c hmem)
  backslash d hd hpart := h.backslash d hd (hpart.trans (List.suffix_cons c text).isInfix)

/-- A body starts as the text that it spells, or with a backslash. -/
theorem Spelled.head? (h : Spelled text body) :
    body.head? = text.head? ∨ body.head? = some '\\' := by
  cases h with
  | nil | keep => exact .inl rfl
  | tab | carriageReturn | lineFeed => exact .inr rfl

/-- The value of a body is the text that it spells. -/
theorem Spelled.unescape_eq (h : Spelled text body) (hw : Writable text) :
    unescape body = text := by
  induction h with
  | nil => rfl
  | @keep c text body h ih =>
    have hself : Apart [c] body := by
      intro hc d hd hletter
      obtain rfl : c = '\\' := Option.some.inj hc
      rcases h.head? with hhead | hhead
      · -- the text itself would have a backslash before the letter
        rw [hhead] at hd
        obtain ⟨rest, rfl⟩ := List.head?_eq_some_iff.1 hd
        exact hw.backslash d hletter ⟨[], rest, rfl⟩
      · obtain rfl : '\\' = d := Option.some.inj (hhead.symm.trans hd)
        exact absurd hletter (by decide)
    rw [unescape_cons hself, ih hw.tail]
  | tab h ih => exact congrArg ('\t' :: ·) (ih hw.tail)
  | carriageReturn h ih => exact congrArg ('\r' :: ·) (ih hw.tail)
  | lineFeed h ih => exact congrArg ('\n' :: ·) (ih hw.tail)

/-- What spells a text without quotes has none. -/
theorem Spelled.quote_not_mem (h : Spelled text body) (hquote : '"' ∉ text) : '"' ∉ body := by
  induction h with
  | nil => exact hquote
  | keep c h ih =>
    rw [List.mem_cons, not_or] at hquote ⊢
    exact ⟨hquote.1, ih hquote.2⟩
  | tab h ih | carriageReturn h ih | lineFeed h ih =>
    have hbody := ih fun hmem => hquote (List.mem_cons_of_mem _ hmem)
    simpa using hbody

end Values

/-! ## Scanning -/

/-- A text between two quotes. -/
def enclosed (body : List Char) : String := String.ofList ('"' :: (body ++ ['"']))

/-- A source is scanned without a report to tokens of given kinds, and the end. -/
structure Yields (source : String) (kinds : List TokenKind) : Prop where
  reports : (scan source).reports = []
  kinds : (scan source).all.map (·.kind) = kinds ++ [.endOfInput]

/-- The kind of the token that a piece is. -/
def Piece.tokenKind? (p : Piece) : Option TokenKind :=
  match p.kind with
  | .token kind => some kind
  | _ => none

theorem PlacedPiece.kinds_place (p : Position) (ps : List Piece) :
    ((place p ps).filterMap token?).map (·.kind) = ps.filterMap Piece.tokenKind? := by
  induction ps generalizing p with
  | nil => rfl
  | cons q ps ih =>
    simp only [place, List.filterMap_cons]
    cases hq : q.kind <;> simp [token?, Piece.tokenKind?, hq, ih]

/-- What pieces that can be read yield, if none is faulty. -/
theorem yields_of_readable {ps : List Piece} (h : Piece.Readable ps)
    (hfault : ∀ p ∈ ps, ∀ e, p.kind ≠ .fault e) {source : String}
    (hsource : source.toList = ps.flatMap Piece.text) :
    Yields source (ps.filterMap Piece.tokenKind?) := by
  have hpieces : Piece.ofText source.toList = ps := by rw [hsource, Piece.ofText_of_readable h]
  constructor
  · apply (PlacedPiece.reports_place {} _).2
    rwa [hpieces]
  · show (((PlacedPiece.place {} (Piece.ofText source.toList)).filterMap PlacedPiece.token?) ++
      [(scan source).finish]).map (·.kind) = _
    rw [List.map_append, PlacedPiece.kinds_place, hpieces]
    rfl

variable {body : List Char}

/-- What stands between two quotes is one string. -/
theorem yields_enclosed (h : '"' ∉ body) :
    Yields (enclosed body) [.string (String.ofList (unescape body))] :=
  yields_of_readable (.cons (Piece.reads_string h _) .nil) (by simp) (by simp [enclosed])

/-- What stands between the quotes of a scanned string. -/
theorem exists_body {source : String} {t : Token} {v : String} (ht : t ∈ (scan source).tokens)
    (hv : t.kind = .string v) :
    ∃ body, '"' ∉ body ∧ t.lexeme = enclosed body ∧ v = String.ofList (unescape body) := by
  have hlexical := lexical_of_mem ht
  rw [hv] at hlexical
  generalize htext : t.lexeme.toList = s at hlexical
  cases hlexical with
  | string h => exact ⟨_, h, by rw [enclosed, ← htext, String.ofList_toList], rfl⟩

theorem enclosed_injective {body body' : List Char} (h : enclosed body = enclosed body') :
    body = body' := by
  have hlist := String.ofList_injective h
  exact List.append_cancel_right (List.cons.inj hlist).2

end Lox
