import Lox.Proofs.Parser.Scanned
import Lox.Proofs.Scan.Strings
import Lox.Proofs.Session.History

/-!
# Printing strings

A string that is printed appears on the output as the text that is spelled between its quotes: what
is scanned is kept as the value of a constant, and the text of a string is the string itself.

## Main definitions

* `printing`: the source that prints a string

## Main results

* `Session.run_print`: running the printing of a constant
* `Session.print_spelled`: texts are written between quotes, printed, and cut
-/

namespace Lox

/-- The source that prints the string with a given body. -/
def printing (body : List Char) : String := "print " ++ enclosed body ++ ";"

variable {source : String} {body : List Char}

/-! ## Reading -/

theorem reads_printWord (more : List Char) :
    Piece.Reads ⟨.token (.keyword .printWord), "print".toList⟩ (' ' :: more) :=
  ⟨'p', "rint".toList, rfl, rfl⟩

theorem yields_printing (h : '"' ∉ body) :
    Yields (printing body)
      [.keyword .printWord, .string (String.ofList (unescape body)), .symbol .semicolon] := by
  have hblank : ∀ more, Piece.Reads ⟨.blank, [' ']⟩ more := fun more => ⟨' ', [], rfl, rfl⟩
  have hend : Piece.Reads ⟨.token (.symbol .semicolon), [';']⟩ [] := ⟨';', [], rfl, rfl⟩
  -- the blank keeps the word from running into the string
  have hpieces : Piece.Readable [⟨.token (.keyword .printWord), "print".toList⟩, ⟨.blank, [' ']⟩,
      ⟨.token (.string (String.ofList (unescape body))), '"' :: (body ++ ['"'])⟩,
      ⟨.token (.symbol .semicolon), [';']⟩] :=
    .cons (reads_printWord _) (.cons (hblank _) (.cons (Piece.reads_string h _) (.cons hend .nil)))
  exact yields_of_readable hpieces (by simp) (by simp [printing, enclosed])

/-- The tokens of what yields given kinds. -/
theorem Yields.tokens {kinds : List TokenKind} (h : Yields source kinds) :
    (scan source).tokens.map (·.kind) = kinds := by
  have hkinds := h.kinds
  rw [Scan.all, List.map_append] at hkinds
  exact List.append_cancel_right hkinds

/-- What yields the tokens of the printing of a constant is parsed to it. -/
theorem Yields.parse_print {kind : TokenKind} {value : Literal}
    (h : Yields source [.keyword .printWord, kind, .symbol .semicolon])
    (hvalue : kind.literal? = some value) :
    (parse source).reports = [] ∧ (parse source).statements = [.print (.literal value)] := by
  obtain ⟨a, rest, htokens, ha, hrest⟩ := List.map_eq_cons_iff.1 h.tokens
  obtain ⟨b, rest, rfl, hb, hrest⟩ := List.map_eq_cons_iff.1 hrest
  obtain ⟨c, rest, rfl, hc, hrest⟩ := List.map_eq_cons_iff.1 hrest
  obtain rfl := List.map_eq_nil_iff.1 hrest
  have hphrase : Phrase .expr [b] (.literal value) :=
    .lift (t := .expr) (Grammar.phrase_or_of_literal (by rw [hb]; exact hvalue))
  have hsentence : Sentence (.declaration (.print (.literal value))) [a, b, c] :=
    .statement (.print (decide_eq_true ha) hphrase (decide_eq_true hc))
  have hbody : ∀ x ∈ [([a, b, c], Stmt.print (.literal value))],
      Sentence (.declaration x.2) x.1 := by
    simpa using hsentence
  have hprogram : Parser.program (scan source).stream =
      ⟨[], .ok [.print (.literal value)] ⟨[], (scan source).finish⟩⟩ := by
    rw [Scan.stream, htokens]
    exact program_of_sentences hbody (scan source).finish
  constructor
  · show (scan source).reports ++ (Parser.program (scan source).stream).reports = []
    rw [h.reports, hprogram]
    rfl
  · show (Parser.program (scan source).stream).statements = _
    rw [hprogram]
    rfl

/-! ## Running -/

namespace Session

/-- The printing of a constant is over after five steps. -/
theorem run_print_literal (setup : Setup) (st : State) (value : Literal) (n : Nat) :
    (Config.ofProgram st [.print (.literal value)]).run setup (n + 5) =
      ⟨some .finished, st, [.printed (st.store.text value.value)]⟩ := rfl

/-- A source that is the printing of a constant, in any session with steps enough. -/
theorem run_print {value : Literal} (hreports : (parse source).reports = [])
    (hstatements : (parse source).statements = [.print (.literal value)]) (s : Session)
    (o : Options) (hbudget : 5 ≤ o.budget) :
    (s.run o source).1 =
      ⟨[.logged (.parsed (scan source).all.length 1), .printed (s.store.text value.value)],
        .completed⟩ := by
  obtain ⟨n, hn⟩ := Nat.exists_eq_add_of_le' hbudget
  have haccepted : s.accepted? source =
      some (Resolved.ofProgram s.locals.next [.print (.literal value)]) := by
    rw [accepted?, hreports, hstatements]
    rfl
  have hevents : acceptedEvents (parse source)
      (Resolved.ofProgram s.locals.next [.print (.literal value)]) =
        [.logged (.parsed (scan source).all.length 1)] := by
    rw [acceptedEvents, parseEvents, hreports, hstatements]
    rfl
  have houtcome : s.outcome o (Resolved.ofProgram s.locals.next [.print (.literal value)]) =
      ⟨some .finished, { store := s.store, readings := s.readings, operations := s.operations },
        [.printed (s.store.text value.value)]⟩ := by
    rw [outcome, hn]
    exact run_print_literal _ _ value n
  rw [run_of_accepted haccepted, hevents, houtcome]
  rfl

/-- A text is written between quotes by itself and by every body that spells it, and printing that
string shows the text. The string of a source can be cut outside its escapes: its value is that of
the first part and then that of the second. -/
theorem print_spelled :
    (∀ text body, Writable text → Spelled text body →
      Yields (enclosed body) [.string (String.ofList text)] ∧
      ∀ (s : Session) (o : Options), 5 ≤ o.budget →
        (s.run o (printing body)).1 =
          ⟨[.logged (.parsed 4 1), .printed (String.ofList text)], .completed⟩) ∧
    (∀ source, ∀ t ∈ (scan source).tokens, ∀ v, t.kind = .string v →
      ∃ body, t.lexeme = enclosed body ∧ Yields (enclosed body) [.string v] ∧
        ∀ x y, x ++ y = body → Apart x y →
          ∃ u w, Yields (enclosed x) [.string u] ∧ Yields (enclosed y) [.string w] ∧
            v = u ++ w) := by
  constructor
  · intro text body hw hs
    have hquote := hs.quote_not_mem hw.quote
    have hstring := yields_enclosed hquote
    have hprinting := yields_printing hquote
    rw [hs.unescape_eq hw] at hstring hprinting
    refine ⟨hstring, fun s o hbudget => ?_⟩
    obtain ⟨hreports, hstatements⟩ := hprinting.parse_print rfl
    have hlength : (scan (printing body)).all.length = 4 := by
      rw [← List.length_map, hprinting.kinds]
      rfl
    rw [run_print hreports hstatements s o hbudget, hlength]
    rfl
  · intro source t ht v hv
    obtain ⟨body, hquote, hlexeme, rfl⟩ := exists_body ht hv
    refine ⟨body, hlexeme, yields_enclosed hquote, ?_⟩
    rintro x y rfl hapart
    rw [List.mem_append, not_or] at hquote
    refine ⟨_, _, yields_enclosed hquote.1, yields_enclosed hquote.2, ?_⟩
    rw [unescape_append hapart, String.ofList_append]

/-- Two backslashes before an escaped tab, a line feed that stands for itself, and a cut between the
backslash that stands for itself and that of an escape. -/
theorem print_spelled_backslashes :
    let text := ['\\', '\\', '\t', 't', '\n', '\r']
    let body := ['\\', '\\', '\\', 't', 't', '\n', '\\', 'r']
    (Writable text ∧ Spelled text body ∧ 5 ≤ Options.still.budget ∧
      Yields (enclosed body) [.string "\\\\\tt\n\r"] ∧
      (fresh.run .still (printing body)).1 =
        ⟨[.logged (.parsed 4 1), .printed "\\\\\tt\n\r"], .completed⟩) ∧
    ∃ t ∈ (scan "\"\\\\t\"").tokens, t.kind = .string "\\\t" ∧ Apart ['\\'] ['\\', 't'] ∧
      ∃ u w, Yields (enclosed ['\\']) [.string u] ∧ Yields (enclosed ['\\', 't']) [.string w] ∧
        "\\\t" = u ++ w := by
  intro text body
  have hw : Writable text := by
    refine ⟨by decide, ?_⟩
    simp only [escapeLetters, List.forall_mem_cons, List.not_mem_nil, false_imp_iff, implies_true,
      and_true]
    decide
  have hs : Spelled text body :=
    .keep _ (.keep _ (.tab (.keep _ (.keep _ (.carriageReturn .nil)))))
  have hbudget : 5 ≤ Options.still.budget := by decide
  obtain ⟨hyields, hrun⟩ := print_spelled.1 text body hw hs
  refine ⟨⟨hw, hs, hbudget, hyields, hrun fresh .still hbudget⟩, ?_⟩
  let t : Token := ⟨.string "\\\t", "\"\\\\t\"", 1, 1⟩
  have ht : t ∈ (scan "\"\\\\t\"").tokens := by decide +kernel
  have hapart : Apart ['\\'] ['\\', 't'] := by
    intro _ c hc
    obtain rfl : '\\' = c := Option.some.inj hc
    decide
  obtain ⟨body', hlexeme, -, hcut⟩ := print_spelled.2 _ t ht _ rfl
  have hbody : ['\\'] ++ ['\\', 't'] = body' := enclosed_injective hlexeme
  exact ⟨t, ht, rfl, hapart, hcut _ _ hbody hapart⟩

end Session

end Lox
