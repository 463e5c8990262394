import Lox.Proofs.Grammar.Genuine
import Lox.Proofs.Parser.Sentence
import Lox.Proofs.Scan.Joined

/-!
# What is scanned and parsed

The text of every scanned token is right for its kind: a keyword is spelled as it should be, and
an identifier is no keyword. So whatever is parsed without a report is genuine.

## Main results

* `faithful_scan`: the text of a scanned token is right for its kind
* `exists_sentences`: the sentences of a text that is parsed without a report
* `genuineAll_parse`: what is parsed without a report is genuine
-/

namespace Lox

namespace Piece

/-- A piece whose token, if it is one, is faithful. -/
def Faithful (p : Piece) : Prop :=
  ∀ kind, p.kind = .token kind → ∀ line column,
    Token.Faithful ⟨kind, String.ofList p.text, line, column⟩

/-- Only words have to be spelled in some way. -/
theorem NoWord.faithful {p : Piece} (h : p.NoWord) : p.Faithful := by
  intro kind hkind line column
  cases kind with
  | identifier | keyword => simp [NoWord, hkind] at h
  | _ => trivial

theorem faithful_word (s : List Char) : (word s).1.Faithful := by
  rintro kind h
  cases h
  intro line column
  simp only [word, wordKind, Token.Faithful]
  split
  · next k hk =>
    split at hk <;> cases hk
    next h => exact (Keyword.text_of_ofText? h).symm
  · next hk =>
    split at hk <;> cases hk
    next h => exact h
  · trivial

/-- The token at the start of a text is faithful. -/
theorem faithful_next (c : Char) (rest : List Char) : (next c rest).1.Faithful := by
  have hreader := reader_next c
  generalize next c = read at hreader ⊢
  cases hreader with
  | blank => exact NoWord.faithful trivial
  | slash => exact (noWord_slash rest).faithful
  | string => exact (noWord_string rest).faithful
  | number => exact (noWord_number (c :: rest)).faithful
  | word => exact faithful_word (c :: rest)
  | symbol => exact (noWord_symbol c rest).faithful

theorem faithful_ofText (s : List Char) : ∀ p ∈ ofText s, p.Faithful := by
  fun_induction ofText s with
  | case1 => simp
  | case2 c rest ih =>
    intro p hp
    rcases List.mem_cons.1 hp with rfl | hp
    · exact faithful_next c rest
    · exact ih p hp

end Piece

/-- The text of a scanned token is right for its kind. -/
theorem faithful_scan {source : String} {t : Token} (h : t ∈ (scan source).tokens) :
    t.Faithful := by
  obtain ⟨q, hq, ht⟩ := List.mem_filterMap.1 h
  have hpiece := Piece.faithful_ofText _ _ (PlacedPiece.piece_of_mem hq)
  unfold PlacedPiece.token? at ht
  split at ht
  · next kind hkind =>
    cases ht
    exact hpiece kind hkind _ _
  · cases ht

/-- The sentences of a text of which the parser reports nothing. -/
theorem exists_sentences_of_program {source : String}
    (h : (Parser.program (scan source).stream).reports = []) :
    ∃ body : List (List Token × Stmt Unit), (scan source).tokens = (body.map (·.1)).flatten ∧
      (∀ x ∈ body, Sentence (.declaration x.2) x.1) ∧
      (parse source).statements = body.map (·.2) := by
  obtain ⟨body, htokens, hbody, hread⟩ := program_of_derivable (Parser.derivable_of_reports rfl h)
  exact ⟨body, htokens, hbody, by simp [parse, Scan.stream, hread, Reply.statements]⟩

/-- The sentences of a text that is parsed without a report. -/
theorem exists_sentences {source : String} (h : (parse source).reports = []) :
    ∃ body : List (List Token × Stmt Unit), (scan source).tokens = (body.map (·.1)).flatten ∧
      (∀ x ∈ body, Sentence (.declaration x.2) x.1) ∧
      (parse source).statements = body.map (·.2) := by
  simp only [parse, List.append_eq_nil_iff] at h
  exact exists_sentences_of_program h.2

/-- What is parsed without a report is genuine. -/
theorem genuineAll_parse {source : String} (h : (parse source).reports = []) :
    Stmt.GenuineAll (parse source).statements := by
  obtain ⟨body, htokens, hbody, hstatements⟩ := exists_sentences h
  rw [hstatements]
  refine Stmt.genuineAll_iff.2 fun s hs => ?_
  obtain ⟨x, hx, rfl⟩ := List.mem_map.1 hs
  refine (hbody x hx).genuine fun a ha => ?_
  have hmem : a ∈ (scan source).tokens := by
    rw [htokens]
    exact List.mem_flatten.2 ⟨x.1, List.mem_map_of_mem hx, ha⟩
  exact faithful_scan hmem

end Lox
