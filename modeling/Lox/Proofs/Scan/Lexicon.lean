import Lox.Proofs.Scan.Layout
import Lox.Proofs.Scan.Renaming

/-!
# The lexical grammar

What a source text may be made of, said without the scanner: blanks, comments and tokens, each
described by its characters, and strings and comments that the end of the text cuts off. The
piece to take at the front of a text is the longest of those, and a single character where there
is none.

Pieces that are taken so are exactly those that the scanner reads. Since the scanner reads one
piece only at the front of a text, a text falls into such pieces in one way.

## Main definitions

* `Lexical`: the blanks, the comments and the tokens
* `Unclosed`: what the end of the text cuts off
* `Piece.Allowed`: the pieces that the grammar allows at the front of a text
* `Piece.Munch`: the piece to take there
* `Segmentation`: pieces each of which is the one to take before what follows it

## Main results

* `Piece.Allowed.reads_or_longer`: what is allowed is read, or something longer is
* `Piece.Reads.allowed`: what is read is allowed, but for a single unexpected character
* `Piece.munch_iff`: the piece to take is the piece that is read
* `segmentation_iff`: the pieces of a text are its only segmentation
-/

namespace Lox

/-! ## Lexemes -/

/-- The decimal digits. -/
def IsDigit (c : Char) : Prop := '0' ≤ c ∧ c ≤ '9'

/-- The characters that start a name: the letters and the underscore. -/
def IsLetter (c : Char) : Prop := 'a' ≤ c ∧ c ≤ 'z' ∨ 'A' ≤ c ∧ c ≤ 'Z' ∨ c = '_'

/-- What looks like an identifier, a keyword included. -/
def NameShaped (s : List Char) : Prop :=
  ∃ c rest, s = c :: rest ∧ IsLetter c ∧ ∀ d ∈ rest, IsLetter d ∨ IsDigit d

/-- The blanks, the comments and the tokens, by their characters. -/
inductive Lexical : PieceKind → List Char → Prop where
  | blank {c : Char} (h : c ∈ [' ', '\t', '\r', '\n']) : Lexical .blank [c]
  | line {body : List Char} (h : '\n' ∉ body) : Lexical .comment ('/' :: '/' :: body)
  /-- The first closing ends the comment; its asterisk is not that of the opening. -/
  | block {body : List Char} (h : ¬ ['*', '/'] <:+: body ++ ['*']) :
      Lexical .comment ('/' :: '*' :: (body ++ ['*', '/']))
  | string {body : List Char} (h : '"' ∉ body) :
      Lexical (.token (.string (String.ofList (unescape body)))) ('"' :: (body ++ ['"']))
  | whole {ds : List Char} (hne : ds ≠ []) (h : ∀ d ∈ ds, IsDigit d) :
      Lexical (.token (.number (numberValue ds []))) ds
  | decimal {ds fs : List Char} (hne : ds ≠ []) (h : ∀ d ∈ ds, IsDigit d) (hne' : fs ≠ [])
      (h' : ∀ d ∈ fs, IsDigit d) :
      Lexical (.token (.number (numberValue ds fs))) (ds ++ '.' :: fs)
  | keyword (k : Keyword) : Lexical (.token (.keyword k)) k.text.toList
  | identifier {s : List Char} (h : NameShaped s) (hk : ∀ k : Keyword, k.text.toList ≠ s) :
      Lexical (.token .identifier) s
  | symbol (s : Symbol) : Lexical (.token (.symbol s)) s.text.toList

/-- A string and a block comment that are not closed. -/
inductive Unclosed : ScanError → List Char → Prop where
  | string {body : List Char} (h : '"' ∉ body) : Unclosed .unterminatedString ('"' :: body)
  | comment {body : List Char} (h : ¬ ['*', '/'] <:+: body) :
      Unclosed .unterminatedComment ('/' :: '*' :: body)

namespace Piece

/-- A piece that the grammar allows at the front of a text, before what follows it there: what is
not closed reaches the end of the text. -/
inductive Allowed : Piece → List Char → Prop where
  | lexical {kind : PieceKind} {s : List Char} (h : Lexical kind s) (more : List Char) :
      Allowed ⟨kind, s⟩ more
  | unclosed {e : ScanError} {s : List Char} (h : Unclosed e s) : Allowed ⟨.fault e, s⟩ []

/-- The piece to take at the front of a text, before what follows it there. -/
inductive Munch : Piece → List Char → Prop where
  /-- The longest piece that is allowed. -/
  | longest {p : Piece} {more : List Char} (h : Allowed p more)
      (hmax : ∀ q rest, Allowed q rest → q.text ++ rest = p.text ++ more →
        q.text.length ≤ p.text.length) : Munch p more
  /-- One character, where none is allowed. -/
  | unexpected {c : Char} {more : List Char}
      (h : ∀ q rest, Allowed q rest → q.text ++ rest ≠ c :: more) :
      Munch ⟨.fault .unexpectedCharacter, [c]⟩ more

end Piece

/-- Pieces each of which is the one to take before the text of those that follow it. -/
inductive Segmentation : List Piece → Prop where
  | nil : Segmentation []
  | cons {p : Piece} {ps : List Piece} (h : p.Munch (ps.flatMap Piece.text))
      (hps : Segmentation ps) : Segmentation (p :: ps)

/-! ## Characters -/

theorem isDigit_iff {c : Char} : c.isDigit ↔ IsDigit c := by
  simp only [Char.isDigit, Bool.and_eq_true, decide_eq_true_eq]
  exact Iff.rfl

theorem startsName_iff {c : Char} : Piece.startsName c ↔ IsLetter c := by
  have hletter : c.isAlpha ↔ 'A' ≤ c ∧ c ≤ 'Z' ∨ 'a' ≤ c ∧ c ≤ 'z' := by
    have hcases : c.isAlpha = (decide (c.val ≥ 'A'.val ∧ c.val ≤ 'Z'.val) ||
        decide (c.val ≥ 'a'.val) && decide (c.val ≤ 'z'.val)) := rfl
    simp only [hcases, Bool.or_eq_true, Bool.and_eq_true, decide_eq_true_eq]
    exact Iff.rfl
  rw [Piece.startsName, Bool.or_eq_true, hletter, decide_eq_true_eq, IsLetter]
  tauto

theorem inName_iff {c : Char} : Piece.inName c ↔ IsLetter c ∨ IsDigit c := by
  rw [Piece.inName, Bool.or_eq_true, startsName_iff, isDigit_iff]

theorem isWord_iff {s : List Char} : isWord s ↔ NameShaped s := by
  cases s with
  | nil => simp [isWord, NameShaped]
  | cons c rest =>
    simp only [isWord, Bool.and_eq_true, startsName_iff, List.all_eq_true, inName_iff]
    constructor
    · rintro ⟨hc, hrest⟩
      exact ⟨c, rest, rfl, hc, hrest⟩
    · rintro ⟨_, _, heq, hc, hrest⟩
      cases heq
      exact ⟨hc, hrest⟩

theorem NameShaped.ne_nil {s : List Char} (h : NameShaped s) : s ≠ [] := by
  obtain ⟨c, rest, rfl, -, -⟩ := h
  exact List.cons_ne_nil _ _

theorem isSeparator_iff {c : Char} : Piece.isSeparator c ↔ c ∈ [' ', '\t', '\r', '\n'] := by
  simp only [Piece.isSeparator, Bool.or_eq_true, decide_eq_true_eq, List.mem_cons,
    List.not_mem_nil, or_false]
  tauto

namespace Piece

variable {more : List Char} {p : Piece} {c : Char}

/-! ## What is allowed is read -/

/-- A piece is read before a text, or a longer one is read in its place. -/
def ReadsOrLonger (p : Piece) (more : List Char) : Prop :=
  p.Reads more ∨ ∃ (q : Piece) (rest : List Char), q.Reads rest ∧ q.text ++ rest = p.text ++ more ∧
    p.text.length < q.text.length

/-- A run of characters goes on with those behind it that are of its kind. -/
theorem takeWhile_run {test : Char → Bool} {s : List Char} (hs : ∀ d ∈ s, test d)
    (more : List Char) : (s ++ more).takeWhile test = s ++ more.takeWhile test ∧
      (s ++ more).dropWhile test = more.dropWhile test :=
  ⟨List.takeWhile_append_of_pos hs, List.dropWhile_append_of_pos hs⟩

theorem dropWhile_of_takeWhile_nil {test : Char → Bool} {s : List Char}
    (h : s.takeWhile test = []) : s.dropWhile test = s := by
  have hwhole := List.takeWhile_append_dropWhile (p := test) (l := s)
  rwa [h] at hwhole

/-- The piece that is read in place of another. -/
theorem ReadsOrLonger.of_next {u : List Char} (htext : p.text = c :: u)
    (h : next c (u ++ more) = (p, more) ∨
      p.text.length < (next c (u ++ more)).1.text.length) : p.ReadsOrLonger more := by
  rcases h with h | h
  · exact .inl ⟨c, u, htext, h⟩
  · refine .inr ⟨_, _, reads_next c (u ++ more), ?_, h⟩
    rw [next_text, htext]
    rfl

theorem readsOrLonger_line {body : List Char} (h : '\n' ∉ body) (more : List Char) :
    ReadsOrLonger ⟨.comment, '/' :: '/' :: body⟩ more := by
  have hbody : ∀ d ∈ body, decide (d ≠ '\n') := fun d hd => decide_eq_true fun heq => h (heq ▸ hd)
  obtain ⟨htake, hdrop⟩ := takeWhile_run hbody more
  have hnext : next '/' ('/' :: body ++ more) = slash ('/' :: (body ++ more)) := by
    simp [next, isSeparator]
  refine .of_next rfl ?_
  rw [hnext, slash, htake, hdrop]
  -- where the line goes on, the comment that is read is longer
  cases hmore : more.takeWhile (· ≠ '\n') with
  | nil =>
    left
    rw [dropWhile_of_takeWhile_nil hmore, List.append_nil]
  | cons d ds => exact .inr (by simp)

/-- A string is read before every text. -/
theorem reads_string {body : List Char} (h : '"' ∉ body) (more : List Char) :
    Reads ⟨.token (.string (String.ofList (unescape body))), '"' :: (body ++ ['"'])⟩ more := by
  have hbody : ∀ d ∈ body, decide (d ≠ '"') := fun d hd => decide_eq_true fun heq => h (heq ▸ hd)
  obtain ⟨htake, hdrop⟩ := takeWhile_run hbody ('"' :: more)
  have hnext : next '"' (body ++ ['"'] ++ more) = string (body ++ '"' :: more) := by
    simp [next, isSeparator]
  refine ⟨'"', body ++ ['"'], rfl, ?_⟩
  rw [hnext, string, htake, hdrop]
  simp

theorem readsOrLonger_string {body : List Char} (h : '"' ∉ body) (more : List Char) :
    ReadsOrLonger ⟨.token (.string (String.ofList (unescape body))), '"' :: (body ++ ['"'])⟩
      more :=
  .inl (reads_string h more)

/-- A number is at least as long as the digits that it starts with. -/
theorem length_digits_le (s : List Char) :
    (s.takeWhile Char.isDigit).length ≤ (number s).1.text.length := by
  unfold number
  simp only
  split
  · split
    · simp
    · exact Nat.le_refl _
  · exact Nat.le_refl _

theorem next_number {c : Char} (hc : c.isDigit) (rest : List Char) :
    next c rest = number (c :: rest) := by
  have hne : ∀ d : Char, d.isDigit = false → c ≠ d := by
    rintro d hd rfl
    exact absurd hc (by simp [hd])
  have hblank : isSeparator c = false := by
    simp [isSeparator, hne ' ' rfl, hne '\r' rfl, hne '\t' rfl, hne '\n' rfl]
  simp [next, hblank, hne '/' rfl, hne '"' rfl, hc]

theorem readsOrLonger_whole {ds : List Char} (hne : ds ≠ []) (h : ∀ d ∈ ds, d.isDigit)
    (more : List Char) : ReadsOrLonger ⟨.token (.number (numberValue ds [])), ds⟩ more := by
  obtain ⟨c, u, rfl⟩ := List.exists_cons_of_ne_nil hne
  refine .of_next rfl ?_
  rw [next_number (h c (by simp)), ← List.cons_append]
  obtain ⟨htake, hdrop⟩ := takeWhile_run h more
  by_cases hdigit : more.head?.any Char.isDigit
  · -- the digits go on
    right
    refine Nat.lt_of_lt_of_le ?_ (length_digits_le _)
    obtain ⟨d, hhead, hd⟩ := (Option.any_eq_true ..).1 hdigit
    obtain ⟨rest, rfl⟩ := List.head?_eq_some_iff.1 hhead
    rw [htake, List.takeWhile_cons_of_pos hd]
    simp
  · have hdigit : more.head?.any Char.isDigit = false := by simpa using hdigit
    have hall : (c :: u).takeWhile Char.isDigit = c :: u := List.takeWhile_eq_self_iff.2 h
    by_cases hpoint : more.head? = some '.' → more.tail.head?.any Char.isDigit = false
    · left
      have hnumber := number_of_digits (c :: u) hdigit hpoint
      rwa [hall] at hnumber
    · -- a fraction follows
      right
      obtain ⟨hhead, htail⟩ := Classical.not_imp.1 hpoint
      obtain ⟨rest, rfl⟩ := List.head?_eq_some_iff.1 hhead
      have htail : rest.head?.any Char.isDigit = true := by simpa using htail
      obtain ⟨d, hfirst, hd⟩ := (Option.any_eq_true ..).1 htail
      obtain ⟨rest, rfl⟩ := List.head?_eq_some_iff.1 hfirst
      have hstop : ('.' :: d :: rest).takeWhile Char.isDigit = [] ∧
          ('.' :: d :: rest).dropWhile Char.isDigit = '.' :: d :: rest := ⟨rfl, rfl⟩
      simp only [number, htake, hdrop, hstop, hd, if_true, List.append_nil]
      simp

theorem readsOrLonger_decimal {ds fs : List Char} (hne : ds ≠ []) (h : ∀ d ∈ ds, d.isDigit)
    (hne' : fs ≠ []) (h' : ∀ d ∈ fs, d.isDigit) (more : List Char) :
    ReadsOrLonger ⟨.token (.number (numberValue ds fs)), ds ++ '.' :: fs⟩ more := by
  obtain ⟨c, u, rfl⟩ := List.exists_cons_of_ne_nil hne
  obtain ⟨d, v, rfl⟩ := List.exists_cons_of_ne_nil hne'
  refine .of_next (u := u ++ '.' :: d :: v) rfl ?_
  rw [next_number (h c (by simp))]
  have hsplit : c :: (u ++ '.' :: d :: v ++ more) = (c :: u) ++ '.' :: ((d :: v) ++ more) := by
    simp
  rw [hsplit]
  obtain ⟨htake, hdrop⟩ := takeWhile_run h ('.' :: ((d :: v) ++ more))
  obtain ⟨htake', hdrop'⟩ := takeWhile_run h' more
  -- the digits before the point stop there, those behind it may go on
  have hstop : ('.' :: ((d :: v) ++ more)).takeWhile Char.isDigit = [] ∧
      ('.' :: ((d :: v) ++ more)).dropWhile Char.isDigit = '.' :: ((d :: v) ++ more) := ⟨rfl, rfl⟩
  rw [hstop.1, List.append_nil] at htake
  rw [hstop.2] at hdrop
  have hd : d.isDigit = true := h' d (by simp)
  simp only [List.cons_append] at htake' hdrop' hdrop htake ⊢
  simp only [number, htake, hdrop, hd, if_true, htake', hdrop']
  cases hmore : more.takeWhile Char.isDigit with
  | nil =>
    left
    rw [dropWhile_of_takeWhile_nil hmore, List.append_nil]
    rfl
  | cons e es => exact .inr (by simp)

theorem next_word {c : Char} (hc : startsName c) (rest : List Char) :
    next c rest = word (c :: rest) := by
  have hne : ∀ d : Char, startsName d = false → c ≠ d :=
    fun d hd => of_decide_eq_false (eq_false_of_startsName hc hd)
  have hblank : isSeparator c = false := by
    simp [isSeparator, hne ' ' rfl, hne '\r' rfl, hne '\t' rfl, hne '\n' rfl]
  simp [next, hblank, hne '/' rfl, hne '"' rfl, not_isDigit_of_startsName hc, hc]

theorem readsOrLonger_word {s : List Char} (hs : NameShaped s) (more : List Char) :
    ReadsOrLonger ⟨.token (wordKind s), s⟩ more := by
  have hname := inName_of_mem (isWord_iff.2 hs)
  obtain ⟨c, u, rfl, hc, -⟩ := hs
  obtain ⟨htake, hdrop⟩ := takeWhile_run hname more
  refine .of_next rfl ?_
  rw [next_word (startsName_iff.2 hc), ← List.cons_append, word, htake, hdrop]
  cases hmore : more.takeWhile inName with
  | nil =>
    left
    rw [dropWhile_of_takeWhile_nil hmore, List.append_nil]
  | cons e es => exact .inr (by simp)

/-- Keywords look like identifiers. -/
theorem nameShaped_text (k : Keyword) : NameShaped k.text.toList :=
  isWord_iff.1 (by cases k <;> decide)

/-- A symbol is written with one character or with two. -/
theorem text_symbol (s : Symbol) :
    (∃ c, s.text.toList = [c] ∧ oneCharacterSymbol? c = some s) ∨
      ∃ c t, s.text.toList = [c, '='] ∧ oneCharacterSymbol? c = some t ∧
        c ≠ '/' ∧ twoCharacterSymbol? c '=' = some s := by
  cases s <;> first
    | exact .inl ⟨_, rfl, rfl⟩
    | exact .inr ⟨_, _, rfl, rfl, by decide, rfl⟩

/-- What starts with the character of a symbol is a symbol, or a comment. -/
theorem next_symbol {c : Char} {s : Symbol} (hc : oneCharacterSymbol? c = some s)
    (rest : List Char) : next c rest = if c = '/' then slash rest else symbol c rest := by
  have hclasses : isSeparator c = false ∧ c ≠ '"' ∧ c.isDigit = false ∧ startsName c = false := by
    unfold oneCharacterSymbol? at hc
    split at hc <;> first | exact ⟨rfl, by decide, rfl, rfl⟩ | cases hc
  obtain ⟨hblank, hquote, hdigit, hname⟩ := hclasses
  simp [next, hblank, hquote, hdigit, hname]

theorem single_of_symbol {c : Char} {s : Symbol} (hc : oneCharacterSymbol? c = some s) :
    single c = ⟨.token (.symbol s), [c]⟩ := by
  simp only [single, hc]

/-- A symbol of one character is read, unless it is the first of two. -/
theorem symbol_or_longer {c : Char} {s : Symbol} (hc : oneCharacterSymbol? c = some s)
    (more : List Char) : symbol c more = (⟨.token (.symbol s), [c]⟩, more) ∨
      1 < (symbol c more).1.text.length := by
  cases more with
  | nil => exact .inl (by rw [symbol, single_of_symbol hc])
  | cons d more =>
    cases htwo : twoCharacterSymbol? c d with
    | none => exact .inl (by simp only [symbol, htwo, single_of_symbol hc])
    | some t => exact .inr (by simp [symbol, htwo])

theorem readsOrLonger_symbol (s : Symbol) (more : List Char) :
    ReadsOrLonger ⟨.token (.symbol s), s.text.toList⟩ more := by
  rcases text_symbol s with ⟨c, htext, hc⟩ | ⟨c, t, htext, hc, hslash, htwo⟩
  · rw [htext]
    refine .of_next rfl ?_
    rw [next_symbol hc, List.nil_append]
    split
    · next h =>
      -- a slash may open a comment, which is longer
      subst h
      unfold slash
      split
      · exact .inr (by simp)
      · exact .inr (by simp)
      · exact symbol_or_longer hc more
    · exact symbol_or_longer hc more
  · rw [htext]
    refine .of_next rfl (.inl ?_)
    rw [next_symbol hc, if_neg hslash]
    show symbol c ('=' :: more) = _
    simp only [symbol, htwo]

theorem string_of_unclosed {body : List Char} (h : '"' ∉ body) :
    string body = (⟨.fault .unterminatedString, '"' :: body⟩, []) := by
  have hbody : ∀ d ∈ body, decide (d ≠ '"') := fun d hd => decide_eq_true fun heq => h (heq ▸ hd)
  have hdrop : body.dropWhile (· ≠ '"') = [] := List.dropWhile_eq_nil_iff.2 hbody
  have htake : body.takeWhile (· ≠ '"') = body := List.takeWhile_eq_self_iff.2 hbody
  rw [string, hdrop, htake]

/-- A comment without a closing goes on to the end. -/
theorem blockComment_of_unclosed {body : List Char} (h : ¬ ['*', '/'] <:+: body) :
    blockComment body = (body, [], false) := by
  induction body with
  | nil => rfl
  | cons c body ih =>
    have hbody : ¬ ['*', '/'] <:+: body := fun hinfix => h (List.infix_cons hinfix)
    rw [blockComment, ih hbody]
    rintro r rfl rfl
    exact h ⟨[], r, rfl⟩

theorem reads_unclosed {e : ScanError} {s : List Char} (h : Unclosed e s) :
    Reads ⟨.fault e, s⟩ [] := by
  cases h with
  | @string body hbody =>
    refine ⟨'"', body, rfl, ?_⟩
    rw [List.append_nil, ← string_of_unclosed hbody]
    simp [next, isSeparator]
  | @comment body hbody =>
    refine ⟨'/', '*' :: body, rfl, ?_⟩
    have hnext : next '/' ('*' :: body ++ []) = slash ('*' :: body) := by
      simp [next, isSeparator]
    rw [hnext, slash, blockComment_of_unclosed hbody]
    rfl

/-- What is allowed is read, or something longer is. -/
theorem Allowed.reads_or_longer (h : Allowed p more) : p.ReadsOrLonger more := by
  cases h with
  | unclosed h => exact .inl (reads_unclosed h)
  | @lexical kind u h more =>
    cases h with
    | blank h => exact .inl (reads_blank (isSeparator_iff.2 h) more)
    | line h => exact readsOrLonger_line h more
    | block h => exact .inl (reads_block h more)
    | string h => exact readsOrLonger_string h more
    | whole hne h => exact readsOrLonger_whole hne (fun d hd => isDigit_iff.2 (h d hd)) more
    | decimal hne h hne' h' =>
      exact readsOrLonger_decimal hne (fun d hd => isDigit_iff.2 (h d hd)) hne'
        (fun d hd => isDigit_iff.2 (h' d hd)) more
    | keyword k =>
      -- a keyword is read as a word and told from the names afterwards
      have hkind : wordKind k.text.toList = .keyword k := by
        simp [wordKind, Keyword.ofText?_text]
      rw [← hkind]
      exact readsOrLonger_word (nameShaped_text k) more
    | identifier h hk =>
      have hnone : Keyword.ofText? (String.ofList u) = none := by
        rw [Option.eq_none_iff_forall_ne_some]
        intro k hsome
        refine hk k ?_
        rw [Keyword.text_of_ofText? hsome, String.toList_ofList]
      have hkind : wordKind u = .identifier := by simp [wordKind, hnone]
      rw [← hkind]
      exact readsOrLonger_word h more
    | symbol s => exact readsOrLonger_symbol s more

/-! ## What is read is allowed -/

/-- A comment is closed by the first closing, or not at all. -/
theorem blockComment_cases (s : List Char) :
    (∃ body more, ¬ ['*', '/'] <:+: body ++ ['*'] ∧
      blockComment s = (body ++ ['*', '/'], more, true)) ∨
    ¬ ['*', '/'] <:+: s ∧ blockComment s = (s, [], false) := by
  fun_induction blockComment s with
  | case1 more =>
    left
    exact ⟨[], more, by decide, rfl⟩
  | case2 c rest hopen b ih =>
    -- a closing in the longer text would stand at its front
    have hfront : ∀ t : List Char, ['*', '/'] <:+: c :: t → t.head? = rest.head? →
        ['*', '/'] <:+: t := by
      intro t hinfix hhead
      rcases List.infix_cons_iff.1 hinfix with ⟨u, hu⟩ | hinfix
      · obtain ⟨rfl, rfl⟩ := List.cons.inj hu
        obtain ⟨r, hr⟩ := List.head?_eq_some_iff.1 hhead.symm
        exact absurd hr (hopen r rfl)
      · exact hinfix
    rcases ih with ⟨body, more, hbody, heq⟩ | ⟨hbody, heq⟩
    · left
      refine ⟨c :: body, more, fun hinfix => hbody (hfront _ hinfix ?_), ?_⟩
      · have hrest := blockComment_append rest
        rw [heq] at hrest
        rw [← hrest]
        cases body <;> rfl
      · simp only [b, heq, List.cons_append]
    · right
      refine ⟨fun hinfix => hbody (hfront _ hinfix rfl), ?_⟩
      simp only [b, heq]
  | case3 => exact .inr ⟨by decide, rfl⟩

/-- A piece that is allowed or a single unexpected character. -/
def AllowedOrUnexpected (p : Piece) (more : List Char) : Prop :=
  Allowed p more ∨ ∃ c, p = ⟨.fault .unexpectedCharacter, [c]⟩

theorem not_mem_takeWhile (d : Char) (s : List Char) : d ∉ s.takeWhile (· ≠ d) := by
  intro hmem
  have hne := List.mem_takeWhile_imp hmem
  simp at hne

theorem allowed_single (c : Char) (more : List Char) : AllowedOrUnexpected (single c) more := by
  have htext : ∀ s, oneCharacterSymbol? c = some s → s.text.toList = [c] := by
    intro s hs
    unfold oneCharacterSymbol? at hs
    split at hs <;> cases hs <;> rfl
  unfold single
  split
  · next s hs =>
    have hsymbol := Lexical.symbol s
    rw [htext s hs] at hsymbol
    exact .inl (.lexical hsymbol more)
  · exact .inr ⟨c, rfl⟩

theorem allowed_symbol (c : Char) (rest : List Char) :
    AllowedOrUnexpected (symbol c rest).1 (symbol c rest).2 := by
  have htext : ∀ d s, twoCharacterSymbol? c d = some s → s.text.toList = [c, d] := by
    intro d s hs
    unfold twoCharacterSymbol? at hs
    split at hs <;> cases hs <;> rfl
  cases rest with
  | nil => exact allowed_single c []
  | cons d rest =>
    unfold symbol
    simp only
    split
    · next s hs =>
      have hsymbol := Lexical.symbol s
      rw [htext d s hs] at hsymbol
      exact .inl (.lexical hsymbol rest)
    · exact allowed_single c (d :: rest)

theorem allowed_slash (rest : List Char) :
    AllowedOrUnexpected (slash rest).1 (slash rest).2 := by
  unfold slash
  split
  · exact .inl (.lexical (.line (not_mem_takeWhile '\n' _)) _)
  · next rest =>
    left
    rcases blockComment_cases rest with ⟨body, more, hbody, heq⟩ | ⟨hbody, heq⟩
    · simp only [heq, if_true]
      exact .lexical (.block hbody) more
    · simp only [heq, Bool.false_eq_true, if_false]
      exact .unclosed (.comment hbody)
  · exact allowed_symbol '/' _

theorem allowed_string (rest : List Char) : Allowed (string rest).1 (string rest).2 := by
  have hbody := not_mem_takeWhile '"' rest
  unfold string
  simp only
  split
  · exact .unclosed (.string hbody)
  · next quote more hdrop =>
    obtain rfl := eq_quote_of_dropWhile hdrop
    exact .lexical (.string hbody) more

theorem allowed_number {c : Char} (hc : c.isDigit) (rest : List Char) :
    Allowed (number (c :: rest)).1 (number (c :: rest)).2 := by
  have hdigits : ∀ s : List Char, ∀ d ∈ s.takeWhile Char.isDigit, IsDigit d :=
    fun s d hd => isDigit_iff.1 (List.mem_takeWhile_imp hd)
  have hne : ∀ (d : Char) (s : List Char), d.isDigit → (d :: s).takeWhile Char.isDigit ≠ [] := by
    intro d s hd
    simp [hd]
  unfold number
  simp only
  split
  · next d more hdrop =>
    split
    · next hd => exact .lexical (.decimal (hne c rest hc) (hdigits _) (hne d more hd) (hdigits _)) _
    · exact .lexical (.whole (hne c rest hc) (hdigits _)) _
  · exact .lexical (.whole (hne c rest hc) (hdigits _)) _

theorem allowed_word {c : Char} (hc : startsName c) (rest : List Char) :
    Allowed (word (c :: rest)).1 (word (c :: rest)).2 := by
  have htake : (c :: rest).takeWhile inName = c :: rest.takeWhile inName := by
    simp [inName_of_startsName hc]
  have hshape : NameShaped ((c :: rest).takeWhile inName) :=
    ⟨c, _, htake, startsName_iff.1 hc, fun d hd => inName_iff.1 (List.mem_takeWhile_imp hd)⟩
  unfold word wordKind
  split
  · next k hk =>
    have hkeyword := Lexical.keyword k
    rw [Keyword.text_of_ofText? hk, String.toList_ofList] at hkeyword
    exact .lexical hkeyword _
  · next hnone =>
    refine .lexical (.identifier hshape fun k hk => ?_) _
    rw [← hk, String.ofList_toList, Keyword.ofText?_text] at hnone
    cases hnone

/-- What is read is allowed, but for a single unexpected character. -/
theorem allowed_next (c : Char) (rest : List Char) :
    AllowedOrUnexpected (next c rest).1 (next c rest).2 := by
  have hreader := reader_next c
  generalize next c = read at hreader ⊢
  cases hreader with
  | blank h => exact .inl (.lexical (.blank (isSeparator_iff.1 h)) rest)
  | slash => exact allowed_slash rest
  | string => exact .inl (allowed_string rest)
  | number h => exact .inl (allowed_number h rest)
  | word h => exact .inl (allowed_word h rest)
  | symbol => exact allowed_symbol c rest

/-! ## The piece to take -/

theorem Reads.eq_of_text {q : Piece} {rest : List Char} (hp : p.Reads more) (hq : q.Reads rest)
    (h : p.text ++ more = q.text ++ rest) : p = q ∧ more = rest := by
  obtain ⟨c, u, hc, hnext⟩ := hp
  obtain ⟨d, v, hd, hnext'⟩ := hq
  rw [hc, hd] at h
  obtain ⟨rfl, huv⟩ := List.cons.inj h
  have huv : u ++ more = v ++ rest := huv
  rw [huv, hnext'] at hnext
  cases hnext
  exact ⟨rfl, rfl⟩

theorem Reads.allowed (h : p.Reads more) : AllowedOrUnexpected p more := by
  obtain ⟨c, u, -, hnext⟩ := h
  have hallowed := allowed_next c (u ++ more)
  rwa [hnext] at hallowed

/-- A token that is read is a lexeme of the grammar. -/
theorem Reads.lexical {k : TokenKind} (h : p.Reads more) (hk : p.kind = .token k) :
    Lexical (.token k) p.text := by
  rcases h.allowed with hallowed | ⟨c, rfl⟩
  · cases hallowed with
    | lexical hlexical =>
      cases hk
      exact hlexical
    | unclosed h => cases hk
  · cases hk

theorem Allowed.text_ne_nil (h : Allowed p more) : p.text ≠ [] := by
  cases h with
  | unclosed h => cases h <;> exact List.cons_ne_nil _ _
  | lexical h =>
    cases h with
    | whole hne h => exact hne
    | decimal hne h hne' h' => exact List.append_ne_nil_of_left_ne_nil hne _
    | keyword k => exact (nameShaped_text k).ne_nil
    | identifier h hk => exact h.ne_nil
    | symbol s => rcases text_symbol s with ⟨c, htext, -⟩ | ⟨c, t, htext, -⟩ <;> simp [htext]
    | _ => exact List.cons_ne_nil _ _

theorem Allowed.kind_ne (h : Allowed p more) : p.kind ≠ .fault .unexpectedCharacter := by
  cases h with
  | lexical h => cases h <;> simp
  | unclosed h => cases h <;> simp

/-- The piece to take at the front of a text is the piece that is read there. -/
theorem munch_iff : p.Munch more ↔ p.Reads more := by
  constructor
  · intro h
    cases h with
    | longest h hmax =>
      rcases h.reads_or_longer with hreads | ⟨q, rest, hq, htext, hlonger⟩
      · exact hreads
      -- what is longer is allowed as well: a single character is no longer than anything
      · rcases hq.allowed with hallowed | ⟨c, rfl⟩
        · exact absurd (hmax q rest hallowed htext) (Nat.not_le.2 hlonger)
        · exact absurd (List.length_eq_zero_iff.1 (Nat.lt_one_iff.1 hlonger)) h.text_ne_nil
    | @unexpected c more hnone =>
      have hreads := reads_next c more
      have htext := next_text c more
      rcases allowed_next c more with hallowed | ⟨d, heq⟩
      · exact absurd htext (hnone _ _ hallowed)
      · rw [heq] at htext
        obtain ⟨hd, hrest⟩ := List.cons.inj htext
        have hrest : (next c more).2 = more := hrest
        rwa [heq, hrest, hd] at hreads
  · intro h
    rcases h.allowed with hallowed | ⟨c, rfl⟩
    · -- only one piece is read at the front of a text, so no other can be longer
      refine .longest hallowed fun q rest hq htext => ?_
      rcases hq.reads_or_longer with hreads | ⟨r, rest', hr, htext', hlonger⟩
      · exact Nat.le_of_eq (congrArg (List.length ∘ Piece.text) (hreads.eq_of_text h htext).1)
      · obtain ⟨rfl, -⟩ := hr.eq_of_text h (htext'.trans htext)
        exact Nat.le_of_lt hlonger
    · -- what were allowed in place of the character would be read, or be no longer than it
      refine .unexpected fun q rest hq htext => ?_
      rcases hq.reads_or_longer with hreads | ⟨r, rest', hr, htext', hlonger⟩
      · obtain ⟨rfl, -⟩ := hreads.eq_of_text h htext
        exact hq.kind_ne rfl
      · obtain ⟨rfl, -⟩ := hr.eq_of_text h (htext'.trans htext)
        exact hq.text_ne_nil (List.length_eq_zero_iff.1 (Nat.lt_one_iff.1 hlonger))

end Piece

/-! ## The segmentation of a text -/

theorem segmentation_iff_readable {ps : List Piece} : Segmentation ps ↔ Piece.Readable ps := by
  constructor
  · intro h
    induction h with
    | nil => exact .nil
    | cons h _ ih => exact .cons (Piece.munch_iff.1 h) ih
  · intro h
    induction h with
    | nil => exact .nil
    | cons h _ ih => exact .cons (Piece.munch_iff.2 h) ih

/-- The pieces of a text are its only segmentation. -/
theorem segmentation_iff {ps : List Piece} {s : List Char} :
    Segmentation ps ∧ ps.flatMap Piece.text = s ↔ ps = Piece.ofText s := by
  rw [segmentation_iff_readable]
  constructor
  · rintro ⟨h, rfl⟩
    exact (Piece.ofText_of_readable h).symm
  · rintro rfl
    exact ⟨Piece.readable_ofText s, Piece.text_ofText s⟩

end Lox
