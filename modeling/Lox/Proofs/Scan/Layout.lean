import Lox.Proofs.Scan.Joined
import Mathlib.Data.List.Forall2

/-!
# Layout

The tokens of a text can be laid out in other ways. They may be further apart and have comments
between them, and each of them is scanned again as the token that it is. For this every gap between
two tokens has to hold something, and what follows a token has to start with a blank: a comment
right after a slash would make another comment.

## Main definitions

* `Filler`, `Gap`: what stands between tokens
* `Layout`: a way to lay out tokens, with `Layout.text`
* `Token.Alike`: tokens that differ in their places only

## Main results

* `Layout.scan_text`: the tokens of a text that is laid out in another way
-/

namespace Lox

/-- Something between tokens. -/
inductive Filler where
  /-- A space, a tab, a carriage return or a line feed. -/
  | blank (c : Char) (h : Piece.isSeparator c)
  /-- A comment, which the first closing closes. -/
  | block (body : List Char) (h : ¬ ['*', '/'] <:+: body ++ ['*'])
  /-- A comment up to the end of the line, and the end of the line. -/
  | line (body : List Char) (h : '\n' ∉ body)

namespace Filler

/-- The characters of something between tokens. -/
def text : Filler → List Char
  | blank c _ => [c]
  | block body _ => '/' :: '*' :: (body ++ ['*', '/'])
  | line body _ => '/' :: '/' :: (body ++ ['\n'])

/-- The pieces that it makes up. -/
def pieces : Filler → List Piece
  | blank c _ => [⟨.blank, [c]⟩]
  | block body _ => [⟨.comment, '/' :: '*' :: (body ++ ['*', '/'])⟩]
  | line body _ => [⟨.comment, '/' :: '/' :: body⟩, ⟨.blank, ['\n']⟩]

end Filler

/-- What stands between two tokens, before the first one or after the last one. -/
abbrev Gap := List Filler

namespace Gap

/-- The characters of a gap. -/
def text (g : Gap) : List Char := g.flatMap Filler.text

/-- The pieces that a gap makes up. -/
def pieces (g : Gap) : List Piece := g.flatMap Filler.pieces

end Gap

/-- A way to lay out tokens. -/
structure Layout (tokens : List Token) where
  /-- What stands before the first token. -/
  first : Gap
  /-- What stands after each of the tokens. -/
  gaps : List Gap
  /-- There is a gap for each token. -/
  length_gaps : gaps.length = tokens.length
  /-- Between two tokens there is something. -/
  apart : ∀ g ∈ gaps.dropLast, g ≠ []
  /-- What follows a token starts with a blank. -/
  blank : ∀ g ∈ gaps, g.text.head?.all Piece.isSeparator

namespace Layout

/-- The characters of tokens, each with the gap after it. -/
def textFrom (tokens : List Token) (gaps : List Gap) : List Char :=
  (List.zipWith (fun t g => t.lexeme.toList ++ g.text) tokens gaps).flatten

/-- The text of tokens that are laid out. -/
def text {tokens : List Token} (l : Layout tokens) : String :=
  String.ofList (l.first.text ++ textFrom tokens l.gaps)

end Layout

/-- Tokens of the same kind, with the same text and the same value. -/
structure Token.Alike (t t' : Token) : Prop where
  kind : t'.kind = t.kind
  lexeme : t'.lexeme = t.lexeme

namespace Piece

/-! ## Fillers -/

variable {more : List Char} {ps : List Piece}

/-- A comment up to its first closing. -/
theorem blockComment_of_body {body : List Char} (h : ¬ ['*', '/'] <:+: body ++ ['*'])
    (more : List Char) :
    blockComment (body ++ '*' :: '/' :: more) = (body ++ ['*', '/'], more, true) := by
  induction body with
  | nil => rfl
  | cons c body ih =>
    have hbody : ¬ ['*', '/'] <:+: body ++ ['*'] := fun hinfix => h (List.infix_cons hinfix)
    rw [List.cons_append, blockComment, ih hbody]
    · rfl
    -- the comment is not closed here
    rintro r rfl hr
    cases body with
    | nil => cases hr
    | cons d body =>
      obtain ⟨rfl, -⟩ := List.cons.inj hr
      exact h ⟨[], body ++ ['*'], rfl⟩

theorem reads_blank {c : Char} (h : isSeparator c) (more : List Char) :
    (⟨.blank, [c]⟩ : Piece).Reads more :=
  ⟨c, [], rfl, by simp [next, h]⟩

theorem reads_block {body : List Char} (h : ¬ ['*', '/'] <:+: body ++ ['*']) (more : List Char) :
    (⟨.comment, '/' :: '*' :: (body ++ ['*', '/'])⟩ : Piece).Reads more := by
  have hbody := blockComment_of_body h more
  refine ⟨'/', '*' :: (body ++ ['*', '/']), rfl, ?_⟩
  have hnext : next '/' ('*' :: (body ++ ['*', '/']) ++ more) =
      slash ('*' :: (body ++ '*' :: '/' :: more)) := by simp [next, isSeparator]
  rw [hnext, slash, hbody]
  rfl

theorem reads_line {body : List Char} (h : '\n' ∉ body) (more : List Char) :
    (⟨.comment, '/' :: '/' :: body⟩ : Piece).Reads ('\n' :: more) := by
  have hall : body.takeWhile (· ≠ '\n') = body :=
    List.takeWhile_eq_self_iff.2 fun c hc => decide_eq_true fun heq => h (heq ▸ hc)
  have hslash : slash ('/' :: (body.takeWhile (· ≠ '\n') ++ '\n' :: more)) = _ :=
    slash_line body (by simp)
  rw [hall] at hslash
  refine ⟨'/', '/' :: body, rfl, ?_⟩
  have hnext : next '/' ('/' :: body ++ '\n' :: more) = slash ('/' :: (body ++ '\n' :: more)) := by
    simp [next, isSeparator]
  rw [hnext, hslash]

/-- Fillers are read whatever follows them. -/
theorem readable_filler (f : Filler) (h : Readable ps) : Readable (f.pieces ++ ps) := by
  cases f with
  | blank c hc => exact .cons (reads_blank hc _) h
  | block body hbody => exact .cons (reads_block hbody _) h
  | line body hbody => exact .cons (reads_line hbody _) (.cons (reads_blank rfl _) h)

theorem readable_gap (g : Gap) (h : Readable ps) : Readable (g.pieces ++ ps) := by
  induction g with
  | nil => exact h
  | cons f g ih =>
    rw [Gap.pieces, List.flatMap_cons, List.append_assoc]
    exact readable_filler f ih

theorem text_gap (g : Gap) : g.pieces.flatMap text = g.text := by
  have hfiller : ∀ f : Filler, f.pieces.flatMap text = f.text := by
    intro f
    cases f <;> simp [Filler.pieces, Filler.text]
  rw [Gap.pieces, List.flatMap_assoc, Gap.text]
  exact congrArg g.flatMap (funext hfiller)

/-- What is known of the token of a piece without its place. -/
def content? (p : Piece) : Option (TokenKind × String) :=
  match p.kind with
  | .token kind => some (kind, String.ofList p.text)
  | _ => none

/-- Gaps have no tokens and no faults. -/
theorem kind_gap (g : Gap) : ∀ p ∈ g.pieces, p.kind = .blank ∨ p.kind = .comment := by
  intro p hp
  obtain ⟨f, -, hp⟩ := List.mem_flatMap.1 hp
  cases f <;> simp only [Filler.pieces, List.mem_cons, List.not_mem_nil, or_false] at hp
  · exact .inl (by rw [hp])
  · exact .inr (by rw [hp])
  · rcases hp with rfl | rfl
    · exact .inr rfl
    · exact .inl rfl

theorem ne_fault_gap {g : Gap} {p : Piece} (hp : p ∈ g.pieces) (e : ScanError) :
    p.kind ≠ .fault e := by
  rcases kind_gap g p hp with h | h <;> simp [h]

theorem content_gap (g : Gap) : g.pieces.filterMap content? = [] :=
  List.filterMap_eq_nil_iff.2 fun p hp => by
    rcases kind_gap g p hp with h | h <;> simp only [content?, h]

theorem reads_of_mem (h : Readable ps) {p : Piece} (hp : p ∈ ps) : ∃ more, p.Reads more := by
  induction h with
  | nil => cases hp
  | cons h _ ih =>
    rcases List.mem_cons.1 hp with rfl | hp
    · exact ⟨_, h⟩
    · exact ih hp

end Piece

/-! ## Tokens that are laid out -/

namespace Token

/-- The piece of a token. -/
def piece (t : Token) : Piece := ⟨.token t.kind, t.lexeme.toList⟩

/-- The tokens of a text can be read. -/
theorem reads_piece {source : String} {t : Token} (ht : t ∈ (scan source).tokens) :
    ∃ more, t.piece.Reads more := by
  obtain ⟨q, hq, hqt⟩ := List.mem_filterMap.1 ht
  have hreads := Piece.reads_of_mem (Piece.readable_ofText _) (PlacedPiece.piece_of_mem hq)
  unfold PlacedPiece.token? at hqt
  split at hqt
  · next kind hkind =>
    cases hqt
    have hpiece : (⟨.token kind, (String.ofList q.piece.text).toList⟩ : Piece) = q.piece := by
      rw [String.toList_ofList, ← hkind]
    rwa [piece, hpiece]
  · cases hqt

end Token

namespace PlacedPiece

/-- The tokens of pieces do not depend on the place but for theirs. -/
theorem map_tokens (p : Position) (ps : List Piece) :
    ((place p ps).filterMap token?).map (fun t => (t.kind, t.lexeme)) =
      ps.filterMap Piece.content? := by
  induction ps generalizing p with
  | nil => rfl
  | cons q ps ih =>
    simp only [place, List.filterMap_cons]
    cases hq : q.kind <;> simp [token?, Piece.content?, hq, ih]

end PlacedPiece

namespace Layout

/-- The pieces of tokens, each with the gap after it. -/
def piecesFrom (tokens : List Token) (gaps : List Gap) : List Piece :=
  (List.zipWith (fun t g => t.piece :: g.pieces) tokens gaps).flatten

theorem text_piecesFrom (tokens : List Token) (gaps : List Gap) :
    (piecesFrom tokens gaps).flatMap Piece.text = textFrom tokens gaps := by
  induction tokens generalizing gaps with
  | nil => rfl
  | cons t tokens ih =>
    cases gaps with
    | nil => rfl
    | cons g gaps =>
      simp only [piecesFrom, textFrom, List.zipWith_cons_cons, List.flatten_cons,
        List.flatMap_append, List.flatMap_cons, Piece.text_gap] at ih ⊢
      rw [ih]
      rfl

variable {tokens : List Token}

/-- What stands after a token starts with a blank, or it is the end of the text. -/
theorem head_text {g : Gap} {gaps : List Gap} (happart : ∀ g' ∈ (g :: gaps).dropLast, g' ≠ [])
    (hblank : g.text.head?.all Piece.isSeparator) {rest : List Char}
    (hrest : gaps = [] → rest = []) :
    (g.text ++ rest).head?.all Piece.isSeparator := by
  cases htext : g.text with
  | cons c s =>
    rw [htext] at hblank
    exact hblank
  | nil =>
    -- only the last gap may be empty
    have hg : g = [] := by
      cases g with
      | nil => rfl
      | cons f g => cases f <;> simp [Gap.text, Filler.text] at htext
    have hgaps : gaps = [] := by
      cases gaps with
      | nil => rfl
      | cons g' gaps => exact absurd hg (happart g (by simp))
    rw [hrest hgaps]
    rfl

theorem readable_piecesFrom (hread : ∀ t ∈ tokens, ∃ more, t.piece.Reads more) {gaps : List Gap}
    (happart : ∀ g ∈ gaps.dropLast, g ≠ [])
    (hblank : ∀ g ∈ gaps, g.text.head?.all Piece.isSeparator) :
    Piece.Readable (piecesFrom tokens gaps) := by
  induction tokens generalizing gaps with
  | nil => exact .nil
  | cons t tokens ih =>
    cases gaps with
    | nil => exact .nil
    | cons g gaps =>
      obtain ⟨⟨more, hreads : t.piece.Reads more⟩, hread⟩ := List.forall_mem_cons.1 hread
      have hrest : Piece.Readable (piecesFrom tokens gaps) := by
        refine ih hread (fun g' hg' => happart g' ?_) fun g' hg' => hblank g' (.tail _ hg')
        cases gaps with
        | nil => cases hg'
        | cons => exact .tail _ hg'
      have htext : (g.pieces ++ piecesFrom tokens gaps).flatMap Piece.text =
          g.text ++ textFrom tokens gaps := by
        rw [List.flatMap_append, Piece.text_gap, text_piecesFrom]
      show Piece.Readable (t.piece :: (g.pieces ++ piecesFrom tokens gaps))
      -- a token stays what it is before a blank
      refine .cons (Piece.Reads.of_blank hreads rfl ?_) (Piece.readable_gap g hrest)
      rw [htext]
      refine head_text happart (hblank g (.head _)) ?_
      rintro rfl
      cases tokens <;> rfl

theorem content_piecesFrom {gaps : List Gap} (hlength : gaps.length = tokens.length) :
    (piecesFrom tokens gaps).filterMap Piece.content? = tokens.map fun t => (t.kind, t.lexeme) := by
  induction tokens generalizing gaps with
  | nil => rfl
  | cons t tokens ih =>
    cases gaps with
    | nil => cases hlength
    | cons g gaps =>
      have hcontent : Piece.content? t.piece = some (t.kind, t.lexeme) := by
        simp only [Piece.content?, Token.piece, String.ofList_toList]
      rw [List.map_cons, ← ih (Nat.succ.inj hlength)]
      simp [piecesFrom, hcontent, Piece.content_gap]

theorem kind_piecesFrom (tokens : List Token) (gaps : List Gap) :
    ∀ p ∈ piecesFrom tokens gaps, ∀ e, p.kind ≠ .fault e := by
  induction tokens generalizing gaps with
  | nil => exact fun p hp => by cases hp
  | cons t tokens ih =>
    cases gaps with
    | nil => exact fun p hp => by cases hp
    | cons g gaps =>
      simp only [piecesFrom, List.zipWith_cons_cons, List.flatten_cons, List.cons_append,
        List.forall_mem_cons, List.forall_mem_append]
      exact ⟨fun e => by simp [Token.piece], fun p hp => Piece.ne_fault_gap hp, ih gaps⟩

/-- The tokens of a text, laid out in another way, are scanned without a report to the same tokens
in other places. -/
theorem scan_text {source : String} (l : Layout (scan source).tokens) :
    (scan l.text).reports = [] ∧
      List.Forall₂ Token.Alike (scan source).tokens (scan l.text).tokens := by
  have hreadable : Piece.Readable (l.first.pieces ++ piecesFrom (scan source).tokens l.gaps) :=
    Piece.readable_gap _ (readable_piecesFrom (fun _ => Token.reads_piece) l.apart l.blank)
  have hpieces : Piece.ofText l.text.toList =
      l.first.pieces ++ piecesFrom (scan source).tokens l.gaps := by
    rw [← Piece.ofText_of_readable hreadable, List.flatMap_append, Piece.text_gap, text_piecesFrom,
      text, String.toList_ofList]
  constructor
  · refine (PlacedPiece.reports_place {} _).2 fun q hq e => ?_
    rw [hpieces] at hq
    exact (List.mem_append.1 hq).elim (fun hq => Piece.ne_fault_gap hq e)
      fun hq => kind_piecesFrom _ _ q hq e
  · have hcontent : (scan l.text).tokens.map (fun t => (t.kind, t.lexeme)) =
        (scan source).tokens.map fun t => (t.kind, t.lexeme) := by
      show ((PlacedPiece.place {} (Piece.ofText _)).filterMap _).map _ = _
      rw [PlacedPiece.map_tokens, hpieces, List.filterMap_append, Piece.content_gap,
        content_piecesFrom l.length_gaps, List.nil_append]
    have hsame : List.Forall₂ Eq ((scan source).tokens.map fun t => (t.kind, t.lexeme))
        ((scan l.text).tokens.map fun t => (t.kind, t.lexeme)) := by
      rw [List.forall₂_eq_eq_eq]
      exact hcontent.symm
    refine (List.forall₂_map_right_iff.1 (List.forall₂_map_left_iff.1 hsame)).imp fun t t' h => ?_
    exact ⟨(congrArg Prod.fst h).symm, (congrArg Prod.snd h).symm⟩

end Layout

end Lox
