import Lox.Proofs.Scan.Places
import Mathlib.Data.List.Forall2

/-!
# Other names in a text

If some identifiers of a text are replaced by another one, the text is cut into pieces at the
same places: identifiers look the same to what stands before them and end before the same
characters. The tokens are those of the text, with the other name where it was put and in other
columns.

## Main definitions

* `isIdentifier`: texts that are read as identifiers
* `renamed`: a text with another name for some of its tokens
* `Token.Respelled`: how its tokens correspond

## Main results

* `Piece.isWord_of_identifier`: what is known of an identifier in a text
* `scan_renamed`: the tokens of a text with another name for some of them
-/

namespace Lox

/-- The texts of keywords and identifiers. -/
def isWord : List Char → Bool
  | [] => false
  | c :: rest => Piece.startsName c && rest.all Piece.inName

/-- The texts of identifiers: names that are no keywords. -/
def isIdentifier (name : String) : Bool := isWord name.toList && (Keyword.ofText? name).isNone

theorem ne_text_of_isIdentifier {name : String} (h : isIdentifier name) (k : Keyword) :
    name ≠ k.text := by
  rintro rfl
  simp [isIdentifier, Keyword.ofText?_text] at h

theorem exists_cons_of_isWord {s : List Char} (h : isWord s) :
    ∃ c rest, s = c :: rest ∧ Piece.startsName c ∧ ∀ d ∈ rest, Piece.inName d := by
  cases s with
  | nil => cases h
  | cons c rest =>
    obtain ⟨hc, hrest⟩ := (Bool.and_eq_true ..).mp h
    exact ⟨c, rest, rfl, hc, List.all_eq_true.1 hrest⟩

namespace Piece

/-! ## Identifiers -/

theorem inName_of_startsName {c : Char} (hc : startsName c) : inName c := by simp [inName, hc]

theorem inName_of_mem {s : List Char} (h : isWord s) : ∀ d ∈ s, inName d := by
  obtain ⟨c, rest, rfl, hc, hrest⟩ := exists_cons_of_isWord h
  exact List.forall_mem_cons.2 ⟨inName_of_startsName hc, hrest⟩

/-- A word has no line feed. -/
theorem count_of_isWord {s : List Char} (h : isWord s) : s.count '\n' = 0 := by
  rw [List.count_eq_zero]
  intro hmem
  have hname := inName_of_mem h _ hmem
  exact absurd hname (by decide)

variable {c : Char} {rest more more' : List Char} {p : Piece}

/-- Only the words of a text are identifiers, and nothing that goes on with one follows them. -/
theorem isWord_of_identifier (h : next c rest = (p, more)) (hp : p.kind = .token .identifier) :
    isWord p.text ∧ more.head?.any inName = false := by
  have hkind : (next c rest).1.kind = .token .identifier := by rw [h, hp]
  have hreader := reader_next c
  generalize next c = read at hreader h hkind
  cases hreader with
  | blank => cases hkind
  | slash => exact absurd hkind (noWord_slash rest).kind_ne
  | string => exact absurd hkind (noWord_string rest).kind_ne
  | number => exact absurd hkind (noWord_number (c :: rest)).kind_ne
  | symbol => exact absurd hkind (noWord_symbol c rest).kind_ne
  | word hname =>
    cases h
    refine ⟨?_, List.any_head?_dropWhile inName (c :: rest)⟩
    have htake : (c :: rest).takeWhile inName = c :: rest.takeWhile inName := by
      simp [inName_of_startsName hname]
    show isWord ((c :: rest).takeWhile inName) = true
    rw [htake, isWord, hname, Bool.true_and, List.all_eq_true]
    exact fun d hd => List.mem_takeWhile_imp hd

theorem isWord_of_reads (h : p.Reads more) (hp : p.kind = .token .identifier) :
    isWord p.text ∧ more.head?.any inName = false := by
  obtain ⟨c, u, -, hnext⟩ := h
  exact isWord_of_identifier hnext hp

/-- A word before what does not go on with it is the first piece of the text. -/
theorem reads_word {s : List Char} (hs : isWord s) (hmore : more.head?.any inName = false) :
    (⟨.token (wordKind s), s⟩ : Piece).Reads more := by
  obtain ⟨c, u, rfl, hc, hu⟩ := exists_cons_of_isWord hs
  refine ⟨c, u, rfl, ?_⟩
  have hblank : isSeparator c = false := by
    have hne := fun d hd => eq_false_of_startsName (d := d) hc hd
    simp only [isSeparator, hne ' ' rfl, hne '\r' rfl, hne '\t' rfl, hne '\n' rfl, Bool.or_false]
  have hslash : c ≠ '/' := of_decide_eq_false (eq_false_of_startsName hc rfl)
  have hquote : c ≠ '"' := of_decide_eq_false (eq_false_of_startsName hc rfl)
  simp only [next, hblank, hslash, hquote, not_isDigit_of_startsName hc, hc, if_true, if_false,
    Bool.false_eq_true]
  have hall : (c :: u).takeWhile inName = c :: u :=
    List.takeWhile_eq_self_iff.2 (inName_of_mem hs)
  obtain ⟨htake, hdrop⟩ := List.takeWhile_append_stop (c :: u) hmore
  rw [hall] at htake hdrop
  rw [← List.cons_append, word, htake, hdrop]

/-! ## Glances at words -/

theorem glance_of_isWord {s : List Char} (hs : isWord s) (more : List Char) :
    glance (s ++ more) = ('a', none) := by
  obtain ⟨c, u, rfl, hc, -⟩ := exists_cons_of_isWord hs
  simp [glance, first, hc]

/-- What is seen of a text that starts with a piece depends on what is seen behind it. -/
theorem glance_append {s : List Char} (hs : s ≠ []) (h : glance more' = glance more) :
    glance (s ++ more') = glance (s ++ more) := by
  cases s with
  | nil => exact absurd rfl hs
  | cons c s =>
    have hbehind : first (s ++ more') = first (s ++ more) := by
      cases s with
      | nil => exact congrArg Prod.fst h
      | cons d s => rfl
    show (first (c :: s), _) = (first (c :: s), _)
    rw [List.cons_append, List.cons_append, List.tail_cons, List.tail_cons, hbehind]
    rfl

end Piece

/-! ## Renamed texts -/

namespace PlacedPiece

/-- A piece with another name if its token is one of some. -/
def renamed (names : List Token) (z : String) (q : PlacedPiece) : Piece :=
  if q.token?.any (· ∈ names) then { q.piece with text := z.toList } else q.piece

end PlacedPiece

/-- A text with another name for some of its tokens. -/
def renamed (names : List Token) (z source : String) : String :=
  String.ofList (((PlacedPiece.place {} (Piece.ofText source.toList)).map
    (·.renamed names z)).flatMap Piece.text)

/-- Tokens of the same kind on the same line, with another name for some of them. -/
structure Token.Respelled (names : List Token) (z : String) (t t' : Token) : Prop where
  kind : t'.kind = t.kind
  line : t'.line = t.line
  lexeme : t'.lexeme = if t ∈ names then z else t.lexeme

namespace PlacedPiece

variable {names : List Token} {z : String} {ps : List Piece} {p p' : Position}

theorem token?_of_kind {q : PlacedPiece} {kind : TokenKind} (h : q.piece.kind = .token kind) :
    q.token? = some ⟨kind, String.ofList q.piece.text, q.stop.line, q.start.column⟩ := by
  simp only [token?, h]

theorem token?_eq_none {q : PlacedPiece} (h : ¬ ∃ kind, q.piece.kind = .token kind) :
    q.token? = none := by
  unfold token?
  split
  · next kind hkind => exact absurd ⟨kind, hkind⟩ h
  · rfl

theorem kind_renamed (q : PlacedPiece) : (q.renamed names z).kind = q.piece.kind := by
  unfold renamed
  split <;> rfl

/-- A piece that gets another name is an identifier. -/
theorem kind_of_any (hnames : ∀ t ∈ names, t.kind = .identifier) {q : PlacedPiece}
    (h : q.token?.any (· ∈ names)) : q.piece.kind = .token .identifier := by
  obtain ⟨t, ht, hmem⟩ := (Option.any_eq_true ..).1 h
  have hkind := hnames t (of_decide_eq_true hmem)
  unfold token? at ht
  split at ht
  · next kind hq =>
    cases ht
    rw [hq, show kind = .identifier from hkind]
  · cases ht

/-- The pieces with other names are those of the text that they make up, and it looks the same
from before. -/
theorem readable_renamed (hz : isIdentifier z) (hnames : ∀ t ∈ names, t.kind = .identifier)
    (h : Piece.Readable ps) (hfaults : ∀ q ∈ ps, ∀ e, q.kind ≠ .fault e) (p : Position) :
    Piece.Readable ((place p ps).map (·.renamed names z)) ∧
      Piece.glance (((place p ps).map (·.renamed names z)).flatMap Piece.text) =
        Piece.glance (ps.flatMap Piece.text) := by
  obtain ⟨hword, hkeyword⟩ := (Bool.and_eq_true ..).mp hz
  induction h generalizing p with
  | nil => exact ⟨.nil, rfl⟩
  | @cons q ps hreads _ ih =>
    obtain ⟨hfault, hfaults⟩ := List.forall_mem_cons.1 hfaults
    obtain ⟨hreadable, hglance⟩ := ih hfaults (p.after q.text)
    simp only [place, List.map_cons, List.flatMap_cons]
    by_cases hany : (PlacedPiece.mk q p (p.after q.text)).token?.any (· ∈ names)
    · -- the other name is read as an identifier, as the piece was
      have hkind : q.kind = .token .identifier := kind_of_any hnames hany
      obtain ⟨htext, hstop⟩ := Piece.isWord_of_reads hreads hkind
      have hstop' := (Piece.inName_of_glance hglance).trans hstop
      have hread := Piece.reads_word hword hstop'
      have hz' : Piece.wordKind z.toList = .identifier := by
        rw [Piece.wordKind, String.ofList_toList, Option.isNone_iff_eq_none.1 hkeyword]
      rw [hz', ← hkind] at hread
      rw [renamed, if_pos hany]
      refine ⟨.cons hread hreadable, ?_⟩
      rw [Piece.glance_of_isWord hword, Piece.glance_of_isWord htext]
    · rw [renamed, if_neg hany]
      refine ⟨.cons (hreads.of_glance hfault hglance) hreadable, ?_⟩
      obtain ⟨c, u, htext, -⟩ := hreads
      exact Piece.glance_append (by simp [htext]) hglance

theorem text_renamed {q : PlacedPiece} {t : Token} (ht : q.token? = some t) :
    (q.renamed names z).text = if t ∈ names then z.toList else q.piece.text := by
  simp only [renamed, ht, Option.any_some, decide_eq_true_eq]
  split <;> rfl

/-- A piece with another name has as many lines, since words have no line feeds. -/
theorem count_renamed {q : PlacedPiece} {more : List Char} (hz : isWord z.toList)
    (hnames : ∀ t ∈ names, t.kind = .identifier) (h : q.piece.Reads more) :
    (q.renamed names z).text.count '\n' = q.piece.text.count '\n' := by
  unfold renamed
  split
  · next hany =>
    obtain ⟨htext, -⟩ := Piece.isWord_of_reads h (kind_of_any hnames hany)
    rw [Piece.count_of_isWord htext]
    exact Piece.count_of_isWord hz
  · rfl

/-- The token of a piece with another name, if the piece ends on the same line. -/
theorem respelled_token? {r r' : PlacedPiece} (hpiece : r'.piece = r.renamed names z)
    (hstop : r'.stop.line = r.stop.line) :
    Option.Rel (Token.Respelled names z) r.token? r'.token? := by
  have hkind : r'.piece.kind = r.piece.kind := by rw [hpiece, kind_renamed]
  by_cases hr : ∃ kind, r.piece.kind = .token kind
  · obtain ⟨kind, hr⟩ := hr
    have ht := token?_of_kind hr
    rw [ht, token?_of_kind (hkind.trans hr)]
    refine .some ⟨rfl, hstop, ?_⟩
    show String.ofList r'.piece.text = _
    rw [hpiece, text_renamed ht, apply_ite String.ofList, String.ofList_toList]
  · rw [token?_eq_none hr, token?_eq_none (hkind ▸ hr)]
    exact .none

/-- Their tokens are those of the text, as long as the pieces stand on the same lines. -/
theorem respelled_place (hz : isIdentifier z) (hnames : ∀ t ∈ names, t.kind = .identifier)
    (h : Piece.Readable ps) (hline : p'.line = p.line) :
    List.Forall₂ (Token.Respelled names z) ((place p ps).filterMap token?)
      ((place p' ((place p ps).map (·.renamed names z))).filterMap token?) := by
  have hword : isWord z.toList := ((Bool.and_eq_true ..).mp hz).1
  induction h generalizing p p' with
  | nil => exact .nil
  | @cons q ps hreads _ ih =>
    let r : PlacedPiece := ⟨q, p, p.after q.text⟩
    let r' : PlacedPiece := ⟨r.renamed names z, p', p'.after (r.renamed names z).text⟩
    have hcount : (r.renamed names z).text.count '\n' = q.text.count '\n' :=
      count_renamed hword hnames hreads
    have hstop : r'.stop.line = r.stop.line := by
      show (p'.after _).line = (p.after _).line
      rw [Position.line_after, Position.line_after, hline, hcount]
    have htoken : Option.Rel (Token.Respelled names z) r.token? r'.token? :=
      respelled_token? rfl hstop
    have hrest := ih hstop
    show List.Forall₂ _ ((r :: place r.stop ps).filterMap token?)
      ((r' :: place r'.stop ((place r.stop ps).map (·.renamed names z))).filterMap token?)
    rw [List.filterMap_cons, List.filterMap_cons]
    generalize r.token? = o, r'.token? = o' at htoken
    cases htoken with
    | none => exact hrest
    | some h => exact .cons h hrest

end PlacedPiece

/-- A text that is scanned without a report, with another name for some of its identifiers. -/
theorem scan_renamed {names : List Token} {z source : String} (h : (scan source).reports = [])
    (hz : isIdentifier z) (hnames : ∀ t ∈ names, t.kind = .identifier) :
    (scan (renamed names z source)).reports = [] ∧
      List.Forall₂ (Token.Respelled names z) (scan source).tokens
        (scan (renamed names z source)).tokens := by
  have hfaults := (PlacedPiece.reports_place {} _).1 h
  have hreadable := Piece.readable_ofText source.toList
  obtain ⟨hrenamed, -⟩ := PlacedPiece.readable_renamed hz hnames hreadable hfaults {}
  have hpieces : Piece.ofText (renamed names z source).toList =
      (PlacedPiece.place {} (Piece.ofText source.toList)).map (·.renamed names z) := by
    rw [renamed, String.toList_ofList, Piece.ofText_of_readable hrenamed]
  constructor
  · refine (PlacedPiece.reports_place {} _).2 fun q hq e => ?_
    rw [hpieces] at hq
    obtain ⟨r, hr, rfl⟩ := List.mem_map.1 hq
    rw [PlacedPiece.kind_renamed]
    exact hfaults _ (PlacedPiece.piece_of_mem hr) e
  · show List.Forall₂ _ _ ((PlacedPiece.place {} (Piece.ofText _)).filterMap _)
    rw [hpieces]
    exact PlacedPiece.respelled_place hz hnames hreadable rfl

end Lox
