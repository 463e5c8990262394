import Lox.Proofs.Scan.Pieces

/-!
# A text after another

A text that follows another on a line of its own is scanned as it is on its own, its tokens being
as many lines further down as the other has.

## Main definitions

* `lines`: the number of lines of a text
* `Token.down`: a token further down
* `below`: a text after empty lines
* `Token.onto`: a token that is moved with the text below some lines
* `Token.Moved`: how tokens correspond if one of several texts is moved

## Main results

* `scan_joined`: a text after another
* `scan_below`: a text after empty lines
-/

namespace Lox

/-- The number of lines of a text, of which the last may be empty. -/
def lines (source : String) : Nat := source.toList.count '\n' + 1

/-- A token some lines further down. -/
def Token.down (n : Nat) (t : Token) : Token := { t with line := t.line + n }

namespace Position

/-- A position some lines further down. -/
def down (n : Nat) (p : Position) : Position := ⟨p.line + n, p.column⟩

theorem after_down (n : Nat) (p : Position) (s : List Char) :
    (p.down n).after s = (p.after s).down n := by
  induction s generalizing p with
  | nil => rfl
  | cons c s ih =>
    have hstep : (p.down n).step c = (p.step c).down n := by
      unfold step
      split
      · simp only [down, Nat.add_right_comm]
      · rfl
    exact (congrArg (·.after s) hstep).trans (ih (p.step c))

theorem line_after (p : Position) (s : List Char) : (p.after s).line = p.line + s.count '\n' := by
  induction s generalizing p with
  | nil => rfl
  | cons c s ih =>
    have hstep : (p.step c).line = p.line + if c = '\n' then 1 else 0 := by
      unfold step
      split <;> rfl
    refine (ih (p.step c)).trans ?_
    rw [hstep, List.count_cons, Nat.add_assoc, Nat.add_comm (s.count '\n')]
    simp

/-- The text after another starts a line. -/
theorem after_line (source : String) :
    Position.after {} (source.toList ++ ['\n']) = Position.down (lines source) {} := by
  have hline := line_after {} source.toList
  rw [after_append]
  show (Position.after {} source.toList).step '\n' = _
  simp only [step, if_true, down, hline, lines]
  rw [Nat.add_assoc]

end Position

namespace PlacedPiece

theorem place_append (p : Position) (ps qs : List Piece) :
    place p (ps ++ qs) = place p ps ++ place (p.after (ps.flatMap Piece.text)) qs := by
  induction ps generalizing p with
  | nil => rfl
  | cons q ps ih =>
    simp only [List.cons_append, place, ih, List.flatMap_cons, Position.after_append]

theorem piece_of_mem {p : Position} {ps : List Piece} {q : PlacedPiece} (hq : q ∈ place p ps) :
    q.piece ∈ ps := by
  induction ps generalizing p with
  | nil => cases hq
  | cons piece ps ih =>
    rcases List.mem_cons.1 hq with rfl | hq
    · exact .head _
    · exact .tail _ (ih hq)

/-- Pieces that are further down have tokens that are. -/
theorem tokens_down (n : Nat) (p : Position) (ps : List Piece) :
    (place (p.down n) ps).filterMap token? =
      ((place p ps).filterMap token?).map (Token.down n) := by
  induction ps generalizing p with
  | nil => rfl
  | cons q ps ih =>
    simp only [place, Position.after_down]
    rw [List.filterMap_cons, List.filterMap_cons, ih]
    cases hq : q.kind <;> simp [token?, hq, Token.down, Position.down]

/-- Pieces without faults have no reports, and conversely. -/
theorem reports_place (p : Position) (ps : List Piece) :
    (place p ps).filterMap report? = [] ↔ ∀ q ∈ ps, ∀ e, q.kind ≠ .fault e := by
  induction ps generalizing p with
  | nil => simp [place]
  | cons q ps ih =>
    simp only [place, List.filterMap_cons]
    cases hq : q.kind <;> simp [report?, hq, ih]

end PlacedPiece

/-- A text after another that is scanned without a report. -/
theorem scan_joined {a b : String} (ha : (scan a).reports = []) (hb : (scan b).reports = []) :
    (scan (a ++ "\n" ++ b)).reports = [] ∧ (scan (a ++ "\n" ++ b)).tokens =
      (scan a).tokens ++ (scan b).tokens.map (Token.down (lines a)) := by
  -- nothing is open at the end of the first text, so the line feed is a blank
  have hfaults := (PlacedPiece.reports_place {} _).1 ha
  have hpieces : Piece.ofText (a ++ "\n" ++ b).toList =
      (Piece.ofText a.toList ++ ([⟨.blank, ['\n']⟩] : List Piece)) ++ Piece.ofText b.toList := by
    have htext : (a ++ "\n" ++ b).toList = a.toList ++ '\n' :: b.toList := by simp
    rw [htext, Piece.ofText_append_line hfaults, List.append_assoc, List.singleton_append]
  have hbefore : (Piece.ofText a.toList ++ ([⟨.blank, ['\n']⟩] : List Piece)).flatMap Piece.text =
      a.toList ++ ['\n'] := by
    rw [List.flatMap_append, Piece.text_ofText]
    rfl
  constructor
  · refine (PlacedPiece.reports_place {} _).2 fun q hq e => ?_
    rw [hpieces] at hq
    rcases List.mem_append.1 hq with hq | hq
    · rcases List.mem_append.1 hq with hq | hq
      · exact hfaults q hq e
      · obtain rfl := List.mem_singleton.1 hq
        simp
    · exact (PlacedPiece.reports_place {} _).1 hb q hq e
  · show (PlacedPiece.place {} (Piece.ofText (a ++ "\n" ++ b).toList)).filterMap _ = _
    rw [hpieces, PlacedPiece.place_append, hbefore, Position.after_line, List.filterMap_append,
      PlacedPiece.tokens_down, PlacedPiece.place_append, List.filterMap_append]
    show (scan a).tokens ++ [] ++ _ = _
    rw [List.append_nil]
    rfl

/-- A text after some empty lines. -/
def below (n : Nat) (source : String) : String :=
  String.ofList (List.replicate n '\n' ++ source.toList)

theorem below_zero (source : String) : below 0 source = source := String.ofList_toList

theorem below_succ (n : Nat) (source : String) :
    below (n + 1) source = "" ++ "\n" ++ below n source := by
  refine String.toList_injective ?_
  simp [below, List.replicate_succ]

/-- A text after empty lines that is scanned without a report. -/
theorem scan_below {source : String} (h : (scan source).reports = []) (n : Nat) :
    (scan (below n source)).reports = [] ∧
      (scan (below n source)).tokens = (scan source).tokens.map (Token.down n) := by
  induction n with
  | zero => exact ⟨by rwa [below_zero], by rw [below_zero]; exact (List.map_id _).symm⟩
  | succ n ih =>
    have hempty : (scan "").reports = [] ∧ (scan "").tokens = [] := by decide +kernel
    obtain ⟨hreports, htokens⟩ := scan_joined hempty.1 ih.1
    rw [below_succ]
    refine ⟨hreports, ?_⟩
    rw [htokens, hempty.2, ih.2, List.nil_append, List.map_map]
    rfl

namespace Token

theorem down_ne {n : Nat} (hn : 0 < n) (t : Token) : t.down n ≠ t := fun h => by
  have hline : t.line + n = t.line := congrArg Token.line h
  omega

/-- A token that is moved from below some empty lines to below others, unless it is above. -/
def onto (n k : Nat) (t : Token) : Token :=
  if t.line < n then t else { t with line := t.line - n + k }

theorem onto_of_lt {n : Nat} {t : Token} (h : t.line < n) (k : Nat) : t.onto n k = t := by
  rw [onto, if_pos h]

theorem onto_of_le {n : Nat} {t : Token} (h : n ≤ t.line) (k : Nat) :
    t.onto n k = (t.onto n 0).down k := by
  rw [onto, onto, if_neg (Nat.not_lt.2 h), if_neg (Nat.not_lt.2 h)]
  rfl

theorem onto_down (n k : Nat) (t : Token) : (t.down n).onto n k = t.down k := by
  have hle : n ≤ (t.down n).line := Nat.le_add_left _ _
  have hline : t.line + n - n + k = t.line + k := by rw [Nat.add_sub_cancel]
  rw [onto, if_neg (Nat.not_lt.2 hle)]
  simp only [down, hline]

theorem lexeme_onto (n k : Nat) (t : Token) : (t.onto n k).lexeme = t.lexeme := by
  unfold onto
  split <;> rfl

theorem kind_onto (n k : Nat) (t : Token) : (t.onto n k).kind = t.kind := by
  unfold onto
  split <;> rfl

/-- How the tokens of texts correspond if one more text is some lines further down. -/
def Moved (texts : List String) (source : String) (n : Nat) (t t' : Token) : Prop :=
  (t ∈ (scan source).tokens ∧ t' = t.down n) ∨ ((∃ x ∈ texts, t ∈ (scan x).tokens) ∧ t' = t)

theorem Moved.lexeme {texts : List String} {source : String} {n : Nat} {t t' : Token}
    (h : Moved texts source n t t') : t'.lexeme = t.lexeme := by
  rcases h with ⟨-, rfl⟩ | ⟨-, rfl⟩ <;> rfl

theorem Moved.kind {texts : List String} {source : String} {n : Nat} {t t' : Token}
    (h : Moved texts source n t t') : t'.kind = t.kind := by
  rcases h with ⟨-, rfl⟩ | ⟨-, rfl⟩ <;> rfl

/-- A token that moves is one of the text, and one that stays is one of the others. -/
theorem Moved.mem {texts : List String} {source : String} {n : Nat} (hn : 0 < n) {t : Token}
    (moves : Bool) (h : Moved texts source n t (t.down (if moves then n else 0))) :
    if moves then t ∈ (scan source).tokens else ∃ x ∈ texts, t ∈ (scan x).tokens := by
  cases moves with
  | true =>
    rcases h with ⟨ht, -⟩ | ⟨-, hsame⟩
    · exact ht
    · exact absurd hsame (down_ne hn t)
  | false =>
    rcases h with ⟨-, hsame⟩ | ⟨ht, -⟩
    · exact absurd hsame.symm (down_ne hn t)
    · exact ht

end Token

end Lox
