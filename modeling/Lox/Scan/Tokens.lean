import Lox.Scan.Piece

/-!
# Tokens of a source text

Every piece of a source text has a place: the line and column at which it starts and the line
on which it ends. The tokens of the text are its token pieces with their places, the reports
its faulty pieces, and the end of the input stands where the text ends.

## Main definitions

* `Position`: a line and a column, with `Position.after`
* `Scan`: the tokens of a text, its end, and the reports
* `scan`: scanning a text

## Main results

* `Position.after_append`: positions follow the text
-/

namespace Lox

/-- A line and a column, both counted from one. -/
structure Position where
  /-- The line. -/
  line : Nat := 1
  /-- The column. -/
  column : Nat := 1
  deriving DecidableEq, Repr

namespace Position

/-- The position after one character: a line feed starts a line. -/
def step (p : Position) (c : Char) : Position :=
  if c = '\n' then ⟨p.line + 1, 1⟩ else ⟨p.line, p.column + 1⟩

/-- The position after a text. -/
def after (p : Position) (s : List Char) : Position := s.foldl step p

@[simp] theorem after_nil (p : Position) : p.after [] = p := rfl

/-- Positions follow the text. -/
theorem after_append (p : Position) (s t : List Char) : p.after (s ++ t) = (p.after s).after t :=
  List.foldl_append

end Position

/-- A piece with the positions at which it starts and ends. -/
structure PlacedPiece where
  /-- The piece. -/
  piece : Piece
  /-- Where it starts. -/
  start : Position
  /-- Where it ends. -/
  stop : Position

namespace PlacedPiece

/-- Pieces in their places, the first at a given position. -/
def place (p : Position) : List Piece → List PlacedPiece
  | [] => []
  | piece :: rest => ⟨piece, p, p.after piece.text⟩ :: place (p.after piece.text) rest

/-- The token of a piece. -/
def token? (p : PlacedPiece) : Option Token :=
  match p.piece.kind with
  | .token kind => some ⟨kind, String.ofList p.piece.text, p.stop.line, p.start.column⟩
  | _ => none

/-- The report of a piece. -/
def report? (p : PlacedPiece) : Option Report :=
  match p.piece.kind with
  | .fault e => some ⟨p.stop.line, .unplaced, .scan e⟩
  | _ => none

end PlacedPiece

/-- What scanning a text yields. -/
structure Scan where
  /-- The tokens before the end. -/
  tokens : List Token
  /-- The token that marks the end of the input. -/
  finish : Token
  /-- What was reported. -/
  reports : List Report

namespace Scan

/-- The tokens with the one that marks the end. -/
def all (s : Scan) : List Token := s.tokens ++ [s.finish]

end Scan

/-- Scanning the characters of a source text. -/
def scanChars (s : List Char) : Scan :=
  let placed := PlacedPiece.place {} (Piece.ofText s)
  let stop := Position.after {} s
  { tokens := placed.filterMap PlacedPiece.token?
    finish := ⟨.endOfInput, "", stop.line, stop.column⟩
    reports := placed.filterMap PlacedPiece.report? }

/-- Scanning a source text. -/
def scan (source : String) : Scan := scanChars source.toList

end Lox
