import Lox.Report

/-!
# Pieces of a source text

A source text falls into pieces: blanks, comments, tokens, and parts that are reported. The
piece at the start of a text is the longest that the lexical grammar allows there, and what is
left is cut in the same way; nothing is lost and nothing is read twice.

## Main definitions

* `PieceKind`, `Piece`
* `Piece.next c rest`: the piece at the start of `c :: rest` and what is left
* `Piece.ofText`: the pieces of a text
* `unescape`: the value of what stands between the quotes of a string

## Main results

* `reader_next`: the ways to read the first piece
* `next_text`: the text of the first piece followed by what is left is the text
* `text_ofText`: the texts of the pieces make up the text
-/

namespace Lox

/-- What a piece of a source text is. -/
inductive PieceKind where
  /-- A space, a tab, a carriage return or a line feed. -/
  | blank
  /-- A complete comment. -/
  | comment
  /-- A token. -/
  | token (kind : TokenKind)
  /-- A part that is reported. -/
  | fault (e : ScanError)
  deriving DecidableEq, Repr

/-- A piece of a source text. -/
structure Piece where
  /-- What the piece is. -/
  kind : PieceKind
  /-- Its characters. -/
  text : List Char
  deriving DecidableEq, Repr

/-- The value of what stands between the quotes of a string: a backslash before `t`, `r` or
`n` makes a tab, a carriage return or a line feed, and every other backslash stands for
itself. -/
def unescape : List Char → List Char
  | '\\' :: 't' :: rest => '\t' :: unescape rest
  | '\\' :: 'r' :: rest => '\r' :: unescape rest
  | '\\' :: 'n' :: rest => '\n' :: unescape rest
  | c :: rest => c :: unescape rest
  | [] => []

/-- The number that decimal digits write. -/
def natOfDigits (ds : List Char) : Nat :=
  ds.foldl (fun n d => 10 * n + (d.toNat - '0'.toNat)) 0

/-- The value of a number: its digits before the point and those after it. -/
def numberValue (whole fraction : List Char) : Float :=
  Float.ofScientific (natOfDigits (whole ++ fraction)) true fraction.length

namespace Piece

/-- The characters that separate tokens. -/
def isSeparator (c : Char) : Bool := c = ' ' || c = '\r' || c = '\t' || c = '\n'

/-- The characters that start a name. -/
def startsName (c : Char) : Bool := c.isAlpha || c = '_'

/-- The characters of a name. -/
def inName (c : Char) : Bool := startsName c || c.isDigit

/-- What the characters of a name are: a keyword or an identifier. -/
def wordKind (word : List Char) : TokenKind :=
  match Keyword.ofText? (String.ofList word) with
  | some k => .keyword k
  | none => .identifier

/-- The symbol of two characters. -/
def twoCharacterSymbol? : Char → Char → Option Symbol
  | '!', '=' => some .bangEqual
  | '=', '=' => some .equalEqual
  | '<', '=' => some .lessEqual
  | '>', '=' => some .greaterEqual
  | _, _ => none

/-- The symbol of one character. -/
def oneCharacterSymbol? : Char → Option Symbol
  | '!' => some .bang
  | '=' => some .equal
  | '<' => some .less
  | '>' => some .greater
  | '(' => some .leftParen
  | ')' => some .rightParen
  | '\x7b' => some .leftBrace
  | '\x7d' => some .rightBrace
  | ',' => some .comma
  | '.' => some .dot
  | '-' => some .minus
  | '+' => some .plus
  | ';' => some .semicolon
  | '*' => some .star
  | '/' => some .slash
  | '?' => some .question
  | ':' => some .colon
  | _ => none

/-- What follows the opening of a block comment: the characters up to and with the first
closing, those after it, and whether there was one. -/
def blockComment : List Char → List Char × List Char × Bool
  | '*' :: '/' :: rest => (['*', '/'], rest, true)
  | c :: rest =>
    let b := blockComment rest
    (c :: b.1, b.2)
  | [] => ([], [], false)

/-- The piece that starts with a quote, after which `rest` follows. -/
def string (rest : List Char) : Piece × List Char :=
  let body := rest.takeWhile (· ≠ '"')
  match rest.dropWhile (· ≠ '"') with
  | [] => (⟨.fault .unterminatedString, '"' :: body⟩, [])
  | quote :: more =>
    (⟨.token (.string (String.ofList (unescape body))), '"' :: body ++ [quote]⟩, more)

/-- The number at the start of a text: digits, and a fraction if a digit follows the point. -/
def number (s : List Char) : Piece × List Char :=
  let whole := s.takeWhile Char.isDigit
  let rest := s.dropWhile Char.isDigit
  match rest with
  | '.' :: d :: more =>
    if d.isDigit then
      let fraction := (d :: more).takeWhile Char.isDigit
      (⟨.token (.number (numberValue whole fraction)), whole ++ '.' :: fraction⟩,
        (d :: more).dropWhile Char.isDigit)
    else (⟨.token (.number (numberValue whole [])), whole⟩, rest)
  | _ => (⟨.token (.number (numberValue whole [])), whole⟩, rest)

/-- The name at the start of a text. -/
def word (s : List Char) : Piece × List Char :=
  (⟨.token (wordKind (s.takeWhile inName)), s.takeWhile inName⟩, s.dropWhile inName)

/-- The piece of one character that starts no longer piece. -/
def single (c : Char) : Piece :=
  match oneCharacterSymbol? c with
  | some s => ⟨.token (.symbol s), [c]⟩
  | none => ⟨.fault .unexpectedCharacter, [c]⟩

/-- The symbol, or the unexpected character, at the start of a text. -/
def symbol (c : Char) : List Char → Piece × List Char
  | d :: rest =>
    match twoCharacterSymbol? c d with
    | some s => (⟨.token (.symbol s), [c, d]⟩, rest)
    | none => (single c, d :: rest)
  | [] => (single c, [])

/-- What starts with a slash: a comment or the symbol. -/
def slash : List Char → Piece × List Char
  | '/' :: rest =>
    (⟨.comment, '/' :: '/' :: rest.takeWhile (· ≠ '\n')⟩, rest.dropWhile (· ≠ '\n'))
  | '*' :: rest =>
    let b := blockComment rest
    (⟨if b.2.2 then .comment else .fault .unterminatedComment, '/' :: '*' :: b.1⟩, b.2.1)
  | rest => symbol '/' rest

/-- The piece at the start of `c :: rest`, and what is left. -/
def next (c : Char) (rest : List Char) : Piece × List Char :=
  if isSeparator c then (⟨.blank, [c]⟩, rest)
  else if c = '/' then slash rest
  else if c = '"' then string rest
  else if c.isDigit then number (c :: rest)
  else if startsName c then word (c :: rest)
  else symbol c rest

theorem blockComment_append (s : List Char) :
    (blockComment s).1 ++ (blockComment s).2.1 = s := by
  fun_induction blockComment s with
  | case1 => rfl
  | case2 c rest b _ ih => exact congrArg (c :: ·) ih
  | case3 => rfl

@[simp] theorem text_single (c : Char) : (single c).text = [c] := by
  unfold single
  split <;> rfl

theorem symbol_text (c : Char) (rest : List Char) :
    (symbol c rest).1.text ++ (symbol c rest).2 = c :: rest := by
  cases rest with
  | nil => simp [symbol]
  | cons d rest =>
    unfold symbol
    simp only
    split <;> simp

theorem slash_text (rest : List Char) :
    (slash rest).1.text ++ (slash rest).2 = '/' :: rest := by
  unfold slash
  split
  · simp
  · simp [blockComment_append]
  · exact symbol_text '/' _

theorem string_text (rest : List Char) :
    (string rest).1.text ++ (string rest).2 = '"' :: rest := by
  have whole : rest.takeWhile (· ≠ '"') ++ rest.dropWhile (· ≠ '"') = rest :=
    List.takeWhile_append_dropWhile
  unfold string
  simp only
  split
  · next h =>
    rw [h] at whole
    simpa using whole
  · next h =>
    rw [h] at whole
    simpa using whole

theorem number_text (s : List Char) : (number s).1.text ++ (number s).2 = s := by
  have whole : s.takeWhile Char.isDigit ++ s.dropWhile Char.isDigit = s :=
    List.takeWhile_append_dropWhile
  unfold number
  simp only
  split
  · split
    · next h _ =>
      rw [h] at whole
      simpa using whole
    · exact whole
  · exact whole

theorem word_text (s : List Char) : (word s).1.text ++ (word s).2 = s := by
  simp [word]

/-- How the first piece is read depends on its first character alone. -/
inductive Reader (c : Char) : (List Char → Piece × List Char) → Prop where
  | blank (h : isSeparator c) : Reader c fun rest => (⟨.blank, [c]⟩, rest)
  | slash (h : c = '/') : Reader c slash
  | string (h : c = '"') : Reader c string
  | number (h : c.isDigit) : Reader c fun rest => number (c :: rest)
  | word (h : startsName c) : Reader c fun rest => word (c :: rest)
  | symbol : Reader c (symbol c)

theorem reader_next (c : Char) : Reader c (next c) := by
  have hnext : next c = fun rest => next c rest := rfl
  rw [hnext]
  unfold next
  split
  · next h => exact .blank h
  split
  · next h => exact .slash h
  split
  · next h => exact .string h
  split
  · next h => exact .number h
  split
  · next h => exact .word h
  · exact .symbol

/-- The text of the first piece followed by what is left is the text. -/
theorem next_text (c : Char) (rest : List Char) :
    (next c rest).1.text ++ (next c rest).2 = c :: rest := by
  have hreader := reader_next c
  generalize next c = read at hreader ⊢
  cases hreader with
  | blank => rfl
  | slash h => rw [slash_text, h]
  | string h => rw [string_text, h]
  | number => exact number_text _
  | word => exact word_text _
  | symbol => exact symbol_text c rest

theorem symbol_text_ne_nil (c : Char) (rest : List Char) : (symbol c rest).1.text ≠ [] := by
  cases rest with
  | nil => simp [symbol]
  | cons d rest =>
    unfold symbol
    simp only
    split <;> simp

theorem slash_text_ne_nil (rest : List Char) : (slash rest).1.text ≠ [] := by
  unfold slash
  split
  · simp
  · simp
  · exact symbol_text_ne_nil _ _

theorem number_text_ne_nil {c : Char} (h : c.isDigit) (rest : List Char) :
    (number (c :: rest)).1.text ≠ [] := by
  unfold number
  simp only [List.takeWhile_cons_of_pos h]
  split
  · split <;> simp
  · simp

theorem next_text_ne_nil (c : Char) (rest : List Char) : (next c rest).1.text ≠ [] := by
  have hreader := reader_next c
  generalize next c = read at hreader ⊢
  cases hreader with
  | blank => simp
  | slash => exact slash_text_ne_nil _
  | string =>
    unfold string
    split <;> simp
  | number h => exact number_text_ne_nil h _
  | word h => simp [word, inName, h]
  | symbol => exact symbol_text_ne_nil _ _

theorem length_next_lt (c : Char) (rest : List Char) :
    (next c rest).2.length < (c :: rest).length := by
  have total := congrArg List.length (next_text c rest)
  have positive := List.length_pos_iff.2 (next_text_ne_nil c rest)
  simp only [List.length_append] at total
  omega

/-- The pieces of a text, in order. -/
def ofText : List Char → List Piece
  | [] => []
  | c :: rest => (next c rest).1 :: ofText (next c rest).2
termination_by s => s.length
decreasing_by exact length_next_lt c rest

/-- The texts of the pieces make up the text. -/
theorem text_ofText (s : List Char) : (ofText s).flatMap text = s := by
  fun_induction ofText s with
  | case1 => rfl
  | case2 c rest ih => rw [List.flatMap_cons, ih, next_text]

end Piece

end Lox
