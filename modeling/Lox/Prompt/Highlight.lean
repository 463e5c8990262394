import Lox.Scan.Tokens
import Lox.Text.Blank

/-!
# Highlighting

A line of a text is cut into fragments, each with a style: a token has the style of its group,
and what lies between tokens has none. A name is styled by the word before it: after `fun` it
is a function, and after `class`, or in the place of a superclass, a type.

## Main definitions

* `Group`, with `Group.style`
* `groupOf`: the group of a token after the tokens before it
* `findIn`: where a lexeme next occurs in a text
* `highlight`: the fragments of a line
* `highlightLine`: the fragments of a line of a document
* `Highlighter.ask`: the same, kept for the next time that the line is asked for
-/

namespace Lox.Prompt

/-- The groups of tokens that are styled alike. -/
inductive Group where
  | keyword | boolean | constant | number | string | identifier | function | type | operator
  | punctuation
  deriving DecidableEq, Repr

namespace Group

/-- The style of a group. -/
def style : Group → String
  | keyword => "bold ansicyan"
  | boolean | constant => "ansicyan"
  | number => "ansimagenta"
  | string => "ansigreen"
  | function => "bold ansiyellow"
  | type => "bold ansiblue"
  | identifier | operator | punctuation => ""

end Group

/-- The group of a symbol. -/
def groupOfSymbol : Symbol → Group
  | .leftParen | .rightParen | .leftBrace | .rightBrace | .comma | .dot | .semicolon
  | .colon => .punctuation
  | _ => .operator

/-- The group of a keyword. -/
def groupOfKeyword : Keyword → Group
  | .trueWord | .falseWord => .boolean
  | .nilWord => .constant
  | _ => .keyword

/-- The group of a name, given the kinds of the tokens before it, the nearest first. -/
def groupOfName : List TokenKind → Group
  | .keyword .funWord :: _ => .function
  | .keyword .classWord :: _ => .type
  -- the class, its name, the sign, and then the superclass
  | .symbol .less :: _ :: .keyword .classWord :: _ => .type
  | _ => .identifier

/-- The group of a token, given the kinds of the tokens before it, the nearest first. -/
def groupOf (before : List TokenKind) : TokenKind → Group
  | .symbol s => groupOfSymbol s
  | .keyword k => groupOfKeyword k
  | .number _ => .number
  | .string _ => .string
  | .identifier => groupOfName before
  | .endOfInput => .identifier

/-- A part of a line with its style. -/
structure Fragment where
  /-- The style. -/
  style : String
  /-- The part. -/
  text : List Char
  deriving DecidableEq, Repr

/-- The part before the first occurrence of a text, and the part after it. -/
def findIn (needle : List Char) : List Char → Option (List Char × List Char)
  | [] => if needle = [] then some ([], []) else none
  | c :: rest =>
    if needle.isPrefixOf (c :: rest) then some ([], (c :: rest).drop needle.length)
    else (findIn needle rest).map fun r => (c :: r.1, r.2)

/-- A part without style, unless it is empty. -/
def plain (s : List Char) : List Fragment := if s = [] then [] else [⟨"", s⟩]

/-- The fragments of what is left of a line, for the tokens that are left: each token is styled
where its lexeme next occurs, and passed over if it does not. -/
def fragments (left : List Char) (before : List TokenKind) : List Token → List Fragment
  | [] => plain left
  | t :: rest =>
    match findIn t.lexeme.toList left with
    | some (gap, after) =>
      plain gap ++ ⟨(groupOf before t.kind).style, t.lexeme.toList⟩ ::
        fragments after (t.kind :: before) rest
    | none => fragments left (t.kind :: before) rest

/-- The fragments of a line. -/
def highlight (line : List Char) : List Fragment :=
  match line with
  | [] => [⟨"", []⟩]
  | _ => fragments line [] (scanChars line).tokens

/-- The fragments of a line of a document, counted from zero; a line that it does not have is
empty. -/
def highlightLine (document : List Char) (n : Nat) : List Fragment :=
  highlight (((Text.lines document)[n]?).getD [])

/-- A document whose lines are highlighted when they are asked for, and kept. -/
structure Highlighter where
  /-- The document. -/
  document : List Char
  /-- The lines that were asked for, with their fragments. -/
  found : List (Nat × List Fragment) := []

/-- The fragments of a line: those that were found before, if it was asked for. -/
def Highlighter.ask (h : Highlighter) (n : Nat) : List Fragment × Highlighter :=
  match h.found.lookup n with
  | some fragments => (fragments, h)
  | none =>
    let fragments := highlightLine h.document n
    (fragments, { h with found := (n, fragments) :: h.found })

/-- What is found makes up the text. -/
theorem findIn_append {needle s before after : List Char}
    (h : findIn needle s = some (before, after)) : before ++ needle ++ after = s := by
  induction s generalizing before with
  | nil =>
    simp only [findIn] at h
    split at h
    · simp_all
    · simp at h
  | cons c rest ih =>
    unfold findIn at h
    split at h
    · next hp =>
      obtain ⟨t, ht⟩ := List.isPrefixOf_iff_prefix.1 hp
      simp only [Option.some.injEq, Prod.mk.injEq] at h
      rw [← h.1, ← h.2, ← ht]
      simp
    · obtain ⟨r, hr, he⟩ := Option.map_eq_some_iff.1 h
      simp only [Prod.mk.injEq] at he
      have := @ih r.1 (by rw [hr, ← he.2])
      rw [← he.1, ← this]
      simp

end Lox.Prompt
