/-!
# Symbolic expressions

Atoms and lists, written with a space between the items of a list and parentheses around it.

## Main definitions

* `Sexp`
* `Sexp.chars`, `Sexp.text`: how a symbolic expression is written
-/

namespace Lox

/-- Atoms and lists. -/
inductive Sexp where
  /-- A text without structure. -/
  | atom (text : List Char)
  /-- Items in parentheses. -/
  | list (items : List Sexp)

namespace Sexp

/-- An atom with a given text. -/
def ofString (s : String) : Sexp := atom s.toList

/-- A list that starts with an atom. -/
def tagged (head : String) (items : List Sexp) : Sexp := list (ofString head :: items)

mutual

/-- The characters of a symbolic expression. -/
def chars : Sexp → List Char
  | atom text => text
  | list items => '(' :: itemChars items ++ [')']

/-- The characters of items with spaces between them. -/
def itemChars : List Sexp → List Char
  | [] => []
  | item :: rest => chars item ++ restChars rest

/-- The characters of items with a space before each. -/
def restChars : List Sexp → List Char
  | [] => []
  | item :: rest => ' ' :: chars item ++ restChars rest

end

/-- How a symbolic expression is written. -/
def text (s : Sexp) : String := String.ofList s.chars

end Sexp

end Lox
