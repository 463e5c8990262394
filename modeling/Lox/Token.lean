import Lox.Decimal.Layout
import Lox.Text.Quoted

/-!
# Tokens

A token is a kind with the text it was read from and its place: the line on which it ends and
the column in which it starts, both counted from one. A string and a number carry their value;
every list of tokens is closed by a token that marks the end of the input.

## Main definitions

* `Symbol`, `Keyword`: the fixed tokens with their texts
* `TokenKind`, `Token`
* `Token.display`, `Token.form`: the two listings of a token

## Main results

* `Keyword.ofText?_text`: a keyword is read back from its text
* `Keyword.text_of_ofText?`: only the text of a keyword is read as that keyword
-/

namespace Lox

/-- Punctuation and operators. -/
inductive Symbol where
  | leftParen | rightParen | leftBrace | rightBrace | comma | dot | minus | plus | semicolon
  | slash | star | question | colon
  | bang | bangEqual | equal | equalEqual | greater | greaterEqual | less | lessEqual
  deriving DecidableEq, Repr

namespace Symbol

/-- Every symbol. -/
def all : List Symbol :=
  [leftParen, rightParen, leftBrace, rightBrace, comma, dot, minus, plus, semicolon, slash, star,
   question, colon, bang, bangEqual, equal, equalEqual, greater, greaterEqual, less, lessEqual]

/-- How a symbol is written. -/
def text : Symbol → String
  | leftParen => "("
  | rightParen => ")"
  | leftBrace => "\x7b"
  | rightBrace => "\x7d"
  | comma => ","
  | dot => "."
  | minus => "-"
  | plus => "+"
  | semicolon => ";"
  | slash => "/"
  | star => "*"
  | question => "?"
  | colon => ":"
  | bang => "!"
  | bangEqual => "!="
  | equal => "="
  | equalEqual => "=="
  | greater => ">"
  | greaterEqual => ">="
  | less => "<"
  | lessEqual => "<="

/-- The name of a symbol in listings. -/
def name : Symbol → String
  | leftParen => "LEFT_PAREN"
  | rightParen => "RIGHT_PAREN"
  | leftBrace => "LEFT_BRACE"
  | rightBrace => "RIGHT_BRACE"
  | comma => "COMMA"
  | dot => "DOT"
  | minus => "MINUS"
  | plus => "PLUS"
  | semicolon => "SEMICOLON"
  | slash => "SLASH"
  | star => "STAR"
  | question => "QUESTION"
  | colon => "COLON"
  | bang => "BANG"
  | bangEqual => "BANG_EQUAL"
  | equal => "EQUAL"
  | equalEqual => "EQUAL_EQUAL"
  | greater => "GREATER"
  | greaterEqual => "GREATER_EQUAL"
  | less => "LESS"
  | lessEqual => "LESS_EQUAL"

theorem mem_all (s : Symbol) : s ∈ all := by cases s <;> decide

end Symbol

/-- The reserved words. -/
inductive Keyword where
  | andWord | classWord | elseWord | falseWord | forWord | funWord | ifWord | nilWord | orWord
  | printWord | returnWord | superWord | thisWord | trueWord | varWord | whileWord
  deriving DecidableEq, Repr

namespace Keyword

/-- Every keyword. -/
def all : List Keyword :=
  [andWord, classWord, elseWord, falseWord, forWord, funWord, ifWord, nilWord, orWord, printWord,
   returnWord, superWord, thisWord, trueWord, varWord, whileWord]

/-- How a keyword is written. -/
def text : Keyword → String
  | andWord => "and"
  | classWord => "class"
  | elseWord => "else"
  | falseWord => "false"
  | forWord => "for"
  | funWord => "fun"
  | ifWord => "if"
  | nilWord => "nil"
  | orWord => "or"
  | printWord => "print"
  | returnWord => "return"
  | superWord => "super"
  | thisWord => "this"
  | trueWord => "true"
  | varWord => "var"
  | whileWord => "while"

/-- The name of a keyword in listings. -/
def name : Keyword → String
  | andWord => "AND"
  | classWord => "CLASS"
  | elseWord => "ELSE"
  | falseWord => "FALSE"
  | forWord => "FOR"
  | funWord => "FUN"
  | ifWord => "IF"
  | nilWord => "NIL"
  | orWord => "OR"
  | printWord => "PRINT"
  | returnWord => "RETURN"
  | superWord => "SUPER"
  | thisWord => "THIS"
  | trueWord => "TRUE"
  | varWord => "VAR"
  | whileWord => "WHILE"

/-- The keyword that a text spells. -/
def ofText? (s : String) : Option Keyword := all.find? (·.text == s)

theorem mem_all (k : Keyword) : k ∈ all := by cases k <;> decide

/-- A keyword is read back from its text. -/
theorem ofText?_text (k : Keyword) : ofText? k.text = some k := by cases k <;> decide

/-- Only the text of a keyword is read as that keyword. -/
theorem text_of_ofText? {s : String} {k : Keyword} (h : ofText? s = some k) : k.text = s := by
  simpa using List.find?_some h

end Keyword

/-- What a token is. -/
inductive TokenKind where
  /-- Punctuation or an operator. -/
  | symbol (s : Symbol)
  /-- A reserved word. -/
  | keyword (k : Keyword)
  /-- A name. -/
  | identifier
  /-- A string with its value. -/
  | string (value : String)
  /-- A number with its value. -/
  | number (value : Float)
  /-- The end of the input. -/
  | endOfInput
  deriving DecidableEq, Repr

namespace TokenKind

/-- The name of a kind in listings. -/
def name : TokenKind → String
  | symbol s => s.name
  | keyword k => k.name
  | identifier => "IDENTIFIER"
  | string _ => "STRING"
  | number _ => "NUMBER"
  | endOfInput => "EOF"

/-- The kind with a given name in listings; a string is empty and a number zero. -/
def ofName? (s : String) : Option TokenKind :=
  (Symbol.all.map symbol ++ Keyword.all.map keyword ++
    [identifier, string "", number 0, endOfInput]).find? (·.name == s)

end TokenKind

/-- A kind with the text it was read from and its place. -/
structure Token where
  /-- What the token is. -/
  kind : TokenKind
  /-- The text it was read from. -/
  lexeme : String
  /-- The line on which it ends. -/
  line : Nat := 1
  /-- The column in which it starts. -/
  column : Nat := 1
  deriving DecidableEq, Repr

namespace Token

/-- Whether a token is a given symbol. -/
def isSymbol (t : Token) (s : Symbol) : Bool := t.kind = .symbol s

/-- Whether a token is a given keyword. -/
def isKeyword (t : Token) (k : Keyword) : Bool := t.kind = .keyword k

/-- Whether a token marks the end of the input. -/
def isEnd (t : Token) : Bool := t.kind = .endOfInput

/-- The value that a token carries, as text. -/
def valueText : Token → String
  | { kind := .string value, .. } => value
  | { kind := .number value, .. } => Decimal.Layout.literal.write value
  | _ => "null"

/-- The listing of a token with its value. -/
def display (t : Token) : String := t.kind.name ++ " " ++ t.lexeme ++ " " ++ t.valueText

/-- The listing of a token with its place. -/
def form (t : Token) : String :=
  "Tok(" ++ t.kind.name ++ ", " ++ Text.quoted t.lexeme ++ ", " ++ Decimal.Layout.digits t.line ++
    ":" ++ Decimal.Layout.digits t.column ++ ")"

end Token

end Lox
