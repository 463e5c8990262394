import Lox.Report

/-!
# The grammar

The grammar of programs over tokens, one rule for each nonterminal. A rule is a form: tokens
and nonterminals put together by sequence, choice, option and repetition. What a form derives
is the least relation that the rules allow, so a list of tokens is a program exactly if it has
a derivation.

Two of the rules say what the parser finds out after the fact. The target of an assignment is
a name or a property of what a call derives, and the condition of a conditional is a truth
value or ends in a comparison that no parentheses enclose.

## Main definitions

* `Form`, `Nonterminal`, `Nonterminal.form`: forms and the rules
* `Derives`: what a form derives
* `Form.Matches`: the same for given languages of the nonterminals

## Main results

* `derives_iff`: deriving is matching the derivable
* `Derives.matches`: languages that the rules preserve hold all that is derivable
-/

namespace Lox.Grammar

/-- The nonterminals. -/
inductive Nonterminal where
  | program | declaration | function | varDecl | statement
  | expr | target | ternary | condition | or | and | equality | comparison | term | factor
  | unary | call | primary

/-- Forms of lists of tokens. -/
inductive Form where
  /-- One token that passes a test. -/
  | token (test : Token → Bool)
  /-- What a nonterminal stands for. -/
  | rule (n : Nonterminal)
  /-- One form after another. -/
  | seq (first second : Form)
  /-- One of two forms. -/
  | alt (left right : Form)
  /-- A form or nothing. -/
  | opt (form : Form)
  /-- A form any number of times. -/
  | star (form : Form)
  /-- A form a number of times up to a limit. -/
  | atMost (limit : Nat) (form : Form)

namespace Form

instance : Append Form := ⟨seq⟩

instance : OrOp Form := ⟨alt⟩

/-- A symbol. -/
def sym (s : Symbol) : Form := token (·.isSymbol s)

/-- A reserved word. -/
def word (k : Keyword) : Form := token (·.isKeyword k)

/-- A name. -/
def name : Form := token (·.kind = .identifier)

/-- A number or a string. -/
def constant : Form := token fun t =>
  match t.kind with
  | .number _ | .string _ => true
  | _ => false

/-- The end of the input. -/
def finish : Form := token (·.isEnd)

/-- Forms between commas, at least one and at most as many as a call takes arguments. -/
def list (form : Form) : Form := form ++ atMost (argumentLimit - 1) (sym .comma ++ form)

end Form

open Form in
/-- The rules. -/
def Nonterminal.form : Nonterminal → Form
  | program => star (rule declaration) ++ finish
  | declaration =>
    (word .classWord ++ name ++ opt (sym .less ++ name) ++ sym .leftBrace ++
      star (opt (word .classWord) ++ rule function) ++ sym .rightBrace) |||
    (word .funWord ++ rule function) ||| rule varDecl ||| rule statement
  | function =>
    name ++ sym .leftParen ++ opt (list name) ++ sym .rightParen ++
      sym .leftBrace ++ star (rule declaration) ++ sym .rightBrace
  | varDecl => word .varWord ++ name ++ opt (sym .equal ++ rule expr) ++ sym .semicolon
  | statement =>
    (word .forWord ++ sym .leftParen ++
      (sym .semicolon ||| rule varDecl ||| (rule expr ++ sym .semicolon)) ++
      opt (rule expr) ++ sym .semicolon ++ opt (rule expr) ++ sym .rightParen ++
      rule statement) |||
    (word .ifWord ++ sym .leftParen ++ rule expr ++ sym .rightParen ++ rule statement ++
      opt (word .elseWord ++ rule statement)) |||
    (word .printWord ++ rule expr ++ sym .semicolon) |||
    (word .returnWord ++ opt (rule expr) ++ sym .semicolon) |||
    (word .whileWord ++ sym .leftParen ++ rule expr ++ sym .rightParen ++ rule statement) |||
    (sym .leftBrace ++ star (rule declaration) ++ sym .rightBrace) |||
    (rule expr ++ sym .semicolon)
  | expr => (rule target ++ sym .equal ++ rule expr) ||| rule ternary
  | target => name ||| (rule call ++ sym .dot ++ name)
  | ternary =>
    rule or ||| (rule condition ++ sym .question ++ rule expr ++ sym .colon ++ rule expr)
  | condition =>
    word .trueWord ||| word .falseWord |||
    (rule equality ++ (sym .equalEqual ||| sym .bangEqual) ++ rule comparison) |||
    (rule comparison ++ (sym .less ||| sym .lessEqual ||| sym .greater ||| sym .greaterEqual) ++
      rule term)
  | or => rule and ++ star (word .orWord ++ rule and)
  | and => rule equality ++ star (word .andWord ++ rule equality)
  | equality =>
    rule comparison ++ star ((sym .equalEqual ||| sym .bangEqual) ++ rule comparison)
  | comparison =>
    rule term ++
      star ((sym .less ||| sym .lessEqual ||| sym .greater ||| sym .greaterEqual) ++ rule term)
  | term => rule factor ++ star ((sym .plus ||| sym .minus) ++ rule factor)
  | factor => rule unary ++ star ((sym .star ||| sym .slash) ++ rule unary)
  | unary => ((sym .bang ||| sym .minus) ++ rule unary) ||| rule call
  | call =>
    rule primary ++
      star ((sym .leftParen ++ opt (list (rule expr)) ++ sym .rightParen) ||| (sym .dot ++ name))
  | primary =>
    word .trueWord ||| word .falseWord ||| word .nilWord ||| constant ||| word .thisWord |||
    (word .superWord ++ sym .dot ++ name) ||| name |||
    (sym .leftParen ++ rule expr ++ sym .rightParen)

/-- What a form derives. -/
inductive Derives : Form → List Token → Prop where
  | token {test : Token → Bool} {t : Token} (passes : test t) : Derives (.token test) [t]
  | rule {n : Nonterminal} {ts : List Token} (form : Derives n.form ts) : Derives (.rule n) ts
  | seq {a b : Form} {u v : List Token} (first : Derives a u) (second : Derives b v) :
      Derives (.seq a b) (u ++ v)
  | left {a b : Form} {ts : List Token} (h : Derives a ts) : Derives (.alt a b) ts
  | right {a b : Form} {ts : List Token} (h : Derives b ts) : Derives (.alt a b) ts
  | absent {a : Form} : Derives (.opt a) []
  | present {a : Form} {ts : List Token} (h : Derives a ts) : Derives (.opt a) ts
  | none {a : Form} : Derives (.star a) []
  | more {a : Form} {ts us : List Token} (first : Derives a ts) (rest : Derives (.star a) us) :
      Derives (.star a) (ts ++ us)
  | noneOf {n : Nat} {a : Form} : Derives (.atMost n a) []
  | moreOf {n : Nat} {a : Form} {ts us : List Token} (first : Derives a ts)
      (rest : Derives (.atMost n a) us) : Derives (.atMost (n + 1) a) (ts ++ us)

/-- What a form matches, for given languages of the nonterminals. -/
def Form.Matches (language : Nonterminal → List Token → Prop) : Form → List Token → Prop
  | token test, ts => ∃ t, ts = [t] ∧ test t
  | rule n, ts => language n ts
  | seq a b, ts => ∃ us vs, ts = us ++ vs ∧ a.Matches language us ∧ b.Matches language vs
  | alt a b, ts => a.Matches language ts ∨ b.Matches language ts
  | opt a, ts => ts = [] ∨ a.Matches language ts
  | star a, ts => ∃ parts : List (List Token), ts = parts.flatten ∧
      ∀ us ∈ parts, a.Matches language us
  | atMost n a, ts => ∃ parts : List (List Token), parts.length ≤ n ∧ ts = parts.flatten ∧
      ∀ us ∈ parts, a.Matches language us

section Matches

variable {language : Nonterminal → List Token → Prop} {a b : Form} {ts : List Token}

@[simp] theorem Form.matches_token {test : Token → Bool} :
    (token test).Matches language ts ↔ ∃ t, ts = [t] ∧ test t := Iff.rfl

@[simp] theorem Form.matches_rule {n : Nonterminal} :
    (rule n).Matches language ts ↔ language n ts := Iff.rfl

@[simp] theorem Form.matches_append :
    (a ++ b).Matches language ts ↔
      ∃ us vs, ts = us ++ vs ∧ a.Matches language us ∧ b.Matches language vs := Iff.rfl

@[simp] theorem Form.matches_or :
    (a ||| b).Matches language ts ↔ a.Matches language ts ∨ b.Matches language ts := Iff.rfl

@[simp] theorem Form.matches_opt :
    (opt a).Matches language ts ↔ ts = [] ∨ a.Matches language ts := Iff.rfl

end Matches

/-- Languages that the rules preserve hold all that is derivable. -/
theorem Derives.matches {language : Nonterminal → List Token → Prop}
    (closed : ∀ n ts, n.form.Matches language ts → language n ts) {f : Form} {ts : List Token}
    (h : Derives f ts) : f.Matches language ts := by
  induction h with
  | token passes => exact ⟨_, rfl, passes⟩
  | rule _ ih => exact closed _ _ ih
  | seq _ _ ih₁ ih₂ => exact ⟨_, _, rfl, ih₁, ih₂⟩
  | left _ ih => exact .inl ih
  | right _ ih => exact .inr ih
  | absent => exact .inl rfl
  | present _ ih => exact .inr ih
  | none => exact ⟨[], rfl, by simp⟩
  | more _ _ ih₁ ih₂ =>
    obtain ⟨parts, rfl, hparts⟩ := ih₂
    exact ⟨_ :: parts, rfl, by simpa using ⟨ih₁, hparts⟩⟩
  | noneOf => exact ⟨[], by simp, rfl, by simp⟩
  | moreOf _ _ ih₁ ih₂ =>
    obtain ⟨parts, hlen, rfl, hparts⟩ := ih₂
    exact ⟨_ :: parts, by simpa using hlen, rfl, by simpa using ⟨ih₁, hparts⟩⟩

/-- What the nonterminals derive. -/
abbrev derivable (n : Nonterminal) : List Token → Prop := Derives (.rule n)

theorem derives_of_matches {f : Form} {ts : List Token} (h : f.Matches derivable ts) :
    Derives f ts := by
  induction f generalizing ts with
  | token test =>
    obtain ⟨t, rfl, ht⟩ := h
    exact .token ht
  | rule n => exact h
  | seq a b iha ihb =>
    obtain ⟨us, vs, rfl, hu, hv⟩ := h
    exact .seq (iha hu) (ihb hv)
  | alt a b iha ihb =>
    rcases h with h | h
    · exact .left (iha h)
    · exact .right (ihb h)
  | opt a ih =>
    rcases h with rfl | h
    · exact .absent
    · exact .present (ih h)
  -- the parts of a repetition are derived one after another
  | star a ih =>
    obtain ⟨parts, rfl, hparts⟩ := h
    induction parts with
    | nil => exact .none
    | cons us parts ihp =>
      rw [List.flatten_cons]
      exact .more (ih (hparts us (by simp))) (ihp fun vs hv => hparts vs (by simp [hv]))
  | atMost n a ih =>
    obtain ⟨parts, hlen, rfl, hparts⟩ := h
    induction parts generalizing n with
    | nil => exact .noneOf
    | cons us parts ihp =>
      obtain ⟨m, rfl⟩ : ∃ m, n = m + 1 := ⟨n - 1, by simp at hlen; omega⟩
      rw [List.flatten_cons]
      exact .moreOf (ih (hparts us (by simp)))
        (ihp m (by simpa using hlen) fun vs hv => hparts vs (by simp [hv]))

/-- Deriving is matching the derivable. -/
theorem derives_iff {f : Form} {ts : List Token} : Derives f ts ↔ f.Matches derivable ts :=
  ⟨Derives.matches fun _ _ h => .rule (derives_of_matches h), derives_of_matches⟩

/-- A nonterminal derives what its rule matches. -/
theorem derivable_iff {n : Nonterminal} {ts : List Token} :
    derivable n ts ↔ n.form.Matches derivable ts := by
  constructor
  · intro h
    cases h with
    | rule form => exact derives_iff.1 form
  · exact fun h => .rule (derives_iff.2 h)

end Lox.Grammar
