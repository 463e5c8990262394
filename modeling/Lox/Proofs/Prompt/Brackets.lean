import Lox.Proofs.Parser.Statement
import Lox.Prompt.Buffer

/-!
# Open brackets and complete programs

The prompt counts brackets, parentheses and braces in one number that never falls below zero;
the grammar puts every bracket that it opens next to the one that closes it. So a form of the
grammar moves the count by a fixed amount, whatever is open before it, and a nonterminal does not
move it at all. A text that is parsed without a report leaves nothing open, and Enter submits it.

## Main definitions

* `Level i j ts`: the tokens take a count that is `i` above some floor to `j` above it
* `Form.Moves i j`: a form derives only such tokens

## Main results

* `moves_form`: no rule of the grammar moves the count
* `level_of_derivable`: what a nonterminal derives leaves the count as it was
* `enter_cases`: Enter submits the text, or the text above a blank last line, or starts a line
* `enter_complete`: a text that is parsed without a report leaves nothing open and is submitted
-/

namespace Lox.Grammar

open Prompt

variable {i j k : Nat}

/-! ## The count along a form -/

/-- The tokens take a count that is `i` above some floor to `j` above it. -/
def Level (i j : Nat) (ts : List Token) : Prop :=
  ∀ floor, ts.foldl depthAfter (floor + i) = floor + j

namespace Level

theorem nil : Level i i [] := fun _ => rfl

theorem append {us vs : List Token} (hu : Level i j us) (hv : Level j k vs) :
    Level i k (us ++ vs) := by
  intro floor
  rw [List.foldl_append, hu, hv]

/-- Tokens that keep one level keep every level above it. -/
theorem add {ts : List Token} (h : Level 0 0 ts) (i : Nat) : Level i i ts :=
  fun floor => h (floor + i)

theorem flatten {parts : List (List Token)} (h : ∀ us ∈ parts, Level i i us) :
    Level i i parts.flatten := by
  induction parts with
  | nil => exact .nil
  | cons us parts ih =>
    rw [List.flatten_cons]
    exact (h us (by simp)).append (ih fun vs hv => h vs (by simp [hv]))

end Level

/-- A form that takes a count from `i` to `j` above its floor, if the nonterminals move
nothing. -/
def Form.Moves (i j : Nat) (f : Form) : Prop :=
  ∀ ts, f.Matches (fun _ => Level 0 0) ts → Level i j ts

namespace Form.Moves

variable {a b : Form}

theorem token {test : Token → Bool}
    (h : ∀ t, test t → ∀ floor, depthAfter (floor + i) t = floor + j) :
    Form.Moves i j (.token test) := by
  rintro _ ⟨t, rfl, ht⟩ floor
  exact h t ht floor

theorem rule {n : Nonterminal} : Form.Moves i i (.rule n) :=
  fun _ h => Level.add h i

theorem append (ha : Form.Moves i j a) (hb : Form.Moves j k b) : Form.Moves i k (a ++ b) := by
  rintro _ ⟨us, vs, rfl, hu, hv⟩
  exact (ha us hu).append (hb vs hv)

theorem or (ha : Form.Moves i j a) (hb : Form.Moves i j b) : Form.Moves i j (a ||| b) := by
  rintro ts (h | h)
  · exact ha ts h
  · exact hb ts h

theorem opt (ha : Form.Moves i i a) : Form.Moves i i (.opt a) := by
  rintro ts (rfl | h)
  · exact .nil
  · exact ha ts h

theorem star (ha : Form.Moves i i a) : Form.Moves i i (.star a) := by
  rintro _ ⟨parts, rfl, hparts⟩
  exact .flatten fun us hu => ha us (hparts us hu)

theorem atMost {limit : Nat} (ha : Form.Moves i i a) : Form.Moves i i (.atMost limit a) := by
  rintro _ ⟨parts, -, rfl, hparts⟩
  exact .flatten fun us hu => ha us (hparts us hu)

/-- A symbol that is no bracket. -/
theorem sym (s : Symbol) (h : s ∉ [.leftParen, .rightParen, .leftBrace, .rightBrace]) :
    Form.Moves i i (.sym s) := by
  refine token fun t ht floor => ?_
  have hkind : t.kind = .symbol s := by simpa [Token.isSymbol] using ht
  cases s <;> simp_all [depthAfter]

/-- A bracket that opens. -/
theorem opens (s : Symbol) (h : s ∈ [.leftParen, .leftBrace]) :
    Form.Moves i (i + 1) (.sym s) := by
  refine token fun t ht floor => ?_
  have hkind : t.kind = .symbol s := by simpa [Token.isSymbol] using ht
  simp only [List.mem_cons, List.not_mem_nil, or_false] at h
  rcases h with rfl | rfl <;> simp only [depthAfter, hkind] <;> rfl

/-- A bracket that closes: one is open, so the count does not stop at zero. -/
theorem closes (s : Symbol) (h : s ∈ [.rightParen, .rightBrace]) :
    Form.Moves (i + 1) i (.sym s) := by
  refine token fun t ht floor => ?_
  have hkind : t.kind = .symbol s := by simpa [Token.isSymbol] using ht
  simp only [List.mem_cons, List.not_mem_nil, or_false] at h
  rcases h with rfl | rfl <;> simp only [depthAfter, hkind] <;> omega

theorem word (w : Keyword) : Form.Moves i i (.word w) := by
  refine token fun t ht floor => ?_
  have hkind : t.kind = .keyword w := by simpa [Token.isKeyword] using ht
  simp [depthAfter, hkind]

theorem name : Form.Moves i i .name := by
  refine token fun t ht floor => ?_
  have hkind : t.kind = .identifier := by simpa using ht
  simp [depthAfter, hkind]

theorem constant : Form.Moves i i .constant := by
  refine token fun t ht floor => ?_
  cases hkind : t.kind <;> simp_all [depthAfter]

theorem finish : Form.Moves i i .finish := by
  refine token fun t ht floor => ?_
  have hkind : t.kind = .endOfInput := by simpa [Token.isEnd] using ht
  simp [depthAfter, hkind]

/-- Forms between commas. -/
theorem list (ha : Form.Moves i i a) : Form.Moves i i (.list a) :=
  ha.append (.atMost ((sym .comma (by decide)).append ha))

theorem semicolon : Form.Moves i i (.sym .semicolon) := sym _ (by decide)

theorem leftParen : Form.Moves i (i + 1) (.sym .leftParen) := opens _ (by decide)

theorem rightParen : Form.Moves (i + 1) i (.sym .rightParen) := closes _ (by decide)

theorem leftBrace : Form.Moves i (i + 1) (.sym .leftBrace) := opens _ (by decide)

theorem rightBrace : Form.Moves (i + 1) i (.sym .rightBrace) := closes _ (by decide)

theorem equalities : Form.Moves i i (.sym .equalEqual ||| .sym .bangEqual) :=
  (sym _ (by decide)).or (sym _ (by decide))

theorem comparisons : Form.Moves i i
    (.sym .less ||| .sym .lessEqual ||| .sym .greater ||| .sym .greaterEqual) :=
  (((sym _ (by decide)).or (sym _ (by decide))).or (sym _ (by decide))).or (sym _ (by decide))

end Form.Moves

/-! ## The rules -/

section Rules

open Form.Moves

/-! Each rule is followed form by form, with what is open after each of them. -/

theorem moves_declaration : (Nonterminal.form .declaration).Moves 0 0 := by
  have superclass : Form.Moves 0 0 _ := ((sym .less (by decide)).append name).opt
  have members : Form.Moves 1 1 _ :=
    ((word .classWord).opt.append (rule (n := .function))).star
  have classDecl : Form.Moves 0 0 _ := (word .classWord).append name |>.append superclass
    |>.append leftBrace |>.append members |>.append rightBrace
  exact classDecl.or ((word .funWord).append rule) |>.or rule |>.or rule

theorem moves_function : (Nonterminal.form .function).Moves 0 0 := by
  have header : Form.Moves 0 0 _ :=
    name.append leftParen |>.append name.list.opt |>.append rightParen
  exact header.append leftBrace |>.append rule.star |>.append rightBrace

theorem moves_varDecl : (Nonterminal.form .varDecl).Moves 0 0 := by
  have value : Form.Moves 0 0 _ := (sym .equal (by decide)).append (rule (n := .expr))
  exact (word .varWord).append name |>.append value.opt |>.append semicolon

theorem moves_statement : (Nonterminal.form .statement).Moves 0 0 := by
  have expr {i} : Form.Moves i i _ := rule (n := .expr)
  have statement : Form.Moves 0 0 _ := rule (n := .statement)
  have first : Form.Moves 1 1 _ :=
    semicolon.or (rule (n := .varDecl)) |>.or (expr.append semicolon)
  have forLoop : Form.Moves 0 0 _ := (word .forWord).append leftParen |>.append first
    |>.append expr.opt |>.append semicolon |>.append expr.opt |>.append rightParen
    |>.append statement
  have choice : Form.Moves 0 0 _ := (word .ifWord).append leftParen |>.append expr
    |>.append rightParen |>.append statement |>.append ((word .elseWord).append statement).opt
  have print : Form.Moves 0 0 _ := (word .printWord).append expr |>.append semicolon
  have ret : Form.Moves 0 0 _ := (word .returnWord).append expr.opt |>.append semicolon
  have whileLoop : Form.Moves 0 0 _ := (word .whileWord).append leftParen |>.append expr
    |>.append rightParen |>.append statement
  have block : Form.Moves 0 0 _ :=
    leftBrace.append (rule (n := .declaration)).star |>.append rightBrace
  exact forLoop.or choice |>.or print |>.or ret |>.or whileLoop |>.or block |>.or
    (rule.append semicolon)

theorem moves_call : (Nonterminal.form .call).Moves 0 0 := by
  have arguments : Form.Moves 0 0 _ :=
    leftParen.append (rule (n := .expr)).list.opt |>.append rightParen
  exact rule.append (arguments.or ((sym _ (by decide)).append name)).star

theorem moves_primary : (Nonterminal.form .primary).Moves 0 0 := by
  have superMethod : Form.Moves 0 0 _ :=
    (word .superWord).append (sym .dot (by decide)) |>.append name
  have group : Form.Moves 0 0 _ := leftParen.append (rule (n := .expr)) |>.append rightParen
  exact (word _).or (word _) |>.or (word _) |>.or constant |>.or (word _) |>.or superMethod
    |>.or name |>.or group

/-- No rule of the grammar moves the count. -/
theorem moves_form (n : Nonterminal) : n.form.Moves 0 0 := by
  cases n with
  | program => exact rule.star.append finish
  | declaration => exact moves_declaration
  | function => exact moves_function
  | varDecl => exact moves_varDecl
  | statement => exact moves_statement
  | expr => exact (rule.append (sym _ (by decide)) |>.append rule).or rule
  | target => exact name.or (rule.append (sym _ (by decide)) |>.append name)
  | ternary =>
    exact rule.or (rule.append (sym _ (by decide)) |>.append rule |>.append (sym _ (by decide))
      |>.append rule)
  | condition =>
    exact (word _).or (word _) |>.or (rule.append equalities |>.append rule)
      |>.or (rule.append comparisons |>.append rule)
  | or | and => exact rule.append ((word _).append rule).star
  | equality => exact rule.append (equalities.append rule).star
  | comparison => exact rule.append (comparisons.append rule).star
  | term | factor =>
    exact rule.append (((sym _ (by decide)).or (sym _ (by decide))).append rule).star
  | unary => exact (((sym _ (by decide)).or (sym _ (by decide))).append rule).or rule
  | call => exact moves_call
  | primary => exact moves_primary

end Rules

/-- What a nonterminal derives leaves the count as it was. -/
theorem level_of_derivable {n : Nonterminal} {ts : List Token} (h : derivable n ts) :
    Level i i ts :=
  -- the languages of lists that keep the count are closed under the rules
  have hlevel : Level 0 0 ts := h.matches fun n ts hts => moves_form n ts hts
  hlevel.add i

end Lox.Grammar

namespace Lox.Prompt

/-! ## The key Enter -/

/-- A text that is parsed without a report leaves no bracket open. -/
theorem openDepth_of_reports {s : List Char} (h : (parse (String.ofList s)).reports = []) :
    openDepth s = 0 := by
  have hscan : (scan (String.ofList s)) = scanChars s := by simp [scan]
  have hreports : (Parser.program (scanChars s).stream).reports = [] := by
    simp only [parse, List.append_eq_nil_iff, hscan] at h
    exact h.2
  have hprogram := Grammar.level_of_derivable (i := 0)
    (Parser.derivable_of_reports (rfl : (scanChars s).finish.isEnd = true) hreports) 0
  -- the token that ends the input counts nothing
  rw [List.foldl_append] at hprogram
  exact hprogram

namespace Buffer

/-- The buffer that Enter hands over when it submits: the text without a blank last line, if
there is one, and otherwise the buffer as it is. -/
def submitted (b : Buffer) : Buffer := ((withoutBlankLine? b.text).map ofText).getD b

/-- Enter submits, or it starts a line because a bracket is open. -/
theorem enter_cases (b : Buffer) :
    b.enter = (b.submitted, [.submit]) ∨
      0 < openDepth b.text ∧ b.enter = (b.insert ('\n' :: indent b.text), []) := by
  unfold enter submitted
  cases withoutBlankLine? b.text with
  | some above => exact .inl rfl
  | none =>
    simp only
    split
    · next h =>
      simp only [Bool.and_eq_true, decide_eq_true_eq] at h
      exact .inr ⟨h.2, rfl⟩
    · exact .inl rfl

/-- Enter never holds back a complete program: a text that is parsed without a report leaves
nothing open and is submitted, wherever the cursor is. So where Enter starts a line, the text so
far is not a program. -/
theorem enter_complete (s : List Char) :
    ((parse (String.ofList s)).reports = [] → openDepth s = 0 ∧
      ∀ cursor, (⟨s, cursor⟩ : Buffer).enter = ((⟨s, cursor⟩ : Buffer).submitted, [.submit])) ∧
    ∀ cursor, (⟨s, cursor⟩ : Buffer).enter =
        ((⟨s, cursor⟩ : Buffer).insert ('\n' :: indent s), []) →
      (parse (String.ofList s)).reports ≠ [] := by
  have hcomplete (h : (parse (String.ofList s)).reports = []) (cursor : Nat) :
      (⟨s, cursor⟩ : Buffer).enter = ((⟨s, cursor⟩ : Buffer).submitted, [.submit]) := by
    rcases enter_cases ⟨s, cursor⟩ with hsubmit | ⟨hopen, -⟩
    · exact hsubmit
    · exact absurd (openDepth_of_reports h) (Nat.ne_of_gt hopen)
  refine ⟨fun h => ⟨openDepth_of_reports h, hcomplete h⟩, fun cursor hline h => ?_⟩
  -- the same key cannot both submit and start a line
  rw [hcomplete h cursor] at hline
  exact List.cons_ne_nil _ _ (Prod.mk.inj hline).2

/-- Brackets in a string and in a comment are open for neither, and a call that stops after a
comma is held back. -/
theorem enter_complete_block :
    let s := "\x7b print \"(\"; \x7d // \x7b".toList
    let call := "f(1,".toList
    (parse (String.ofList s)).reports = [] ∧ openDepth s = 0 ∧
      (⟨s, 3⟩ : Buffer).enter = (⟨s, 3⟩, [.submit]) ∧
      (⟨call, 4⟩ : Buffer).enter = (ofText "f(1,\n    ".toList, []) ∧
      (parse (String.ofList call)).reports ≠ [] := by
  intro s call
  have hreports : (parse (String.ofList s)).reports = [] := by decide +kernel
  have hline : (⟨call, 4⟩ : Buffer).enter =
      ((⟨call, 4⟩ : Buffer).insert ('\n' :: indent call), []) := by decide +kernel
  obtain ⟨hopen, hsubmit⟩ := (enter_complete s).1 hreports
  refine ⟨hreports, hopen, (hsubmit 3).trans (by decide +kernel), hline.trans (by decide +kernel),
    (enter_complete call).2 4 hline⟩

end Buffer

end Lox.Prompt
