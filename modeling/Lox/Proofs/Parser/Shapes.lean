import Lox.Proofs.Grammar.Shapes
import Lox.Proofs.Parser.Scanned
import Lox.Proofs.Scan.Segmentation

/-!
# The texts of parsed statements

The tokens of a source are lexemes of their kinds, so the statements that are parsed of it are read
back from their texts. Two sources whose statements have the same texts have statements of the same
shapes, though the tokens may stand elsewhere and numbers may be written with other digits.

## Main results

* `readsBack_program`: what is parsed without a report is read back
* `shapes_eq_of_texts_eq`: the shapes of statements that have the same texts
-/

namespace Lox

/-- The statements of which the parser reports nothing are read back if they are plain. -/
theorem readsBack_program {source : String}
    (h : (Parser.program (scan source).stream).reports = []) :
    ∀ s ∈ (parse source).statements, s.ReadsBack := by
  obtain ⟨body, htokens, hbody, hstatements⟩ := exists_sentences_of_program h
  rw [hstatements]
  intro s hs
  obtain ⟨x, hx, rfl⟩ := List.mem_map.1 hs
  apply (hbody x hx).readsBack
  intro a ha
  apply lexical_of_mem
  rw [htokens]
  exact List.mem_flatten.2 ⟨x.1, List.mem_map_of_mem hx, ha⟩

/-- Reading back the symbolic expressions of plain statements. -/
theorem Stmt.map_readStmt {body : List (Stmt Unit)} (h : ∀ s ∈ body, s.ReadsBack)
    (hplain : ∀ s ∈ body, s.outline.Plain) :
    (∀ x ∈ body.map sexp, x.Clean) ∧
      (body.map sexp).map Sexp.readStmt = body.map (·.outline.shape) := by
  constructor
  · intro x hx
    obtain ⟨s, hs, rfl⟩ := List.mem_map.1 hx
    exact (h s hs (hplain s hs)).1
  · rw [List.map_map]
    exact List.map_congr_left fun s hs => (h s hs (hplain s hs)).2

/-- Let the parser report nothing of two sources, and let no statement of theirs hold a string, or a
number that is not finite. If the statements have the same texts, then they are the same nodes with
the same parts: the same names and operators in the same places, and numbers of the same text. -/
theorem shapes_eq_of_texts_eq {a b : String}
    (ha : (Parser.program (scan a).stream).reports = [])
    (hb : (Parser.program (scan b).stream).reports = [])
    (hplain : ∀ s ∈ (parse a).statements, s.outline.Plain)
    (hplain' : ∀ s ∈ (parse b).statements, s.outline.Plain)
    (h : (parse a).statements.map Stmt.text = (parse b).statements.map Stmt.text) :
    (parse a).statements.map (·.outline.shape) = (parse b).statements.map (·.outline.shape) := by
  obtain ⟨hclean, hread⟩ := Stmt.map_readStmt (readsBack_program ha) hplain
  obtain ⟨hclean', hread'⟩ := Stmt.map_readStmt (readsBack_program hb) hplain'
  have hsexp : (parse a).statements.map Stmt.sexp = (parse b).statements.map Stmt.sexp := by
    apply Sexp.texts_injective hclean hclean'
    rw [List.map_map, List.map_map]
    exact h
  rw [← hread, ← hread', hsexp]

/-- Two sources of the same statements: members in another order, a loop in another form, a number
with other digits. -/
theorem shapes_eq_of_texts_eq_class :
    let a := "class A < B \x7b m(x) \x7b return -x - super.m; \x7d class s() \x7b\x7d \x7d " ++
      "for (; i < 2;) this.f = i = nil;"
    let b := "class A < B \x7b\nclass s() \x7b\x7d m(x) \x7b return - x-super.m; \x7d \x7d\n" ++
      "while (i < 2.0)\nthis.f = i = nil;"
    (Parser.program (scan a).stream).reports = [] ∧
      (Parser.program (scan b).stream).reports = [] ∧
      (∀ s ∈ (parse a).statements, s.outline.Plain) ∧
      (∀ s ∈ (parse b).statements, s.outline.Plain) ∧
      (parse a).statements.map Stmt.text =
        ["(class A < B (class s ()) (fun m (x) (return (- (- x) (super m)))))",
          "(while (< i 2) (; (= (. this f) (= i nil))))"] ∧
      (parse a).statements.map (·.outline.shape) = (parse b).statements.map (·.outline.shape) := by
  intro a b
  have hread : (Parser.program (scan a).stream).reports = [] ∧
      (∀ s ∈ (parse a).statements, s.outline.Plain) ∧ (parse a).statements.map Stmt.text =
        ["(class A < B (class s ()) (fun m (x) (return (- (- x) (super m)))))",
          "(while (< i 2) (; (= (. this f) (= i nil))))"] := by decide +kernel
  have hread' : (Parser.program (scan b).stream).reports = [] ∧
      (∀ s ∈ (parse b).statements, s.outline.Plain) ∧ (parse b).statements.map Stmt.text =
        ["(class A < B (class s ()) (fun m (x) (return (- (- x) (super m)))))",
          "(while (< i 2) (; (= (. this f) (= i nil))))"] := by decide +kernel
  obtain ⟨ha, hplain, htext⟩ := hread
  obtain ⟨hb, hplain', htext'⟩ := hread'
  exact ⟨ha, hb, hplain, hplain', htext,
    shapes_eq_of_texts_eq ha hb hplain hplain' (htext.trans htext'.symm)⟩

/-- A string is shown without its quotes, as the name that it spells. -/
example : (parse "x;").statements.map Stmt.text = (parse "\"x\";").statements.map Stmt.text := by
  decide +kernel

end Lox
