import Lox.Proofs.Grammar.Written
import Lox.Proofs.Parser.Twin
import Lox.Proofs.Scan.Layout

/-!
# Parsing what a tree is written with

The statements of a text, written as tokens again, are parsed to the same statements. Where the
tokens stand makes no difference but for the places in the trees.

## Main results

* `program_write`: the statements of a text, written and parsed again
-/

namespace Lox

/-- The statements of a text that is parsed without a report, written as tokens node by node: these
tokens are parsed without a report to the very same statements, whatever token marks the end and
whatever texts the constants get, and the same tokens in other places to statements that differ in
the places of tokens only. -/
theorem program_write {source : String} (h : (parse source).reports = [])
    (spell : Literal → String) (last : Token) :
    let statements := (parse source).statements
    let written := Stmt.writeAll spell statements
    Parser.program ⟨written, last⟩ = ⟨[], .ok statements ⟨[], last⟩⟩ ∧
      ∀ tokens, List.Forall₂ Token.Alike written tokens →
        ∃ body, Parser.program ⟨tokens, last⟩ = ⟨[], .ok body ⟨[], last⟩⟩ ∧
          List.Forall₂ (Stmt.Twin (.tokens Token.Alike)) statements body := by
  intro statements written
  obtain ⟨body, -, hbody, hstatements⟩ := exists_sentences h
  -- each statement with what it is written with
  have hsentences : ∀ x ∈ rewritten (Stmt.write spell) body, Sentence (.declaration x.2) x.1 :=
    forall_rewritten (P := fun ts s => Sentence (.declaration s) ts) fun x hx => (hbody x hx).write
  have htrees : (rewritten (Stmt.write spell) body).map (·.2) = statements := by
    rw [map_snd_rewritten]
    exact hstatements.symm
  have hwritten : ((rewritten (Stmt.write spell) body).map (·.1)).flatten = written := by
    rw [map_fst_rewritten, ← hstatements, ← Stmt.writeAll_eq]
  refine ⟨?_, fun tokens htokens => ?_⟩
  · have hread := program_of_sentences hsentences last
    rwa [htrees, hwritten] at hread
  · rw [← hwritten] at htokens
    obtain ⟨body', rfl, hbody', htwins⟩ := exists_twin_body
      (fun x hx us hus => (hsentences x hx).twin Token.Alike.kind hus) htokens
    rw [htrees] at htwins
    exact ⟨_, program_of_sentences hbody' last, htwins⟩

/-- A text with a static member behind another one and a loop whose abbreviation is written out. -/
theorem program_write_loop :
    let source := "class A { f(x) {} class g() {} } for (var i; i; i(1)) if (i) -x; else ((1));"
    let statements := (parse source).statements
    let written := Stmt.writeAll (fun _ => "0") statements
    (parse source).reports = [] ∧
      " ".intercalate (written.map (·.lexeme)) =
        "class A { class g ( ) { } f ( x ) { } } " ++
          "{ var i ; while ( i ) { if ( i ) - x ; else ( ( 0 ) ) ; i ( 0 ) ; } }" ∧
      Parser.program ⟨written, ⟨.endOfInput, "", 1, 1⟩⟩ =
        ⟨[], .ok statements ⟨[], ⟨.endOfInput, "", 1, 1⟩⟩⟩ ∧
      ∃ body, Parser.program ⟨written.map (Token.down 3), ⟨.endOfInput, "", 1, 1⟩⟩ =
          ⟨[], .ok body ⟨[], ⟨.endOfInput, "", 1, 1⟩⟩⟩ ∧
        List.Forall₂ (Stmt.Twin (.tokens Token.Alike)) statements body := by
  intro source statements written
  have hreports : (parse source).reports = [] := by decide +kernel
  obtain ⟨hsame, hmoved⟩ := program_write hreports (fun _ => "0") ⟨.endOfInput, "", 1, 1⟩
  refine ⟨hreports, by decide +kernel, hsame, hmoved _ ?_⟩
  exact List.forall₂_map_right_iff.2 (List.forall₂_same.2 fun _ _ => ⟨rfl, rfl⟩)

end Lox
