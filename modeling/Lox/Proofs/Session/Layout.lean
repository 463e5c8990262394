import Lox.Proofs.Scan.Layout
import Lox.Proofs.Session.Joined

/-!
# Running a text in another layout

How the tokens of a text are laid out changes nothing but the places of errors: where they stand
flows into the tokens of the statements and from there into the texts of errors only.

## Main results

* `Session.run_layout`: a text and another with the same tokens in another layout
-/

namespace Lox

namespace Session

/-- The tokens of a text, laid out in another way, are scanned without a report to the same tokens
in other places. If nothing is reported of the text, then nothing is reported of the other one, and
in a new session both print the same, end in the same way, and tell the same error, if any, though
the token that it is at may stand elsewhere. -/
theorem run_layout (source : String) (l : Layout (scan source).tokens) :
    (scan l.text).reports = [] ∧
      List.Forall₂ Token.Alike (scan source).tokens (scan l.text).tokens ∧
      (problems source = [] → problems l.text = [] ∧
        ∀ o, (fresh.run o source).1.Twin Token.Alike (fresh.run o l.text).1) := by
  obtain ⟨hscan, htokens⟩ := l.scan_text
  refine ⟨hscan, htokens, fun hproblems => ?_⟩
  obtain ⟨hparse, hbody⟩ :=
    twin_parse Token.Alike.kind (problems_eq_nil.1 hproblems).1 hscan htokens
  have hlexeme : ∀ {t t'}, Token.Alike t t' → t'.lexeme = t.lexeme := Token.Alike.lexeme
  have hproblems' := problems_of_twins hlexeme hproblems hparse hbody
  refine ⟨hproblems', fun o => ?_⟩
  exact ((twin_fresh Token.Alike).run_twins hlexeme o hproblems hproblems' hbody).1

/-- A text that prints and then fails, with comments before its tokens and after a slash. -/
theorem run_layout_quotient :
    let source := "print 8/2;1/nil;"
    ∃ l : Layout (scan source).tokens,
      l.text = "// one\n/**/print 8\t/ /* two */2 ;\n1 / nil\n;" ∧ problems source = [] ∧
        (fresh.run .still source).1.transcript.out = "4\n" ∧
        (fresh.run .still l.text).1.transcript.out = "4\n" ∧
        (fresh.run .still source).1.transcript.errors.map (·.text) =
          ["Operands must be numbers. (line 1)"] ∧
        (fresh.run .still l.text).1.transcript.errors.map (·.cause) = [.operandsNotNumbers] := by
  intro source
  let l : Layout (scan source).tokens :=
    { first := [.line " one".toList (by decide), .block [] (by decide)]
      gaps := [[.blank ' ' rfl], [.blank '\t' rfl], [.blank ' ' rfl, .block " two ".toList (by decide)],
        [.blank ' ' rfl], [.blank '\n' rfl], [.blank ' ' rfl], [.blank ' ' rfl], [.blank '\n' rfl], []]
      length_gaps := by decide +kernel
      apart := by decide
      blank := by decide }
  have hproblems : problems source = [] := by decide +kernel
  obtain ⟨-, -, hrun⟩ := run_layout source l
  have htwin := (hrun hproblems).2 .still
  have hout : (fresh.run .still source).1.transcript.out = "4\n" := by decide +kernel
  have herrors : (fresh.run .still source).1.transcript.errors.map (·.text) =
      ["Operands must be numbers. (line 1)"] := by decide +kernel
  have hcauses : (fresh.run .still source).1.transcript.errors.map (·.cause) =
      [.operandsNotNumbers] := by decide +kernel
  refine ⟨l, by decide +kernel, hproblems, hout, htwin.out.trans hout, herrors, ?_⟩
  rw [← hcauses, ← List.forall₂_eq_eq_eq]
  exact List.forall₂_map_left_iff.2 (List.forall₂_map_right_iff.2 (htwin.errors.flip.imp
    fun _ _ h => h.1))

end Session

end Lox
