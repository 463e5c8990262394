import Lox.Proofs.Grammar.Twin
import Lox.Proofs.Parser.Scanned

/-!
# Parsing twins

Every text whose tokens are a list of sentences is parsed to their trees. So texts whose tokens
correspond are parsed to twins, and the sentences of one text may stand before those of another.

## Main results

* `parse_of_sentences`: a text that is a list of sentences
* `twin_parse`: texts whose tokens correspond
* `parse_append`: the sentences of one text before those of another
-/

namespace Lox

variable {source source' : String}

/-- What the scanner reports is reported of the text. -/
theorem scan_of_parse (h : (parse source).reports = []) : (scan source).reports = [] := by
  simp only [parse, List.append_eq_nil_iff] at h
  exact h.1

/-- A text whose tokens are a list of sentences. -/
theorem parse_of_sentences {body : List (List Token × Stmt Unit)}
    (hscan : (scan source).reports = []) (htokens : (scan source).tokens = (body.map (·.1)).flatten)
    (hbody : ∀ x ∈ body, Sentence (.declaration x.2) x.1) :
    (parse source).reports = [] ∧ (parse source).statements = body.map (·.2) := by
  have hread := program_of_sentences hbody (scan source).finish
  rw [← htokens] at hread
  simp [parse, Scan.stream, hscan, hread, Reply.statements]

variable {R : Token → Token → Prop} (hR : ∀ {t t'}, R t t' → t'.kind = t.kind)

include hR

/-- Texts whose tokens correspond are parsed to twins. -/
theorem twin_parse (h : (parse source).reports = []) (hscan : (scan source').reports = [])
    (htokens : List.Forall₂ R (scan source).tokens (scan source').tokens) :
    (parse source').reports = [] ∧ List.Forall₂ (Stmt.Twin (.tokens R)) (parse source).statements
      (parse source').statements := by
  obtain ⟨body, hts, hbody, hstatements⟩ := exists_sentences h
  rw [hts] at htokens
  obtain ⟨body', hts', hbody', htwins⟩ :=
    exists_twin_body (fun x hx us hus => (hbody x hx).twin hR hus) htokens
  obtain ⟨hreports, hstatements'⟩ := parse_of_sentences hscan hts' hbody'
  exact ⟨hreports, by rwa [hstatements, hstatements']⟩

/-- The tokens of one text before tokens that correspond to those of another. -/
theorem parse_append {joined : String} {us : List Token} (ha : (parse source).reports = [])
    (hb : (parse source').reports = []) (hscan : (scan joined).reports = [])
    (htokens : (scan joined).tokens = (scan source).tokens ++ us)
    (hus : List.Forall₂ R (scan source').tokens us) :
    (parse joined).reports = [] ∧ ∃ body,
      (parse joined).statements = (parse source).statements ++ body ∧
        List.Forall₂ (Stmt.Twin (.tokens R)) (parse source').statements body := by
  obtain ⟨as, has, hsentences, hstatements⟩ := exists_sentences ha
  obtain ⟨bs, hbs, hsentences', hstatements'⟩ := exists_sentences hb
  rw [hbs] at hus
  obtain ⟨cs, rfl, hcs, htwins⟩ :=
    exists_twin_body (fun x hx us hus => (hsentences' x hx).twin hR hus) hus
  have hboth : ∀ x ∈ as ++ cs, Sentence (.declaration x.2) x.1 := fun x hx =>
    (List.mem_append.1 hx).elim (hsentences x) (hcs x)
  obtain ⟨hreports, hjoined⟩ := parse_of_sentences hscan (by simp [htokens, has]) hboth
  refine ⟨hreports, cs.map (·.2), ?_, by rwa [hstatements']⟩
  rw [hjoined, hstatements, List.map_append]

end Lox
