import Lox.Proofs.Parser.Confined
import Lox.Proofs.Parser.Statement

/-!
# Parsing ends at the end of the input

Whatever the tokens, the loop over declarations comes to the end of the input: a declaration takes
a token each time, also where it is lost, and one that is lost has been reported.

## Main results

* `itemsUntil_eq`: a loop over items without its budget
* `program_reaches_end`: every list of tokens is parsed up to its end
-/

namespace Lox

open Lox.Part (tokens)

namespace Parser

open Grammar

variable {α : Type} {item : Parser (Option α)} {stop : Token → Bool} {form : Form}

/-- A loop over items that are read alike from every stream with tokens left, without its budget:
it stops where it has to, and otherwise reads one item and goes on. -/
theorem itemsUntil_eq
    (h : ∀ s : Stream, s.ahead ≠ [] → AlikeOn one (fun us _ => Derives form us) item item s)
    (s : Stream) :
    itemsUntil stop item s =
      if stop s.current || s.ahead.isEmpty then ⟨[], .ok [] s⟩
      else (item >>= fun a => itemsUntil stop item >>= fun as => pure (a.toList ++ as)) s := by
  rw [itemsUntil, budgeted, itemsWithin, current_bind, atEnd_bind]
  by_cases hstop : (stop s.current || s.ahead.isEmpty) = true
  · rw [if_pos hstop, if_pos hstop]
    rfl
  rw [if_neg hstop, if_neg hstop]
  have hne : s.ahead ≠ [] := fun hnil => hstop (by simp [hnil])
  have hitem := (h s hne).2
  rw [bind_apply, bind_apply]
  revert hitem
  rcases item s with ⟨reports, ⟨a, rest⟩ | ⟨u, rest⟩ | _⟩
  · rintro ⟨ts, rfl, hlen, -⟩
    -- the item took a token, so what is left of the budget suffices for what is left to read
    have hlong : rest.ahead.length + 1 ≤ (rest.behind ts).ahead.length := by
      have hone : 1 ≤ ts.length := hlen
      simp only [Stream.ahead_behind, List.length_append]
      omega
    have hrest : itemsWithin stop item (rest.behind ts).ahead rest = itemsUntil stop item rest :=
      (Alike.itemsWithin (n := rest.ahead.length + 1) (b := (rest.behind ts).ahead)
        (c := rest.finish :: rest.ahead) (fun s _ => h s) hlong (by simp) rest (by simp)).1
    dsimp only
    rw [bind_apply, bind_apply, hrest]
    rfl
  · exact fun _ => rfl
  · exact fun _ => rfl

/-- Nothing unwinds out of a parser that recovers. -/
theorem recover_ne_unwound {p : Parser α} {s rest : Stream} {u : Unwinding}
    {reports : List Report} : recover p s ≠ ⟨reports, .unwound u rest⟩ := by
  unfold recover
  rcases p s with ⟨first, ⟨a, mid⟩ | ⟨v, mid⟩ | _⟩
  · intro h
    cases h
  · intro h
    cases h
  · intro h
    cases h

/-- A declaration takes a token at least, and one that is lost has been reported. -/
theorem exists_declaration {s : Stream} (hne : s.ahead ≠ []) :
    ∃ reports o rest read, declaration s = ⟨reports, .ok o rest⟩ ∧ s = rest.behind read ∧
      read ≠ [] ∧ (o = none → reports ≠ []) := by
  have hr := (alike_declaration hne).2
  revert hr
  rcases hd : declaration s with ⟨reports, ⟨o, rest⟩ | ⟨u, rest⟩ | _⟩
  · rintro ⟨read, hread, hlen, hfits⟩
    refine ⟨reports, o, rest, read, rfl, hread, List.length_pos_iff.1 hlen, ?_⟩
    rintro rfl hnone
    cases (hfits hnone).2
  · rw [declaration_eq hne] at hd
    exact absurd hd recover_ne_unwound
  · exact fun hr => hr.elim

theorem program_of_nil {s : Stream} (h : s.ahead = []) : program s = ⟨[], .ok [] s⟩ := by
  rw [program, itemsUntil_eq fun s hne => nested_declaration (s.ahead.length + 1) s (by simp) hne,
    if_pos (by simp [h])]

/-- A program is one declaration, read or lost, and the program after it. -/
theorem program_of_declaration {s mid rest : Stream} {first more : List Report}
    {o : Option ParsedStmt} {body : List ParsedStmt} (hne : s.ahead ≠ [])
    (hd : declaration s = ⟨first, .ok o mid⟩) (hmore : program mid = ⟨more, .ok body rest⟩) :
    program s = ⟨first ++ more, .ok (o.toList ++ body) rest⟩ := by
  rw [program, itemsUntil_eq fun s hne => nested_declaration (s.ahead.length + 1) s (by simp) hne,
    if_neg (by simp [hne]), bind_apply, hd]
  dsimp only
  rw [bind_apply, show itemsUntil (fun _ => false) declaration mid = _ from hmore]
  simp

/-- The loop over declarations comes to the end: each of them takes a token. -/
theorem exists_program (s : Stream) :
    ∃ reports body, program s = ⟨reports, .ok body ⟨[], s.finish⟩⟩ := by
  induction hn : s.ahead.length using Nat.strong_induction_on generalizing s with
  | _ n ih =>
  subst hn
  by_cases hnil : s.ahead = []
  · exact ⟨[], [], by rw [program_of_nil hnil, ← hnil]⟩
  obtain ⟨first, o, rest, read, hd, rfl, hread, -⟩ := exists_declaration hnil
  have hshort : rest.ahead.length < (rest.behind read).ahead.length := by
    have := List.length_pos_iff.2 hread
    simp only [Stream.ahead_behind, List.length_append]
    omega
  obtain ⟨more, body, hrest⟩ := ih _ hshort rest rfl
  exact ⟨first ++ more, o.toList ++ body, program_of_declaration hnil hd hrest⟩

/-- Every list of tokens, however malformed, is parsed up to its end: the parser comes to an
end with a result, nothing unwinds out of it, the token that marks the end is the one at the front,
and no other tokens than those of the list are looked at, so every problem is reported at one of
them or at the end, and every token of the result is one of them. The loops over declarations, that
of the whole text, which nothing but the end stops, and those of blocks, read one only where tokens
are left; it takes at least one of them, and if it is lost, it has been reported. -/
theorem program_reaches_end (ts : List Token) (last : Token) :
    (∃ reports body, program ⟨ts, last⟩ = ⟨reports, .ok body ⟨[], last⟩⟩ ∧
      (∀ r ∈ reports, r.Among (· ∈ ts ++ [last])) ∧
      ∀ t ∈ tokens (Stmt.partsAll body), t ∈ ts) ∧
    program = itemsUntil (fun _ => false) declaration ∧
    statement = statementWith statement declaration ∧
    (∀ stop s, itemsUntil stop declaration s =
      if stop s.current || s.ahead.isEmpty then ⟨[], .ok [] s⟩
      else (declaration >>= fun a => itemsUntil stop declaration >>= fun as =>
        pure (a.toList ++ as)) s) ∧
    ∀ s : Stream, s.ahead ≠ [] →
      declaration s = declarationWith statement declaration s ∧
      ∃ reports o rest read, declaration s = ⟨reports, .ok o rest⟩ ∧ s = rest.behind read ∧
        read ≠ [] ∧ (o = none → reports ≠ []) := by
  refine ⟨?_, rfl, statement_eq, fun stop => itemsUntil_eq fun s hne =>
    nested_declaration (s.ahead.length + 1) s (by simp) hne,
    fun s hne => ⟨declaration_eq hne, exists_declaration hne⟩⟩
  obtain ⟨reports, body, hprogram⟩ := exists_program ⟨ts, last⟩
  refine ⟨reports, body, hprogram, ?_, fun t ht => ?_⟩
  · have hall : Stream.All (· ∈ ts ++ [last]) ⟨ts, last⟩ :=
      ⟨List.mem_append_right ts List.mem_cons_self, fun t => List.mem_append_left [last]⟩
    have hconfined := (confined_program ⟨ts, last⟩ hall).1
    rwa [hprogram] at hconfined
  · have hdraws : Draws [] program (·.flatMap ofStmt) := Draws.itemsUntil draws_declaration
    have hcount := hdraws ⟨ts, last⟩ t
    rw [hprogram] at hcount
    rw [tokens_statements] at ht
    simp only [Outcome.tokens, List.append_nil, List.nil_append] at hcount
    exact List.count_pos_iff.1 (Nat.lt_of_lt_of_le (List.count_pos_iff.2 ht) hcount)

end Parser

end Lox
