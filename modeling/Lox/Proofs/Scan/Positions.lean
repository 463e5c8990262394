import Lox.Proofs.Scan.Segmentation

/-!
# Positions of tokens

The scanner counts lines and columns as it goes. Here they are read off the text instead: the
line from the number of line feeds before the end of a token, the column from the distance of
its start from the last line feed before it. The two agree for every token, the end of the input
included, which stands as an empty slice where the text ends.

A report has the line of the character that it is about, and that of the end of the text for
what is not closed.

## Main definitions

* `ColumnAt`: the column of an index of a text
* `Token.Stands`: a token with its position, as a slice of a text
* `Report.Stands`: a report with its line, for a slice of a text

## Main results

* `columnAt_after`: the column that the scanner counts
* `scan_positions`: tokens and reports have the positions of their slices
-/

namespace Lox

/-- The column of an index: its distance from the last line feed before it, or from the front of
the text if there is none. -/
def ColumnAt (s : List Char) (i column : Nat) : Prop :=
  (∃ j < i, s[j]? = some '\n' ∧ (∀ k, j < k → k < i → s[k]? ≠ some '\n') ∧ column = i - j) ∨
    (∀ j < i, s[j]? ≠ some '\n') ∧ column = i + 1

/-- A token with its position, as the slice of a text between two indices. -/
structure Token.Stands (s : List Char) (t : Token) (start stop : Nat) : Prop where
  lexeme : t.lexeme.toList = (s.take stop).drop start
  line : t.line = 1 + (s.take stop).count '\n'
  column : ColumnAt s start t.column

/-- A report with its line, for a slice of a text: what is not closed is reported where the text
ends. -/
def Report.Stands (s : List Char) (r : Report) (q : Slice) : Prop :=
  ∃ e, q.piece.kind = .fault e ∧ r.problem = .scan e ∧
    r.line = 1 + (match e with
      | .unexpectedCharacter => (s.take q.start).count '\n'
      | .unterminatedString | .unterminatedComment => s.count '\n')

/-- The line that the scanner counts. -/
theorem line_after_start (s : List Char) : (Position.after {} s).line = 1 + s.count '\n' :=
  Position.line_after {} s

/-- The column that the scanner counts. -/
theorem columnAt_after {s : List Char} {i : Nat} (hi : i ≤ s.length) :
    ColumnAt s i (Position.after {} (s.take i)).column := by
  induction i with
  | zero => exact .inr ⟨fun j hj => absurd hj (Nat.not_lt_zero j), by simp⟩
  | succ i ih =>
    obtain ⟨c, hc⟩ : ∃ c, s[i]? = some c := ⟨s[i], List.getElem?_eq_getElem hi⟩
    have htake : s.take (i + 1) = s.take i ++ [c] := by rw [List.take_add_one, hc]; rfl
    have hstep : Position.after {} (s.take (i + 1)) = (Position.after {} (s.take i)).step c := by
      rw [htake, Position.after_append]
      rfl
    rw [hstep, Position.step]
    split
    · next hbreak =>
      -- the character before the index is the last line feed
      subst hbreak
      refine .inl ⟨i, Nat.lt_succ_self i, hc, fun k hik hki => ?_, by simp⟩
      omega
    · next hbreak =>
      have hne : s[i]? ≠ some '\n' := by
        rw [hc]
        exact fun h => hbreak (Option.some.inj h)
      rcases ih (Nat.le_of_succ_le hi) with ⟨j, hj, hjc, hlast, hcol⟩ | ⟨hnone, hcol⟩
      · refine .inl ⟨j, Nat.lt_succ_of_lt hj, hjc, fun k hjk hki => ?_, ?_⟩
        · by_cases hk : k = i
          · exact hk ▸ hne
          · exact hlast k hjk (by omega)
        · show _ + 1 = _
          omega
      · refine .inr ⟨fun j hj => ?_, ?_⟩
        · by_cases hji : j = i
          · exact hji ▸ hne
          · exact hnone j (by omega)
        · show _ + 1 = _
          omega

/-- A slice of a text follows what is before it. -/
theorem take_stop {s : List Char} {q : Slice}
    (htext : (s.take q.stop).drop q.start = q.piece.text) :
    s.take q.stop = s.take q.start ++ q.piece.text := by
  have hle : q.start ≤ q.stop := Nat.le_add_right _ _
  have hsplit := List.take_append_drop q.start (s.take q.stop)
  rw [List.take_take, Nat.min_eq_left hle, htext] at hsplit
  exact hsplit.symm

/-- The line of a report: a character that is no lexeme is no line feed. -/
theorem Report.At.stands {s : List Char} {r : Report} {q : Slice} (h : r.At s q)
    (houtside : Outside s q) (htext : (s.take q.stop).drop q.start = q.piece.text) :
    r.Stands s q := by
  obtain ⟨e, hkind, hproblem⟩ := h.fault
  have hline : r.line = 1 + (s.take q.stop).count '\n' := h.line.trans (line_after_start _)
  have hstop := take_stop htext
  refine ⟨e, hkind, hproblem, ?_⟩
  rw [hline]
  cases houtside with
  | blank _ => cases hkind
  | comment _ => cases hkind
  | @unexpected c i hc =>
    cases hkind
    have hne : c ≠ '\n' := by
      rintro rfl
      exact hc _ (.blank (by simp))
    rw [hstop, List.count_append]
    simp [hne]
  | @unclosed e' u i hu hend =>
    cases hkind
    have hwhole : s.take (Slice.stop ⟨⟨.fault e, u⟩, i⟩) = s :=
      List.take_of_length_le (Nat.le_of_eq hend.symm)
    rw [hwhole]
    cases hu <;> rfl

/-- Tokens and reports have the positions of their slices. -/
theorem scan_positions (source : String) :
    ∃ ps : List Piece, (Segmentation ps ∧ ps.flatMap Piece.text = source.toList) ∧
      List.Forall₂ (fun t range => Token.Stands source.toList t range.1 range.2)
        (scan source).all
        (((slices 0 ps).filter Slice.isToken).map (fun q => (q.start, q.stop)) ++
          [(source.toList.length, source.toList.length)]) ∧
      List.Forall₂ (Report.Stands source.toList) (scan source).reports
        ((slices 0 ps).filter Slice.isFault) := by
  obtain ⟨hseg, htext⟩ : Segmentation (Piece.ofText source.toList) ∧ _ := segmentation_iff.2 rfl
  have hpartition : Partition _ (slices 0 (Piece.ofText source.toList)) :=
    partition_slices fun p hp => Piece.text_ne_nil_of_mem hp
  rw [htext] at hpartition
  refine ⟨Piece.ofText source.toList, ⟨hseg, htext⟩, ?_, ?_⟩
  · -- the slices of the tokens, then the empty slice at the end
    have htokens : List.Forall₂ (fun q (t : Token) => Token.Stands source.toList t q.start q.stop)
        ((slices 0 (Piece.ofText source.toList)).filter Slice.isToken) (scan source).tokens := by
      have hmem : ∀ q ∈ (slices 0 (Piece.ofText source.toList)).filter Slice.isToken,
          q ∈ slices 0 (Piece.ofText source.toList) := fun q hq => List.mem_of_mem_filter hq
      refine ((List.forall₂_and_left _ _).2 ⟨hmem, (forall₂_tokens source.toList).flip⟩).imp
        fun q t ⟨hq, ht⟩ => ⟨?_, ht.line.trans (line_after_start _), ?_⟩
      · rw [ht.lexeme, hpartition.text q hq]
      · rw [ht.column]
        exact columnAt_after ((hpartition.nonempty q hq).le.trans (hpartition.bounded q hq))
    refine List.rel_append (List.forall₂_map_right_iff.2 htokens.flip) (.cons ⟨?_, ?_, ?_⟩ .nil)
    · show [] = _
      simp
    · show (Position.after {} source.toList).line = _
      rw [line_after_start, List.take_length]
    · have hcolumn := columnAt_after (Nat.le_refl source.toList.length)
      rwa [List.take_length] at hcolumn
  · have hfaults : ∀ q ∈ (slices 0 (Piece.ofText source.toList)).filter Slice.isFault,
        Outside source.toList q ∧ (source.toList.take q.stop).drop q.start = q.piece.text := by
      intro q hq
      obtain ⟨hq, hfault⟩ := List.mem_filter.1 hq
      have hkind : q.isToken = false := by
        unfold Slice.isToken
        unfold Slice.isFault at hfault
        split at hfault
        · next e he => simp [he]
        · cases hfault
      have houtside := hseg.outside_of_mem hq hkind
      rw [htext] at houtside
      exact ⟨houtside, hpartition.text q hq⟩
    have hreports := (List.forall₂_and_left _ _).2 ⟨hfaults, (forall₂_reports source.toList).flip⟩
    exact (hreports.imp fun q r ⟨⟨houtside, hpart⟩, hr⟩ => hr.stands houtside hpart).flip

end Lox
