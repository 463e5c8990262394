import Lox.Proofs.Scan.Joined
import Mathlib.Data.List.Pairwise

/-!
# Places of tokens

Every token of a text starts where the tokens before it have ended, so no token occurs twice: its
line and column tell which of the tokens it is.

## Main definitions

* `Position.Before`: the order of the positions of a text
* `Token.start`: where a token starts

## Main results

* `PlacedPiece.pairwise_start`: the pieces of a text start one after another
* `nodup_tokens`: no token occurs twice in a text
-/

namespace Lox

namespace Position

/-- One position stands before another. -/
def Before (p q : Position) : Prop := p.line < q.line ∨ p.line = q.line ∧ p.column < q.column

variable {p q r : Position}

theorem Before.ne (h : p.Before q) : p ≠ q := by
  rintro rfl
  rcases h with h | ⟨-, h⟩
  · exact Nat.lt_irrefl _ h
  · exact Nat.lt_irrefl _ h

theorem Before.trans (h : p.Before q) (h' : q.Before r) : p.Before r := by
  rcases h with h | ⟨hline, h⟩ <;> rcases h' with h' | ⟨hline', h'⟩
  · exact .inl (Nat.lt_trans h h')
  · exact .inl (hline' ▸ h)
  · exact .inl (hline ▸ h')
  · exact .inr ⟨hline.trans hline', Nat.lt_trans h h'⟩

theorem before_step (p : Position) (c : Char) : p.Before (p.step c) := by
  unfold step
  split
  · exact .inl (Nat.lt_succ_self _)
  · exact .inr ⟨rfl, Nat.lt_succ_self _⟩

/-- A position stands before the one after some characters. -/
theorem before_after {s : List Char} (hs : s ≠ []) (p : Position) : p.Before (p.after s) := by
  induction s generalizing p with
  | nil => exact absurd rfl hs
  | cons c s ih =>
    show p.Before ((p.step c).after s)
    by_cases hrest : s = []
    · subst hrest
      exact before_step p c
    · exact (before_step p c).trans (ih hrest (p.step c))

end Position

theorem Piece.text_ne_nil_of_mem {s : List Char} {q : Piece} (hq : q ∈ ofText s) :
    q.text ≠ [] := by
  fun_induction ofText s with
  | case1 => cases hq
  | case2 c rest ih =>
    rcases List.mem_cons.1 hq with rfl | hq
    · exact next_text_ne_nil c rest
    · exact ih hq

namespace PlacedPiece

variable {p : Position} {ps : List Piece}

/-- A piece ends where its text ends. -/
theorem stop_of_mem {q : PlacedPiece} (hq : q ∈ place p ps) :
    q.stop = q.start.after q.piece.text := by
  induction ps generalizing p with
  | nil => cases hq
  | cons piece ps ih =>
    rcases List.mem_cons.1 hq with rfl | hq
    · rfl
    · exact ih hq

/-- The pieces of a text start one after another. -/
theorem pairwise_start (hps : ∀ q ∈ ps, q.text ≠ []) (p : Position) :
    (place p ps).Pairwise (·.start.Before ·.start) ∧
      ∀ q ∈ place p ps, q.start = p ∨ p.Before q.start := by
  induction ps generalizing p with
  | nil => exact ⟨.nil, fun _ h => by cases h⟩
  | cons piece ps ih =>
    obtain ⟨hpiece, hps⟩ := List.forall_mem_cons.1 hps
    have hlater := Position.before_after hpiece p
    obtain ⟨hpairwise, hstarts⟩ := ih hps (p.after piece.text)
    -- what follows the piece starts where it has ended or later
    have hrest : ∀ q ∈ place (p.after piece.text) ps, p.Before q.start := by
      intro q hq
      rcases hstarts q hq with hstart | hstart
      · exact hstart ▸ hlater
      · exact hlater.trans hstart
    refine ⟨.cons hrest hpairwise, fun q hq => ?_⟩
    rcases List.mem_cons.1 hq with rfl | hq
    · exact .inl rfl
    · exact .inr (hrest q hq)

end PlacedPiece

/-- Where a token starts: as many lines above its end as it has line feeds. -/
def Token.start (t : Token) : Position := ⟨t.line - t.lexeme.toList.count '\n', t.column⟩

/-- A token starts where its piece does. -/
theorem PlacedPiece.start_of_token? {p : Position} {ps : List Piece} {q : PlacedPiece}
    (hq : q ∈ place p ps) {t : Token} (ht : q.token? = some t) : t.start = q.start := by
  have hstop : q.stop.line = q.start.line + q.piece.text.count '\n' := by
    rw [stop_of_mem hq, Position.line_after]
  unfold token? at ht
  split at ht
  · cases ht
    simp only [Token.start, String.toList_ofList, hstop, Nat.add_sub_cancel]
  · cases ht

/-- No token occurs twice in a text. -/
theorem nodup_tokens (source : String) : (scan source).tokens.Nodup := by
  have hpieces : ∀ q ∈ Piece.ofText source.toList, q.text ≠ [] :=
    fun _ hq => Piece.text_ne_nil_of_mem hq
  refine List.pairwise_filterMap.2 ?_
  refine (PlacedPiece.pairwise_start hpieces {}).1.imp_of_mem fun hq hr h t ht u hu => ?_
  rintro rfl
  -- one token would start in two places
  have hstart := PlacedPiece.start_of_token? hq ht
  exact h.ne (hstart.symm.trans (PlacedPiece.start_of_token? hr hu))

end Lox
