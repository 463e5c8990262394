import Lox.Proofs.Scan.Lexicon
import Lox.Proofs.Scan.Places
import Mathlib.Data.List.Forall2
import Mathlib.Data.List.Induction
import Mathlib.Data.Nat.Digits.Defs
import Mathlib.Tactic.FieldSimp
import Mathlib.Tactic.Ring

/-!
# The scanner as a segmentation

A segmentation cuts the text into slices that lie side by side. The tokens of a text are the
slices of its only segmentation that the lexical grammar calls tokens, in their order, and the
reports are those that it calls faulty. What is left are blanks and comments.

The value of a number is that of its lexeme as a decimal fraction, which the literal is given as
an integer and a power of ten.

## Main definitions

* `Slice`, `slices`: pieces with the characters before them counted
* `Partition`: slices that make up a text without overlapping
* `Outside`: what may stand between the tokens
* `decimalValue`: the number that digits and a point write

## Main results

* `partition_slices`: the slices of pieces make up their text
* `forall₂_place`: the pieces as the scanner places them are the slices of the text
* `numberValue_eq`: the value of a number as that of its lexeme
* `scan_segmentation`: the tokens and the reports of a text are the slices of its segmentation
-/

namespace Lox

/-! ## Slices -/

/-- A piece with the number of characters before it. -/
structure Slice where
  /-- The piece. -/
  piece : Piece
  /-- The index of its first character. -/
  start : Nat

namespace Slice

/-- The index behind the last character. -/
def stop (q : Slice) : Nat := q.start + q.piece.text.length

/-- Whether the slice is a token. -/
def isToken (q : Slice) : Bool :=
  match q.piece.kind with
  | .token _ => true
  | _ => false

/-- Whether the slice is reported. -/
def isFault (q : Slice) : Bool :=
  match q.piece.kind with
  | .fault _ => true
  | _ => false

end Slice

/-- Pieces one after another, the first at a given index. -/
def slices (n : Nat) : List Piece → List Slice
  | [] => []
  | p :: ps => ⟨p, n⟩ :: slices (n + p.text.length) ps

/-- Slices that make up a text: none is empty, none overlaps another, each character is in
one of them. -/
structure Partition (s : List Char) (qs : List Slice) : Prop where
  text : ∀ q ∈ qs, (s.take q.stop).drop q.start = q.piece.text
  nonempty : ∀ q ∈ qs, q.start < q.stop
  bounded : ∀ q ∈ qs, q.stop ≤ s.length
  increasing : qs.Pairwise (·.stop ≤ ·.start)
  covered : ∀ i < s.length, ∃! q, q ∈ qs ∧ q.start ≤ i ∧ i < q.stop

variable {ps : List Piece} {q : Slice} {n : Nat}

/-- A slice stands where the pieces before it end. -/
theorem exists_split_of_mem (hq : q ∈ slices n ps) : ∃ before after,
    ps = before ++ q.piece :: after ∧ q.start = n + (before.flatMap Piece.text).length := by
  induction ps generalizing n with
  | nil => cases hq
  | cons p ps ih =>
    rcases List.mem_cons.1 hq with rfl | hq
    · exact ⟨[], ps, rfl, rfl⟩
    · obtain ⟨before, after, rfl, hstart⟩ := ih hq
      refine ⟨p :: before, after, rfl, ?_⟩
      rw [hstart, List.flatMap_cons, List.length_append, Nat.add_assoc]

theorem le_start_of_mem (hq : q ∈ slices n ps) : n ≤ q.start := by
  obtain ⟨before, after, -, hstart⟩ := exists_split_of_mem hq
  omega

theorem pairwise_slices (n : Nat) (ps : List Piece) :
    (slices n ps).Pairwise (·.stop ≤ ·.start) := by
  induction ps generalizing n with
  | nil => exact .nil
  | cons p ps ih => exact .cons (fun q hq => le_start_of_mem hq) (ih _)

/-- Each character of the text of the pieces is in one slice. -/
theorem existsUnique_slice {i : Nat} (hn : n ≤ i)
    (hi : i < n + (ps.flatMap Piece.text).length) :
    ∃! q, q ∈ slices n ps ∧ q.start ≤ i ∧ i < q.stop := by
  induction ps generalizing n with
  | nil => simp at hi; omega
  | cons p ps ih =>
    rw [List.flatMap_cons, List.length_append] at hi
    by_cases h : i < n + p.text.length
    · refine ⟨⟨p, n⟩, ⟨.head _, hn, h⟩, fun r ⟨hr, hstart, _⟩ => ?_⟩
      rcases List.mem_cons.1 hr with rfl | hr
      · rfl
      · have hle := le_start_of_mem hr
        omega
    · obtain ⟨q, ⟨hq, hqi⟩, hunique⟩ := ih (Nat.not_lt.1 h) (by omega)
      refine ⟨q, ⟨.tail _ hq, hqi⟩, fun r ⟨hr, hri⟩ => ?_⟩
      rcases List.mem_cons.1 hr with rfl | hr
      · exact absurd hri.2 h
      · exact hunique r ⟨hr, hri⟩

/-- The slices of pieces make up their text. -/
theorem partition_slices (hps : ∀ p ∈ ps, p.text ≠ []) :
    Partition (ps.flatMap Piece.text) (slices 0 ps) where
  text q hq := by
    obtain ⟨before, after, rfl, hstart⟩ := exists_split_of_mem hq
    simp only [Slice.stop, hstart, Nat.zero_add, List.flatMap_append, List.flatMap_cons]
    rw [← List.append_assoc, ← List.length_append, List.take_left, List.drop_left]
  nonempty q hq := by
    obtain ⟨before, after, rfl, -⟩ := exists_split_of_mem hq
    have hpos := List.length_pos_iff.2 (hps q.piece (by simp))
    unfold Slice.stop
    omega
  bounded q hq := by
    obtain ⟨before, after, rfl, hstart⟩ := exists_split_of_mem hq
    simp only [Slice.stop, hstart, List.flatMap_append, List.flatMap_cons, List.length_append]
    omega
  increasing := pairwise_slices 0 ps
  covered i hi := existsUnique_slice (Nat.zero_le i) (by simpa using hi)

/-! ## The pieces in their places -/

/-- A piece as the scanner places it is a slice of a text. -/
structure PlacedPiece.At (s : List Char) (p : PlacedPiece) (q : Slice) : Prop where
  piece : p.piece = q.piece
  start : p.start = Position.after {} (s.take q.start)
  stop : p.stop = Position.after {} (s.take q.stop)

/-- The pieces as the scanner places them are the slices of the text, what is before them
included. -/
theorem forall₂_place (before : List Char) (ps : List Piece) :
    List.Forall₂ (PlacedPiece.At (before ++ ps.flatMap Piece.text))
      (PlacedPiece.place (Position.after {} before) ps) (slices before.length ps) := by
  induction ps generalizing before with
  | nil => exact .nil
  | cons p ps ih =>
    have hsplit : before ++ (p :: ps).flatMap Piece.text =
        (before ++ p.text) ++ ps.flatMap Piece.text := by
      rw [List.flatMap_cons, List.append_assoc]
    have hrest := ih (before ++ p.text)
    rw [Position.after_append, List.length_append] at hrest
    rw [hsplit]
    refine .cons ⟨rfl, ?_, ?_⟩ hrest
    · rw [List.append_assoc, List.take_left]
    · rw [Slice.stop, ← List.length_append, List.take_left, Position.after_append]

theorem forall₂_filter {α β γ : Type} {R : α → β → Prop} {S : γ → β → Prop} {f : α → Option γ}
    {test : β → Bool} {l : List α} {m : List β} (h : List.Forall₂ R l m)
    (hsome : ∀ a b c, R a b → f a = some c → test b ∧ S c b)
    (hnone : ∀ a b, R a b → f a = none → test b = false) :
    List.Forall₂ S (l.filterMap f) (m.filter test) := by
  induction h with
  | nil => exact .nil
  | @cons a b l m hab _ ih =>
    cases hf : f a with
    | some c =>
      obtain ⟨htest, hc⟩ := hsome a b c hab hf
      rw [List.filterMap_cons_some hf, List.filter_cons_of_pos htest]
      exact .cons hc ih
    | none =>
      have htest := hnone a b hab hf
      rw [List.filterMap_cons_none hf, List.filter_cons_of_neg (by simp [htest])]
      exact ih

/-- The token of a slice of a text. -/
structure Token.At (s : List Char) (t : Token) (q : Slice) : Prop where
  kind : q.piece.kind = .token t.kind
  lexeme : t.lexeme.toList = q.piece.text
  line : t.line = (Position.after {} (s.take q.stop)).line
  column : t.column = (Position.after {} (s.take q.start)).column

/-- The report of a slice of a text. -/
structure Report.At (s : List Char) (r : Report) (q : Slice) : Prop where
  fault : ∃ e, q.piece.kind = .fault e ∧ r.problem = .scan e
  place : r.place = .unplaced
  line : r.line = (Position.after {} (s.take q.stop)).line

/-- The tokens of a text are its slices that are tokens. -/
theorem forall₂_tokens (s : List Char) :
    List.Forall₂ (Token.At s) (scanChars s).tokens
      ((slices 0 (Piece.ofText s)).filter Slice.isToken) := by
  have hplaced := forall₂_place [] (Piece.ofText s)
  rw [Piece.text_ofText] at hplaced
  refine forall₂_filter hplaced (fun p q t hpq ht => ?_) fun p q hpq hnone => ?_
  · unfold PlacedPiece.token? at ht
    split at ht
    · next kind hkind =>
      cases ht
      rw [hpq.piece] at hkind
      exact ⟨by simp [Slice.isToken, hkind],
        ⟨hkind, by simp [hpq.piece], by simp [hpq.stop], by simp [hpq.start]⟩⟩
    · cases ht
  · unfold PlacedPiece.token? at hnone
    split at hnone
    · cases hnone
    · next hkind =>
      rw [hpq.piece] at hkind
      unfold Slice.isToken
      split
      · next kind h => exact absurd h (hkind kind)
      · rfl

/-- The reports of a text are its slices that are faulty. -/
theorem forall₂_reports (s : List Char) :
    List.Forall₂ (Report.At s) (scanChars s).reports
      ((slices 0 (Piece.ofText s)).filter Slice.isFault) := by
  have hplaced := forall₂_place [] (Piece.ofText s)
  rw [Piece.text_ofText] at hplaced
  refine forall₂_filter hplaced (fun p q r hpq hr => ?_) fun p q hpq hnone => ?_
  · unfold PlacedPiece.report? at hr
    split at hr
    · next e hkind =>
      cases hr
      rw [hpq.piece] at hkind
      exact ⟨by simp [Slice.isFault, hkind], ⟨⟨e, hkind, rfl⟩, rfl, by simp [hpq.stop]⟩⟩
    · cases hr
  · unfold PlacedPiece.report? at hnone
    split at hnone
    · cases hnone
    · next hkind =>
      rw [hpq.piece] at hkind
      unfold Slice.isFault
      split
      · next e h => exact absurd h (hkind e)
      · rfl

/-! ## What the pieces are -/

theorem Segmentation.munch_of_split {before after : List Piece} {p : Piece}
    (h : Segmentation (before ++ p :: after)) : p.Munch (after.flatMap Piece.text) := by
  induction before with
  | nil =>
    cases h with
    | cons h _ => exact h
  | cons q before ih =>
    cases h with
    | cons _ h => exact ih h

/-- What may stand between the tokens of a text. -/
inductive Outside (s : List Char) : Slice → Prop where
  | blank {c : Char} {i : Nat} (h : c ∈ [' ', '\t', '\r', '\n']) : Outside s ⟨⟨.blank, [c]⟩, i⟩
  | comment {u : List Char} {i : Nat} (h : Lexical .comment u) : Outside s ⟨⟨.comment, u⟩, i⟩
  | unexpected {c : Char} {i : Nat} (h : ∀ kind, ¬ Lexical kind [c]) :
      Outside s ⟨⟨.fault .unexpectedCharacter, [c]⟩, i⟩
  /-- What is not closed reaches the end of the text. -/
  | unclosed {e : ScanError} {u : List Char} {i : Nat} (h : Unclosed e u)
      (hend : i + u.length = s.length) : Outside s ⟨⟨.fault e, u⟩, i⟩

/-- What is no token in a segmentation stands between tokens. -/
theorem Segmentation.outside_of_mem (hs : Segmentation ps) (hq : q ∈ slices 0 ps)
    (hkind : q.isToken = false) : Outside (ps.flatMap Piece.text) q := by
  obtain ⟨before, after, rfl, hstart⟩ := exists_split_of_mem hq
  obtain ⟨p, start⟩ := q
  have hmunch := hs.munch_of_split
  dsimp only at hstart hmunch
  generalize hmore : after.flatMap Piece.text = more at hmunch
  cases hmunch with
  | longest h _ =>
    cases h with
    | @lexical kind u h =>
      cases kind with
      | token kind => cases hkind
      | blank =>
        cases h with
        | blank h => exact .blank h
      | comment => exact .comment h
      | fault e => cases h
    | unclosed h =>
      refine .unclosed h ?_
      simp [hstart, hmore]
  | unexpected h => exact .unexpected fun kind hlexical => h _ _ (.lexical hlexical more) rfl

/-- The tokens of a text are lexemes of the grammar. -/
theorem lexical_of_mem {source : String} {t : Token} (ht : t ∈ (scan source).tokens) :
    Lexical (.token t.kind) t.lexeme.toList := by
  obtain ⟨more, h⟩ := Token.reads_piece ht
  exact h.lexical rfl

/-- A lexeme that is read with nothing behind it is of one kind only. -/
theorem Lexical.kind_eq {k k' : PieceKind} {s : List Char} (h : Lexical k s)
    (h' : Lexical k' s) : k = k' := by
  -- nothing longer than the whole text is read, so both are what is read of it
  have hreads : ∀ {k}, Lexical k s → Piece.Reads ⟨k, s⟩ [] := by
    intro k h
    rcases (Piece.Allowed.lexical h []).reads_or_longer with h | ⟨r, rest, -, htext, hlonger⟩
    · exact h
    · have hlength := congrArg List.length htext
      simp only [List.length_append, List.length_nil] at hlength hlonger
      omega
  exact congrArg Piece.kind ((hreads h).eq_of_text (hreads h') rfl).1

/-! ## The values of numbers -/

/-- The number that a digit stands for. -/
def digitValue (c : Char) : Nat := c.toNat - '0'.toNat

/-- The number that digits write in the decimal system, the last digit being the units. -/
def digitsValue (ds : List Char) : Nat := Nat.ofDigits 10 (ds.reverse.map digitValue)

/-- The number that a lexeme writes: its digits before the point, and those behind it as a
decimal fraction. -/
def decimalValue (s : List Char) : ℚ :=
  let fraction := (s.dropWhile (· ≠ '.')).tail
  digitsValue (s.takeWhile (· ≠ '.')) + digitsValue fraction / 10 ^ fraction.length

theorem digitsValue_append (ds fs : List Char) :
    digitsValue (ds ++ fs) = digitsValue fs + 10 ^ fs.length * digitsValue ds := by
  rw [digitsValue, List.reverse_append, List.map_append, Nat.ofDigits_append]
  simp [digitsValue]

theorem natOfDigits_eq (ds : List Char) : natOfDigits ds = digitsValue ds := by
  induction ds using List.reverseRecOn with
  | nil => rfl
  | append_singleton ds d ih =>
    have hstep : natOfDigits (ds ++ [d]) = 10 * natOfDigits ds + digitValue d := by
      simp [natOfDigits, digitValue]
    rw [hstep, ih, digitsValue_append, Nat.add_comm]
    simp [digitsValue]

/-- The digits of a number as those before its point and those behind it. -/
theorem decimalValue_append {ds : List Char} (h : ∀ d ∈ ds, IsDigit d) (fs : List Char) :
    decimalValue ds = digitsValue ds ∧
      decimalValue (ds ++ '.' :: fs) = digitsValue ds + digitsValue fs / 10 ^ fs.length := by
  have hne : ∀ d ∈ ds, decide (d ≠ '.') := by
    rintro d hd
    refine decide_eq_true ?_
    rintro rfl
    exact absurd (isDigit_iff.2 (h _ hd)) (by decide)
  have htake : ds.takeWhile (· ≠ '.') = ds := List.takeWhile_eq_self_iff.2 hne
  have hdrop : ds.dropWhile (· ≠ '.') = [] := List.dropWhile_eq_nil_iff.2 hne
  obtain ⟨htake', hdrop'⟩ := Piece.takeWhile_run hne ('.' :: fs)
  constructor
  · simp only [decimalValue, htake, hdrop]
    simp [digitsValue]
  · simp only [decimalValue, htake', hdrop']
    simp

/-- The value of a number as that of its lexeme: an integer and a power of ten. -/
theorem numberValue_eq (ds fs : List Char) :
    ∃ m e : Nat, numberValue ds fs = Float.ofScientific m true e ∧
      (m : ℚ) / 10 ^ e = digitsValue ds + digitsValue fs / 10 ^ fs.length := by
  refine ⟨natOfDigits (ds ++ fs), fs.length, rfl, ?_⟩
  rw [natOfDigits_eq, digitsValue_append]
  push_cast
  field_simp
  ring

theorem Lexical.number_eq {v : Float} {s : List Char} (h : Lexical (.token (.number v)) s) :
    ∃ m e : Nat, v = Float.ofScientific m true e ∧ (m : ℚ) / 10 ^ e = decimalValue s := by
  cases h with
  | whole hne h =>
    obtain ⟨m, e, hv, hvalue⟩ := numberValue_eq s []
    refine ⟨m, e, hv, hvalue.trans ?_⟩
    rw [(decimalValue_append h []).1]
    simp [digitsValue]
  | @decimal ds fs hne h hne' h' =>
    obtain ⟨m, e, hv, hvalue⟩ := numberValue_eq ds fs
    exact ⟨m, e, hv, hvalue.trans (decimalValue_append h fs).2.symm⟩

/-! ## The segmentation of a text -/

/-- The tokens and the reports of a text are slices of its only segmentation: what is not in a
token is a blank, in a comment, or reported once. -/
theorem scan_segmentation (source : String) :
    ∃ ps : List Piece,
      (∀ qs, Segmentation qs ∧ qs.flatMap Piece.text = source.toList ↔ qs = ps) ∧
      Partition source.toList (slices 0 ps) ∧
      -- the tokens, and the one that ends the input
      List.Forall₂ (fun t q => q.piece.kind = .token t.kind ∧ t.lexeme.toList = q.piece.text)
        (scan source).tokens ((slices 0 ps).filter Slice.isToken) ∧
      ((scan source).all = (scan source).tokens ++ [(scan source).finish] ∧
        (scan source).finish.kind = .endOfInput ∧ (scan source).finish.lexeme = "" ∧
        ∀ t ∈ (scan source).tokens, t.kind ≠ .endOfInput) ∧
      -- the reports, and what is neither a token nor reported
      List.Forall₂ (fun r q => ∃ e, q.piece.kind = .fault e ∧ r.problem = .scan e)
        (scan source).reports ((slices 0 ps).filter Slice.isFault) ∧
      (∀ q ∈ slices 0 ps, q.isToken = false → Outside source.toList q) ∧
      -- the kinds and the values of the tokens
      (∀ t ∈ (scan source).tokens, Lexical (.token t.kind) t.lexeme.toList ∧
        (NameShaped t.lexeme.toList → ∀ k, t.kind = .keyword k ↔ t.lexeme = k.text) ∧
        ∀ v, t.kind = .number v → ∃ m e : Nat, v = Float.ofScientific m true e ∧
          (m : ℚ) / 10 ^ e = decimalValue t.lexeme.toList) := by
  have hseg : Segmentation (Piece.ofText source.toList) ∧ _ := segmentation_iff.2 rfl
  refine ⟨Piece.ofText source.toList, fun qs => segmentation_iff, ?_, ?_, ?_, ?_, ?_, ?_⟩
  · have hpartition : Partition _ (slices 0 (Piece.ofText source.toList)) :=
      partition_slices fun p hp => Piece.text_ne_nil_of_mem hp
    rwa [hseg.2] at hpartition
  · exact (forall₂_tokens source.toList).imp fun t q h => ⟨h.kind, h.lexeme⟩
  · refine ⟨rfl, rfl, rfl, fun t ht hend => ?_⟩
    have hlexical := lexical_of_mem ht
    rw [hend] at hlexical
    cases hlexical
  · exact (forall₂_reports source.toList).imp fun r q h => h.fault
  · intro q hq hkind
    have houtside := hseg.1.outside_of_mem hq hkind
    rwa [hseg.2] at houtside
  · intro t ht
    have hlexical := lexical_of_mem ht
    refine ⟨hlexical, fun hshape k => ⟨fun hk => ?_, fun hk => ?_⟩, fun v hv => ?_⟩
    · rw [hk] at hlexical
      generalize hu : t.lexeme.toList = u at hlexical
      cases hlexical
      exact String.toList_injective hu
    · -- a lexeme has one kind, and the text of a keyword is that keyword
      have hkeyword := Lexical.keyword k
      rw [← hk] at hkeyword
      exact PieceKind.token.inj (hlexical.kind_eq hkeyword)
    · rw [hv] at hlexical
      exact hlexical.number_eq

end Lox
