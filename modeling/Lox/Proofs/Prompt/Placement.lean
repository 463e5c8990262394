import Lox.Prompt.Highlight
import Lox.Proofs.Scan.Segmentation

/-!
# Where tokens are highlighted

A token is styled where its lexeme next occurs, though the scanner knows where it stands. Between
two tokens the lexeme of the second can start to occur only in a comment: a blank or an unexpected
character is read where no token can be, and nothing stands behind what is not closed. So every
token of a line is styled where it stands, unless a comment misleads the search for the token
behind it.

## Main definitions

* `Prompt.InPlace`: the tokens of a line are styled where they stand, and nothing else is
* `Prompt.placed`: the fragments of a line by the places of its pieces
* `Prompt.Misled`: a comment misleads the search for a token

## Main results

* `Piece.Reads.not_lexeme`: no lexeme occurs where a piece that is no token is read, unless it is
  shorter
* `Prompt.fragments_eq_iff`: the fragments of what is left of a line
* `Prompt.highlight_inPlace`: where the tokens of a line are styled
-/

namespace Lox

/-- In a text without line feeds a column counts characters. -/
theorem Position.column_after {s : List Char} (hs : '\n' ∉ s) (p : Position) :
    (p.after s).column = p.column + s.length := by
  induction s generalizing p with
  | nil => rfl
  | cons c s ih =>
    rw [List.mem_cons, not_or] at hs
    obtain ⟨hc, hs⟩ := hs
    have hstep : p.step c = ⟨p.line, p.column + 1⟩ := if_neg (Ne.symm hc)
    show ((p.step c).after s).column = _
    rw [ih hs, hstep, List.length_cons, Nat.add_assoc, Nat.add_comm 1]

namespace Piece

/-- Whether a piece is a token. -/
def isToken (p : Piece) : Bool :=
  match p.kind with
  | .token _ => true
  | _ => false

variable {p : Piece} {ps : List Piece} {more t : List Char} {k : TokenKind}

theorem isToken_iff : p.isToken ↔ ∃ k, p.kind = .token k := by
  unfold isToken
  split
  · next k h => simp [h]
  · next h => simpa using h

/-- No lexeme occurs where a piece that is no token is read, unless it is shorter. -/
theorem Reads.not_lexeme (h : p.Reads more) (hp : p.isToken = false)
    (ht : Lexical (.token k) t) (hlength : p.text.length ≤ t.length) : ¬ t <+: p.text ++ more := by
  rintro ⟨rest, hrest⟩
  -- the lexeme or something longer would be read in place of the piece
  rcases (Allowed.lexical ht rest).reads_or_longer with hreads | ⟨q, rest', hq, htext, hlonger⟩
  · obtain ⟨rfl, -⟩ := h.eq_of_text hreads hrest.symm
    cases hp
  · obtain ⟨rfl, -⟩ := h.eq_of_text hq (hrest.symm.trans htext.symm)
    exact Nat.not_lt.2 hlength hlonger

end Piece

namespace PlacedPiece

variable {p : Piece} {k : TokenKind}

theorem tokens_of_token (hk : p.kind = .token k) (pos : Position) (ps : List Piece) :
    (place pos (p :: ps)).filterMap token? =
      ⟨k, String.ofList p.text, (pos.after p.text).line, pos.column⟩ ::
        (place (pos.after p.text) ps).filterMap token? := by
  simp [place, token?, hk]

theorem tokens_of_not_token (hp : p.isToken = false) (pos : Position) (ps : List Piece) :
    (place pos (p :: ps)).filterMap token? = (place (pos.after p.text) ps).filterMap token? := by
  unfold Piece.isToken at hp
  split at hp
  · cases hp
  · simp [place, token?]

end PlacedPiece

namespace Prompt

variable {line g s : List Char} {before : List TokenKind} {p : Piece} {ps : List Piece}
  {k : TokenKind}

/-! ## The search for a lexeme -/

/-- A text starts to occur in another, before what follows that. -/
def StartsIn (needle u rest : List Char) : Prop :=
  ∃ v w, u = v ++ w ∧ w ≠ [] ∧ needle <+: w ++ rest

section

variable {needle u v rest : List Char} {c : Char}

theorem not_startsIn_nil : ¬ StartsIn needle [] rest := by
  rintro ⟨v, w, hnil, hw, -⟩
  exact hw (List.append_eq_nil_iff.1 hnil.symm).2

theorem startsIn_cons :
    StartsIn needle (c :: u) rest ↔ needle <+: c :: (u ++ rest) ∨ StartsIn needle u rest := by
  constructor
  · rintro ⟨v, w, hsplit, hw, hfront⟩
    cases v with
    | nil =>
      obtain rfl : c :: u = w := hsplit
      exact .inl hfront
    | cons d v =>
      obtain ⟨rfl, rfl⟩ := List.cons.inj hsplit
      exact .inr ⟨v, w, rfl, hw, hfront⟩
  · rintro (hfront | ⟨v, w, rfl, hw, hfront⟩)
    · exact ⟨[], c :: u, rfl, List.cons_ne_nil _ _, hfront⟩
    · exact ⟨c :: v, w, rfl, hw, hfront⟩

theorem startsIn_append : StartsIn needle (u ++ v) rest ↔
    StartsIn needle u (v ++ rest) ∨ StartsIn needle v rest := by
  induction u with
  | nil => simp [not_startsIn_nil]
  | cons c u ih =>
    rw [List.cons_append, startsIn_cons, startsIn_cons, ih, or_assoc, List.append_assoc]

theorem findIn_self (needle rest : List Char) :
    findIn needle (needle ++ rest) = some ([], rest) := by
  cases needle with
  | nil => cases rest <;> rfl
  | cons c needle =>
    have hfront : (c :: needle).isPrefixOf (c :: (needle ++ rest)) = true :=
      List.isPrefixOf_iff_prefix.2 (List.prefix_append _ _)
    simp only [List.cons_append, findIn, hfront, if_true]
    simp

/-- A text is found where it stands if it does not start to occur before. -/
theorem findIn_of_not_startsIn (h : ¬ StartsIn needle u (needle ++ rest)) :
    findIn needle (u ++ (needle ++ rest)) = some (u, rest) := by
  induction u with
  | nil => exact findIn_self needle rest
  | cons c u ih =>
    rw [startsIn_cons, not_or] at h
    have hfront : ¬ needle.isPrefixOf (c :: (u ++ (needle ++ rest))) = true :=
      fun hp => h.1 (List.isPrefixOf_iff_prefix.1 hp)
    rw [List.cons_append, findIn, if_neg hfront, ih h.2]
    rfl

/-- A text that starts to occur is found there or earlier. -/
theorem findIn_of_startsIn (h : StartsIn needle u rest) :
    ∃ a b, findIn needle (u ++ rest) = some (a, b) ∧ a.length < u.length := by
  induction u with
  | nil => exact absurd h not_startsIn_nil
  | cons c u ih =>
    rw [List.cons_append, findIn]
    split
    · exact ⟨_, _, rfl, Nat.succ_pos _⟩
    · next hfront =>
      rcases startsIn_cons.1 h with hfirst | hrest
      · exact absurd (List.isPrefixOf_iff_prefix.2 hfirst) hfront
      · obtain ⟨a, b, hfind, hlength⟩ := ih hrest
        exact ⟨c :: a, b, by rw [hfind]; rfl, Nat.succ_lt_succ hlength⟩

end

/-! ## Tokens in their places -/

/-- The fragments of a line show every token where it stands: there is a fragment for it that starts
at its column, has its lexeme and is styled by its group, and nothing but tokens is styled. -/
structure InPlace (line : List Char) (fragments : List Fragment) : Prop where
  /-- The fragments make up the line. -/
  text : fragments.flatMap Fragment.text = line
  /-- The fragment of a token. -/
  token : ∀ before t after, (scanChars line).tokens = before ++ t :: after → ∃ fs gs,
    fragments = fs ++
      ⟨(groupOf (before.map Token.kind).reverse t.kind).style, t.lexeme.toList⟩ :: gs ∧
    (fs.flatMap Fragment.text).length + 1 = t.column
  /-- A fragment with a style is that of a token. -/
  rest : ∀ fs f gs, fragments = fs ++ f :: gs → f.style = "" ∨
    ∃ t ∈ (scanChars line).tokens, (fs.flatMap Fragment.text).length + 1 = t.column ∧
      f.text = t.lexeme.toList

/-- The fragments of pieces, after characters that are in no token: each token is styled, and what
stands between two tokens is one fragment. -/
def placedFrom (gap : List Char) (before : List TokenKind) : List Piece → List Fragment
  | [] => plain gap
  | p :: ps =>
    match p.kind with
    | .token k => plain gap ++ ⟨(groupOf before k).style, p.text⟩ :: placedFrom [] (k :: before) ps
    | _ => placedFrom (gap ++ p.text) before ps

/-- The fragments of a line by the places of its pieces. -/
def placed (line : List Char) : List Fragment :=
  match line with
  | [] => [⟨"", []⟩]
  | _ => placedFrom [] [] (Piece.ofText line)

theorem placedFrom_of_token (hk : p.kind = .token k) : placedFrom g before (p :: ps) =
    plain g ++ ⟨(groupOf before k).style, p.text⟩ :: placedFrom [] (k :: before) ps := by
  simp only [placedFrom, hk]

theorem placedFrom_of_not_token (hp : p.isToken = false) :
    placedFrom g before (p :: ps) = placedFrom (g ++ p.text) before ps := by
  unfold Piece.isToken at hp
  split at hp
  · cases hp
  · next hk => simp only [placedFrom]

@[simp] theorem text_plain (s : List Char) : (plain s).flatMap Fragment.text = s := by
  unfold plain
  split
  · next h => exact h.symm
  · simp

theorem style_of_mem_plain {f : Fragment} (hf : f ∈ plain s) : f.style = "" := by
  unfold plain at hf
  split at hf
  · cases hf
  · cases List.mem_singleton.1 hf
    rfl

theorem text_placedFrom (g : List Char) (before : List TokenKind) (ps : List Piece) :
    (placedFrom g before ps).flatMap Fragment.text = g ++ ps.flatMap Piece.text := by
  induction ps generalizing g before with
  | nil => simp [placedFrom]
  | cons p ps ih =>
    cases hp : p.isToken with
    | true =>
      obtain ⟨k, hk⟩ := Piece.isToken_iff.1 hp
      simp [placedFrom_of_token hk, ih]
    | false => simp [placedFrom_of_not_token hp, ih]

/-- Each token has a fragment of its own at its column. -/
theorem placedFrom_token (g : List Char) (before : List TokenKind)
    (hline : '\n' ∉ ps.flatMap Piece.text) {pos : Position} {ts us : List Token} {t : Token}
    (h : (PlacedPiece.place pos ps).filterMap PlacedPiece.token? = ts ++ t :: us) : ∃ fs gs,
      placedFrom g before ps = fs ++
        ⟨(groupOf ((ts.map Token.kind).reverse ++ before) t.kind).style, t.lexeme.toList⟩ :: gs ∧
      pos.column + (fs.flatMap Fragment.text).length = t.column + g.length := by
  -- the scanner is ahead of the fragments by the characters that are in no token
  induction ps generalizing pos g before ts with
  | nil => cases ts <;> cases h
  | cons p ps ih =>
    rw [List.flatMap_cons, List.mem_append, not_or] at hline
    have hcolumn := Position.column_after hline.1 pos
    cases hp : p.isToken with
    | false =>
      rw [PlacedPiece.tokens_of_not_token hp] at h
      obtain ⟨fs, gs, hsplit, hlength⟩ := ih (g ++ p.text) before hline.2 h
      refine ⟨fs, gs, (placedFrom_of_not_token hp).trans hsplit, ?_⟩
      rw [hcolumn, List.length_append] at hlength
      omega
    | true =>
      obtain ⟨k, hk⟩ := Piece.isToken_iff.1 hp
      rw [PlacedPiece.tokens_of_token hk] at h
      rw [placedFrom_of_token hk]
      cases ts with
      | nil =>
        obtain ⟨rfl, rfl⟩ := List.cons.inj h
        exact ⟨plain g, placedFrom [] (k :: before) ps, by simp, by simp⟩
      | cons t' ts =>
        obtain ⟨rfl, hrest⟩ := List.cons.inj h
        obtain ⟨fs, gs, hsplit, hlength⟩ := ih [] (k :: before) hline.2 hrest
        refine ⟨plain g ++ ⟨(groupOf before k).style, p.text⟩ :: fs, gs, by simp [hsplit], ?_⟩
        rw [hcolumn, List.length_nil] at hlength
        simp only [List.flatMap_append, List.flatMap_cons, text_plain, List.length_append]
        omega

/-- A fragment with a style is that of a token. -/
theorem placedFrom_rest (hline : '\n' ∉ ps.flatMap Piece.text) (pos : Position)
    {fs gs : List Fragment} {f : Fragment} (h : placedFrom g before ps = fs ++ f :: gs) :
    f.style = "" ∨ ∃ t ∈ (PlacedPiece.place pos ps).filterMap PlacedPiece.token?,
      pos.column + (fs.flatMap Fragment.text).length = t.column + g.length ∧
      f.text = t.lexeme.toList := by
  induction ps generalizing pos g before fs with
  | nil =>
    have hmem : f ∈ plain g := by
      rw [placedFrom] at h
      simp [h]
    exact .inl (style_of_mem_plain hmem)
  | cons p ps ih =>
    rw [List.flatMap_cons, List.mem_append, not_or] at hline
    have hcolumn := Position.column_after hline.1 pos
    cases hp : p.isToken with
    | false =>
      rw [placedFrom_of_not_token hp] at h
      rcases ih hline.2 (pos.after p.text) h with hstyle | ⟨t, ht, hlength, htext⟩
      · exact .inl hstyle
      · refine .inr ⟨t, by rwa [PlacedPiece.tokens_of_not_token hp], ?_, htext⟩
        rw [hcolumn, List.length_append] at hlength
        omega
    | true =>
      obtain ⟨k, hk⟩ := Piece.isToken_iff.1 hp
      rw [placedFrom_of_token hk] at h
      rw [PlacedPiece.tokens_of_token hk]
      -- the fragment is before the token, that of the token, or behind it
      rcases List.append_eq_append_iff.1 h with ⟨as, rfl, has⟩ | ⟨bs, hplain, hbs⟩
      · cases as with
        | nil =>
          obtain ⟨rfl, -⟩ := List.cons.inj has
          exact .inr ⟨_, .head _, by simp, by simp⟩
        | cons a as =>
          obtain ⟨rfl, hrest⟩ := List.cons.inj has
          rcases ih hline.2 (pos.after p.text) hrest with hstyle | ⟨t, ht, hlength, htext⟩
          · exact .inl hstyle
          · refine .inr ⟨t, .tail _ ht, ?_, htext⟩
            rw [hcolumn, List.length_nil] at hlength
            simp only [List.flatMap_append, List.flatMap_cons, text_plain, List.length_append]
            omega
      · cases bs with
        | nil =>
          obtain ⟨rfl, -⟩ := List.cons.inj hbs
          rw [List.append_nil] at hplain
          exact .inr ⟨_, .head _, by simp [← hplain], by simp⟩
        | cons b bs =>
          obtain ⟨rfl, -⟩ := List.cons.inj hbs
          exact .inl (style_of_mem_plain (s := g) (by simp [hplain]))

/-- By their places tokens are styled where they stand. -/
theorem placed_inPlace (hline : '\n' ∉ line) : InPlace line (placed line) := by
  cases line with
  | nil =>
    have hnone : (scanChars []).tokens = [] := by
      simp [scanChars, Piece.ofText, PlacedPiece.place]
    refine ⟨rfl, fun before t after h => ?_, fun fs f gs h => .inl ?_⟩
    · simp [hnone] at h
    · have hmem : f ∈ placed [] := by simp [h]
      cases List.mem_singleton.1 hmem
      rfl
  | cons c s =>
    have htext : (Piece.ofText (c :: s)).flatMap Piece.text = c :: s := Piece.text_ofText _
    rw [← htext] at hline
    refine ⟨(text_placedFrom _ _ _).trans htext, fun before t after h => ?_, fun fs f gs h => ?_⟩
    · obtain ⟨fs, gs, hsplit, hlength⟩ := placedFrom_token [] [] hline h
      rw [List.append_nil] at hsplit
      refine ⟨fs, gs, hsplit, ?_⟩
      simpa [Nat.add_comm] using hlength
    · rcases placedFrom_rest hline {} h with hstyle | ⟨t, ht, hlength, htext⟩
      · exact .inl hstyle
      · refine .inr ⟨t, ht, ?_, htext⟩
        simpa [Nat.add_comm] using hlength

/-! ## Where the search goes wrong -/

/-- A comment misleads the search for the token behind it: the lexeme of that token starts to occur
in the comment. -/
def Misleads (r : Piece) (rest : List Piece) : Prop :=
  r.kind = .comment ∧ ∃ t ∈ rest.find? Piece.isToken,
    StartsIn t.text r.text (rest.flatMap Piece.text)

/-- One of some pieces misleads the search for the token behind it. -/
def Misled (ps : List Piece) : Prop :=
  ∃ before r after, ps = before ++ r :: after ∧ Misleads r after

theorem not_misled_nil : ¬ Misled [] := by
  rintro ⟨before, r, after, h, -⟩
  cases before <;> cases h

theorem misled_cons : Misled (p :: ps) ↔ Misleads p ps ∨ Misled ps := by
  constructor
  · rintro ⟨before, r, after, h, hr⟩
    cases before with
    | nil =>
      obtain ⟨rfl, rfl⟩ := List.cons.inj h
      exact .inl hr
    | cons q before =>
      obtain ⟨rfl, rfl⟩ := List.cons.inj h
      exact .inr ⟨before, r, after, rfl, hr⟩
  · rintro (hp | ⟨before, r, after, rfl, hr⟩)
    · exact ⟨[], p, ps, rfl, hp⟩
    · exact ⟨p :: before, r, after, rfl, hr⟩

/-- The first token of what is left starts to occur only where it stands. -/
def Clear (gap : List Char) (ps : List Piece) : Prop :=
  ∀ t ∈ ps.find? Piece.isToken, ¬ StartsIn t.text gap (ps.flatMap Piece.text)

/-- Characters that are in no token start with a piece of their own. -/
def Opens (gap s : List Char) : Prop :=
  gap = [] ∨ ∃ (p : Piece) (more : List Char), p.Reads more ∧ p.isToken = false ∧
    p.text ++ more = gap ++ s ∧ p.text.length ≤ gap.length

/-- No lexeme starts to occur in a piece that is no token, unless that is a comment. -/
theorem misleads_of_startsIn (hps : Piece.Readable ps) (h : p.Reads (ps.flatMap Piece.text))
    (hp : p.isToken = false) {t : Piece} (ht : t ∈ ps.find? Piece.isToken)
    (hstarts : StartsIn t.text p.text (ps.flatMap Piece.text)) : Misleads p ps := by
  have hmem : t ∈ ps := List.mem_of_find?_eq_some ht
  obtain ⟨k, hk⟩ := Piece.isToken_iff.1 (List.find?_some ht)
  obtain ⟨more, hreads⟩ := Piece.reads_of_mem hps hmem
  have hlexical := hreads.lexical hk
  have hne : t.text ≠ [] := by
    obtain ⟨c, u, htext, -⟩ := hreads
    simp [htext]
  -- a single character is a piece of its own
  have hsingle : ∀ c, p.text ≠ [c] := by
    intro c hc
    rw [hc, startsIn_cons] at hstarts
    rcases hstarts with hfront | hnil
    · refine h.not_lexeme hp hlexical ?_ (by rwa [hc])
      rw [hc]
      exact List.length_pos_iff.2 hne
    · exact not_startsIn_nil hnil
  -- what is not closed has no token behind it
  have hrest : ps.flatMap Piece.text ≠ [] := fun hnil => hne (List.flatMap_eq_nil_iff.1 hnil t hmem)
  refine ⟨?_, t, ht, hstarts⟩
  have hallowed := h.allowed
  generalize ps.flatMap Piece.text = more at hallowed hrest
  rcases hallowed with hallowed | ⟨c, rfl⟩
  · cases hallowed with
    | @lexical kind s hkind =>
      cases kind with
      | comment => rfl
      | token k => cases hp
      | blank =>
        cases hkind with
        | blank hc => exact absurd rfl (hsingle _)
      | fault e => cases hkind
    | unclosed _ => exact absurd rfl hrest
  · exact absurd rfl (hsingle c)

/-- What stands before a token can be read off the fragments, unless it looks like the token. -/
theorem plain_append_inj {a : List Char} {f : Fragment} {fs gs : List Fragment} (hg : g ≠ [])
    (h : plain a ++ f :: fs = plain g ++ f :: gs) : a = g ∨ a = [] ∧ f.text = g := by
  have hplain : plain g = [⟨"", g⟩] := if_neg hg
  rw [hplain] at h
  by_cases ha : a = []
  · subst ha
    obtain ⟨rfl, -⟩ := List.cons.inj (show f :: fs = _ :: _ from h)
    exact .inr ⟨rfl, rfl⟩
  · have hplain' : plain a = [⟨"", a⟩] := if_neg ha
    rw [hplain'] at h
    exact .inl (Fragment.mk.inj (List.cons.inj h).1).2

/-- Characters that are in no token are no lexeme. -/
theorem Opens.ne {t : List Char} (h : Opens g s) (ht : Lexical (.token k) t)
    (hfront : t <+: g ++ s) : t ≠ g ∨ g = [] := by
  rcases h with hnil | ⟨p, more, hreads, hp, htext, hlength⟩
  · exact .inr hnil
  · refine .inl ?_
    rintro rfl
    exact hreads.not_lexeme hp ht hlength (htext ▸ hfront)

/-- With one more piece that is no token. -/
theorem Opens.append (h : Opens g (p.text ++ s)) (hreads : p.Reads s) (hp : p.isToken = false) :
    Opens (g ++ p.text) s := by
  refine .inr ?_
  rcases h with rfl | ⟨q, more, hq, hqt, htext, hlength⟩
  · exact ⟨p, s, hreads, hp, rfl, Nat.le_refl _⟩
  · refine ⟨q, more, hq, hqt, by rw [htext, List.append_assoc], ?_⟩
    rw [List.length_append]
    omega

theorem clear_append (hp : p.isToken = false) : Clear (g ++ p.text) ps ↔
    Clear g (p :: ps) ∧ ∀ t ∈ ps.find? Piece.isToken,
      ¬ StartsIn t.text p.text (ps.flatMap Piece.text) := by
  simp only [Clear, List.find?_cons_of_neg (by simp [hp] : ¬ p.isToken = true), startsIn_append,
    not_or, List.flatMap_cons]
  exact ⟨fun h => ⟨fun t ht => (h t ht).1, fun t ht => (h t ht).2⟩,
    fun h t ht => ⟨h.1 t ht, h.2 t ht⟩⟩

/-- What is left of a line is styled by the places of its pieces just if the search does not go
wrong, neither in what stands behind the last token nor in a comment that is left. -/
theorem fragments_eq_iff (hps : Piece.Readable ps) (hg : Opens g (ps.flatMap Piece.text))
    (before : List TokenKind) (pos : Position) :
    fragments (g ++ ps.flatMap Piece.text) before
        ((PlacedPiece.place pos ps).filterMap PlacedPiece.token?) = placedFrom g before ps ↔
      Clear g ps ∧ ¬ Misled ps := by
  -- what stands behind the last token grows with each piece, up to a token that is found or not
  induction hps generalizing g before pos with
  | nil => simp [PlacedPiece.place, fragments, placedFrom, Clear, not_misled_nil]
  | @cons p ps h hps ih =>
    rw [misled_cons, not_or]
    cases hp : p.isToken with
    | false =>
      rw [List.flatMap_cons] at hg ⊢
      rw [PlacedPiece.tokens_of_not_token hp, placedFrom_of_not_token hp, ← List.append_assoc,
        ih (hg.append h hp), clear_append hp, and_assoc]
      refine and_congr_right fun _ => and_congr_left fun _ => ?_
      constructor
      · rintro hclear ⟨-, t, ht, hstarts⟩
        exact hclear t ht hstarts
      · intro hmisleads t ht hstarts
        exact hmisleads (misleads_of_startsIn hps h hp ht hstarts)
    | true =>
      obtain ⟨k, hk⟩ := Piece.isToken_iff.1 hp
      have hnot : ¬ Misleads p ps := by
        rintro ⟨hcomment, -⟩
        rw [hk] at hcomment
        cases hcomment
      have hclear : Clear g (p :: ps) ↔
          ¬ StartsIn p.text g (p.text ++ ps.flatMap Piece.text) := by
        simp [Clear, hp]
      have hnext := ih (g := []) (.inl rfl) (k :: before) (pos.after p.text)
      have hnil : Clear [] ps := fun t _ => not_startsIn_nil
      rw [List.nil_append] at hnext
      rw [List.flatMap_cons, PlacedPiece.tokens_of_token hk, placedFrom_of_token hk, hclear]
      by_cases hstarts : StartsIn p.text g (p.text ++ ps.flatMap Piece.text)
      · -- the token is found too early, so the first fragment is another
        obtain ⟨a, b, hfind, hlength⟩ := findIn_of_startsIn hstarts
        have hwhole := findIn_append hfind
        have hne : g ≠ [] := by
          rintro rfl
          exact absurd hlength (Nat.not_lt_zero _)
        simp only [fragments, String.toList_ofList, hfind, hstarts, not_true, false_and, iff_false]
        intro heq
        rcases plain_append_inj hne heq with rfl | ⟨rfl, htext⟩
        · exact Nat.lt_irrefl _ hlength
        · have hfront : p.text <+: g ++ (p :: ps).flatMap Piece.text := ⟨b, hwhole⟩
          rcases hg.ne (h.lexical hk) hfront with htext' | hnil
          · exact htext' htext
          · exact hne hnil
      · simp [fragments, findIn_of_not_startsIn hstarts, hstarts, hnot, hnext, hnil]

/-- Where the tokens of a line are styled. By the places of its pieces each is styled where it
stands, and the line is highlighted so unless a comment misleads the search for the token behind
it. -/
theorem highlight_inPlace (hline : '\n' ∉ line) :
    InPlace line (placed line) ∧
      (highlight line = placed line ↔ ¬ Misled (Piece.ofText line)) := by
  refine ⟨placed_inPlace hline, ?_⟩
  cases line with
  | nil =>
    rw [Piece.ofText]
    exact iff_of_true rfl not_misled_nil
  | cons c s =>
    have hfragments := fragments_eq_iff (g := []) (Piece.readable_ofText (c :: s)) (.inl rfl) [] {}
    have hclear : Clear [] (Piece.ofText (c :: s)) := fun t _ => not_startsIn_nil
    rw [List.nil_append, Piece.text_ofText, and_iff_right hclear] at hfragments
    exact hfragments

/-- A comment may have the lexeme of a token that is not the next one behind it. -/
theorem highlight_inPlace_comment :
    let line := "/* nil */ x = nil; // x".toList
    '\n' ∉ line ∧ InPlace line (highlight line) := by
  intro line
  have hline : '\n' ∉ line := by decide +kernel
  have heq : highlight line = placed line := by decide +kernel
  exact ⟨hline, heq ▸ (highlight_inPlace hline).1⟩

/-- A token behind a comment with its lexeme is styled in the comment, and not where it stands. -/
theorem token_styled_in_comment :
    let line := "/* nil */ nil".toList
    '\n' ∉ line ∧ highlight line = [⟨"", "/* ".toList⟩, ⟨"ansicyan", "nil".toList⟩,
      ⟨"", " */ nil".toList⟩] ∧ ¬ InPlace line (highlight line) := by
  intro line
  have heq : highlight line = [⟨"", "/* ".toList⟩, ⟨"ansicyan", "nil".toList⟩,
      ⟨"", " */ nil".toList⟩] := by decide +kernel
  refine ⟨by decide +kernel, heq, fun h => ?_⟩
  have htokens : (scanChars line).tokens = [⟨.keyword .nilWord, "nil", 1, 11⟩] := by decide +kernel
  obtain ⟨fs, gs, hsplit, hlength⟩ := h.token [] _ [] htokens
  rw [heq] at hsplit
  -- the only fragment of the lexeme starts behind three characters
  rcases fs with _ | ⟨f, _ | ⟨f', _ | ⟨f'', fs⟩⟩⟩
  · exact absurd (List.cons.inj hsplit).1 (by decide)
  · obtain ⟨rfl, -⟩ := List.cons.inj hsplit
    exact absurd hlength (by decide)
  · exact absurd (List.cons.inj (List.cons.inj (List.cons.inj hsplit).2).2).1 (by decide)
  · simp at hsplit

end Prompt

end Lox
