import Lox.Scan.Tokens
import Mathlib.Data.List.TakeWhile

/-!
# Where pieces end

How far a piece goes depends on little of what follows it: on whether the next character goes on
with a name, a number, a symbol or a comment, and after a point on the character behind it. So a
piece that is complete stays what it is before any text that looks the same from there, and a
token also before every blank.

## Main definitions

* `Piece.glance`: what can be seen of a text from the piece before it
* `Piece.Bounds`: a text goes on with a token only if another does
* `Piece.Reads`: a piece is the first of a text
* `Piece.Readable`: pieces are those of the text that they make up

## Main results

* `Piece.Reads.of_glance`: a piece before texts that look the same
* `Piece.Reads.of_blank`: a token before a blank
* `Piece.ofText_of_readable`: the pieces of the text that readable pieces make up
-/

theorem List.takeWhile_append_stop {α : Type} {p : α → Bool} (l : List α) {m : List α}
    (hm : m.head?.any p = false) :
    (l.takeWhile p ++ m).takeWhile p = l.takeWhile p ∧ (l.takeWhile p ++ m).dropWhile p = m := by
  have hstop : m.takeWhile p = [] ∧ m.dropWhile p = m := by
    cases m with
    | nil => exact ⟨rfl, rfl⟩
    | cons a m =>
      have ha : p a = false := hm
      simp [ha]
  have hl : ∀ a ∈ l.takeWhile p, p a := fun a ha => List.mem_takeWhile_imp ha
  rw [List.takeWhile_append_of_pos hl, List.dropWhile_append_of_pos hl, hstop.1, hstop.2]
  exact ⟨List.append_nil _, rfl⟩

theorem List.any_head?_dropWhile {α : Type} (p : α → Bool) (l : List α) :
    (l.dropWhile p).head?.any p = false := by
  induction l with
  | nil => rfl
  | cons a l ih =>
    rw [List.dropWhile_cons]
    split
    · exact ih
    · next ha => simpa using ha

namespace Lox

namespace Piece

/-! ## Glances -/

/-- What the first character of a text is to a piece before it: all characters that start a name
are alike, and the end of the text is like the end of a line. -/
def first : List Char → Char
  | [] => '\n'
  | c :: _ => if startsName c then 'a' else c

/-- What can be seen of a text from the piece before it. -/
def glance (s : List Char) : Char × Option Char :=
  (first s, if first s = '.' then some (first s.tail) else none)

/-- A test of the first character that cannot tell those that start a name apart. -/
theorem any_head? {q : Char → Bool} (hend : q '\n' = false)
    (hname : ∀ c, startsName c → q c = q 'a') (s : List Char) : s.head?.any q = q (first s) := by
  cases s with
  | nil => exact hend.symm
  | cons c s =>
    simp only [List.head?_cons, Option.any_some, first]
    split
    · next h => exact hname c h
    · rfl

theorem not_isDigit_of_startsName {c : Char} (h : startsName c) : c.isDigit = false := by
  -- the digits stand before the letters
  have hletter : 'A'.val ≤ c.val ∨ 'a'.val ≤ c.val ∨ c = '_' := by
    rw [startsName, Bool.or_eq_true, decide_eq_true_eq] at h
    rcases h with h | h
    · rcases Bool.or_eq_true_iff.1 h with h | h
      · have hrange : 'A'.val ≤ c.val ∧ c.val ≤ 'Z'.val := of_decide_eq_true h
        exact .inl hrange.1
      · exact .inr (.inl (of_decide_eq_true (Bool.and_eq_true_iff.1 h).1))
    · exact .inr (.inr h)
  rw [Bool.eq_false_iff]
  intro hd
  have hdigit : c.val ≤ '9'.val := of_decide_eq_true (Bool.and_eq_true_iff.1 hd).2
  rcases hletter with h | h | rfl
  · exact absurd (UInt32.le_trans h hdigit) (by decide)
  · exact absurd (UInt32.le_trans h hdigit) (by decide)
  · exact absurd hdigit (by decide)

theorem eq_false_of_startsName {c d : Char} (h : startsName c) (hd : startsName d = false) :
    decide (c = d) = false :=
  decide_eq_false fun heq => by rw [heq, hd] at h; cases h

variable {s t : List Char}

/-- Texts that look the same pass the same tests of their first character. -/
theorem any_of_glance (h : glance s = glance t) {q : Char → Bool} (hend : q '\n' = false)
    (hname : ∀ c, startsName c → q c = q 'a') : s.head?.any q = t.head?.any q := by
  have hfirst : first s = first t := congrArg Prod.fst h
  rw [any_head? hend hname, any_head? hend hname, hfirst]

theorem digit_of_glance (h : glance s = glance t) :
    s.head?.any Char.isDigit = t.head?.any Char.isDigit :=
  any_of_glance h rfl fun _ hc => not_isDigit_of_startsName hc

theorem inName_of_glance (h : glance s = glance t) : s.head?.any inName = t.head?.any inName :=
  any_of_glance h rfl fun c hc => by simp only [inName, hc, Bool.true_or]; rfl

theorem char_of_glance (h : glance s = glance t) {d : Char} (hd : startsName d = false)
    (hend : d ≠ '\n') : s.head?.any (· = d) = t.head?.any (· = d) :=
  any_of_glance h (decide_eq_false hend.symm) fun c hc => by
    rw [eq_false_of_startsName hc hd, eq_false_of_startsName (by decide) hd]

theorem line_of_glance (h : glance s = glance t) :
    s.head?.any (· ≠ '\n') = t.head?.any (· ≠ '\n') :=
  any_of_glance h rfl fun c hc => by
    have hne : c ≠ '\n' := of_decide_eq_false (eq_false_of_startsName hc rfl)
    simp [hne]

/-- After a point the digits that follow are seen as well. -/
theorem point_of_glance (h : glance s = glance t) (hs : s.head? = some '.') :
    t.head? = some '.' ∧ s.tail.head?.any Char.isDigit = t.tail.head?.any Char.isDigit := by
  obtain ⟨s, rfl⟩ : ∃ s', s = '.' :: s' := by
    cases s with
    | nil => cases hs
    | cons c s => exact ⟨s, by rw [Option.some.inj hs]⟩
  have hfirst : first t = '.' := (congrArg Prod.fst h).symm
  obtain ⟨t, rfl⟩ : ∃ t', t = '.' :: t' := by
    cases t with
    | nil => exact absurd hfirst (by decide)
    | cons c t =>
      simp only [first] at hfirst
      split at hfirst
      · exact absurd hfirst (by decide)
      · exact ⟨t, by rw [hfirst]⟩
  have htail : first s = first t := Option.some.inj (congrArg Prod.snd h)
  refine ⟨rfl, ?_⟩
  rw [List.tail_cons, List.tail_cons,
    any_head? rfl fun _ hc => not_isDigit_of_startsName hc,
    any_head? rfl fun _ hc => not_isDigit_of_startsName hc, htail]

/-- A text goes on with a token before it only if another does. -/
structure Bounds (t s : List Char) : Prop where
  name : s.head?.any inName = false → t.head?.any inName = false
  digit : s.head?.any Char.isDigit = false → t.head?.any Char.isDigit = false
  /-- What makes a longer symbol, or a comment. -/
  char : ∀ d ∈ ['=', '/', '*'], t.head? = some d → s.head? = some d
  /-- What makes a fraction. -/
  point : t.head? = some '.' → s.head? = some '.' ∧
    (s.tail.head?.any Char.isDigit = false → t.tail.head?.any Char.isDigit = false)

theorem bounds_of_glance (h : glance t = glance s) : Bounds t s where
  name hs := (inName_of_glance h).trans hs
  digit hs := (digit_of_glance h).trans hs
  char d hd ht := by
    have hsame : t.head?.any (· = d) = s.head?.any (· = d) := by
      rcases List.mem_cons.1 hd with rfl | hd
      · exact char_of_glance h rfl (by decide)
      · rcases List.mem_cons.1 hd with rfl | hd
        · exact char_of_glance h rfl (by decide)
        · obtain rfl := List.mem_singleton.1 hd
          exact char_of_glance h rfl (by decide)
    rw [ht, Option.any_some, decide_eq_true rfl] at hsame
    obtain ⟨c, hc, hcd⟩ := (Option.any_eq_true ..).1 hsame.symm
    rw [hc, of_decide_eq_true hcd]
  point ht := by
    obtain ⟨hs, hdigit⟩ := point_of_glance h ht
    exact ⟨hs, fun hnone => hdigit.trans hnone⟩

/-- A blank, or the end of the text, bounds every token. -/
theorem bounds_of_blank (h : t.head?.all isSeparator) (s : List Char) : Bounds t s := by
  have hchar : ∀ q : Char → Bool, (∀ c, isSeparator c → q c = false) → t.head?.any q = false := by
    intro q hq
    cases t with
    | nil => rfl
    | cons c t => exact hq c h
  have hblank : ∀ c, isSeparator c → c = ' ' ∨ c = '\r' ∨ c = '\t' ∨ c = '\n' := by
    intro c hc
    simpa [isSeparator, or_assoc] using hc
  have hne : ∀ d, isSeparator d = false → t.head? ≠ some d := by
    rintro d hd ht
    rw [ht] at h
    exact Bool.false_ne_true (hd.symm.trans h)
  refine ⟨fun _ => hchar _ fun c hc => ?_, fun _ => hchar _ fun c hc => ?_, fun d hd ht => ?_,
    fun ht => absurd ht (hne _ rfl)⟩
  · rcases hblank c hc with rfl | rfl | rfl | rfl <;> rfl
  · rcases hblank c hc with rfl | rfl | rfl | rfl <;> rfl
  · simp only [List.mem_cons, List.not_mem_nil, or_false] at hd
    rcases hd with rfl | rfl | rfl <;> exact absurd ht (hne _ rfl)

/-! ## The first piece -/

variable {rest more more' : List Char} {p : Piece} {c : Char}

/-- What a string ends with is a quote. -/
theorem eq_quote_of_dropWhile {quote : Char} (h : rest.dropWhile (· ≠ '"') = quote :: more) :
    quote = '"' := by
  have hany := List.any_head?_dropWhile (· ≠ '"') rest
  rw [h] at hany
  simpa using hany

theorem string_of_any (h : string rest = (p, more)) (hp : ∀ e, p.kind ≠ .fault e)
    (more' : List Char) : ∃ u, p.text = '"' :: u ∧ string (u ++ more') = (p, more') := by
  unfold string at h
  simp only at h
  split at h
  · cases h
    exact absurd rfl (hp _)
  · next quote after hdrop =>
    obtain rfl := eq_quote_of_dropWhile hdrop
    cases h
    refine ⟨rest.takeWhile (· ≠ '"') ++ ['"'], rfl, ?_⟩
    obtain ⟨htake, hdrop'⟩ := List.takeWhile_append_stop (p := (· ≠ '"')) rest
      (m := '"' :: more') (by simp)
    rw [List.append_assoc, List.singleton_append]
    simp only [string, htake, hdrop']

theorem blockComment_ne_nil : blockComment rest ≠ ([], more, true) := by
  unfold blockComment
  split <;> simp

theorem blockComment_of_closed {body : List Char} (h : blockComment rest = (body, more, true))
    (more' : List Char) : blockComment (body ++ more') = (body, more', true) := by
  induction rest using blockComment.induct generalizing body with
  | case1 rest =>
    cases h
    rfl
  | case2 c rest hopen ih =>
    rw [blockComment] at h
    · obtain ⟨b, hb⟩ : ∃ b, blockComment rest = (b, more, true) :=
        ⟨_, Prod.ext rfl (Prod.mk.inj h).2⟩
      have hwhole := blockComment_append rest
      rw [hb] at h hwhole
      cases h
      rw [List.cons_append, blockComment, ih hb]
      -- what follows starts as before, so the closing is not reached here either
      intro r hc hr
      cases b with
      | nil => exact blockComment_ne_nil hb
      | cons d b =>
        obtain ⟨rfl, -⟩ := List.cons.inj hr
        exact hopen _ hc hwhole.symm
    · exact hopen
  | case3 => cases h

theorem twoCharacterSymbol?_of_ne {d : Char} (hd : d ≠ '=') : twoCharacterSymbol? c d = none := by
  unfold twoCharacterSymbol?
  split <;> first | exact absurd rfl hd | rfl

theorem symbol_of_bounds (h : symbol c rest = (p, more)) (hb : Bounds more' more) :
    ∃ u, p.text = c :: u ∧ symbol c (u ++ more') = (p, more') := by
  -- a symbol of one character does not stand before what would continue it
  have hsingle : (∀ d ∈ more.head?, twoCharacterSymbol? c d = none) → p = single c →
      ∃ u, p.text = c :: u ∧ symbol c (u ++ more') = (p, more') := by
    rintro hmore rfl
    refine ⟨[], text_single c, ?_⟩
    cases more' with
    | nil => rfl
    | cons d more' =>
      have hnone : twoCharacterSymbol? c d = none := by
        by_cases hd : d = '='
        · subst hd
          exact hmore _ (hb.char '=' (by simp) rfl)
        · exact twoCharacterSymbol?_of_ne hd
      simp [symbol, hnone]
  cases rest with
  | nil =>
    cases h
    exact hsingle (by simp) rfl
  | cons d rest =>
    simp only [symbol] at h
    split at h
    · next hs =>
      cases h
      exact ⟨[d], rfl, by simp [symbol, hs]⟩
    · next hnone =>
      cases h
      exact hsingle (by simpa using hnone) rfl

/-- A comment up to the end of its line. -/
theorem slash_line (body : List Char) (hstop : more.head?.any (· ≠ '\n') = false) :
    slash ('/' :: (body.takeWhile (· ≠ '\n') ++ more)) =
      (⟨.comment, '/' :: '/' :: body.takeWhile (· ≠ '\n')⟩, more) := by
  obtain ⟨htake, hdrop⟩ := List.takeWhile_append_stop body hstop
  simp only [slash, htake, hdrop]

theorem symbol_slash (s : List Char) :
    symbol '/' s = (⟨.token (.symbol .slash), ['/']⟩, s) := by
  cases s <;> rfl

/-- A slash that opens no comment is a symbol. -/
theorem slash_symbol (hline : ∀ r, rest ≠ '/' :: r) (hblock : ∀ r, rest ≠ '*' :: r) :
    slash rest = (⟨.token (.symbol .slash), ['/']⟩, rest) := by
  rw [slash]
  · exact symbol_slash rest
  · exact hline
  · exact hblock

theorem slash_of_bounds (h : slash rest = (p, more)) (hp : ∀ e, p.kind ≠ .fault e)
    (hb : Bounds more' more) (hline : p.kind = .comment →
      more.head?.any (· ≠ '\n') = false → more'.head?.any (· ≠ '\n') = false) :
    ∃ u, p.text = '/' :: u ∧ slash (u ++ more') = (p, more') := by
  unfold slash at h
  split at h
  · next rest =>
    cases h
    exact ⟨'/' :: rest.takeWhile (· ≠ '\n'), rfl,
      slash_line rest (hline rfl (List.any_head?_dropWhile _ rest))⟩
  · next rest =>
    simp only at h
    cases hclosed : (blockComment rest).2.2 with
    | false =>
      rw [hclosed] at h
      cases h
      exact absurd rfl (hp _)
    | true =>
      rw [hclosed] at h
      cases h
      have hbody : blockComment ((blockComment rest).1 ++ more') =
          ((blockComment rest).1, more', true) :=
        blockComment_of_closed (Prod.ext rfl (Prod.ext rfl hclosed)) more'
      exact ⟨'*' :: (blockComment rest).1, rfl, by simp [slash, hbody]⟩
  · next hline' hblock =>
    rw [symbol_slash] at h
    cases h
    -- what would open a comment here would have opened one before what followed
    have hhead : ∀ d ∈ ['=', '/', '*'], (∀ r, rest ≠ d :: r) → ∀ r, more' ≠ d :: r := by
      rintro d hd hrest r rfl
      obtain ⟨r', hr'⟩ := List.head?_eq_some_iff.1 (hb.char d hd rfl)
      exact hrest r' hr'
    exact ⟨[], rfl, slash_symbol (hhead '/' (by simp) hline') (hhead '*' (by simp) hblock)⟩

/-- Digits before a text that goes on with neither a digit nor a fraction. -/
theorem number_of_digits (digits : List Char) (hdigit : more.head?.any Char.isDigit = false)
    (hpoint : more.head? = some '.' → more.tail.head?.any Char.isDigit = false) :
    number (digits.takeWhile Char.isDigit ++ more) =
      (⟨.token (.number (numberValue (digits.takeWhile Char.isDigit) [])),
        digits.takeWhile Char.isDigit⟩, more) := by
  obtain ⟨htake, hdrop⟩ := List.takeWhile_append_stop digits hdigit
  unfold number
  simp only [htake, hdrop]
  split
  · next d r =>
    have hd : d.isDigit = false := by simpa using hpoint rfl
    simp [hd]
  · rfl

/-- A fraction before a text that does not go on with a digit. -/
theorem number_of_fraction (digits : List Char) {d : Char} (fraction : List Char) (hd : d.isDigit)
    (hdigit : more.head?.any Char.isDigit = false) :
    number (digits.takeWhile Char.isDigit ++
        '.' :: ((d :: fraction).takeWhile Char.isDigit ++ more)) =
      (⟨.token (.number (numberValue (digits.takeWhile Char.isDigit)
          ((d :: fraction).takeWhile Char.isDigit))),
        digits.takeWhile Char.isDigit ++ '.' :: (d :: fraction).takeWhile Char.isDigit⟩, more) := by
  obtain ⟨htake, hdrop⟩ := List.takeWhile_append_stop (p := Char.isDigit) digits
    (m := '.' :: ((d :: fraction).takeWhile Char.isDigit ++ more)) rfl
  obtain ⟨htake', hdrop'⟩ := List.takeWhile_append_stop (d :: fraction) hdigit
  have hcons : (d :: fraction).takeWhile Char.isDigit = d :: fraction.takeWhile Char.isDigit := by
    simp [hd]
  unfold number
  simp only [htake, hdrop]
  rw [hcons] at htake' hdrop' ⊢
  simp only [List.cons_append, hd, if_true] at htake' hdrop' ⊢
  rw [htake', hdrop']

theorem number_of_bounds (hc : c.isDigit) (h : number (c :: rest) = (p, more))
    (hb : Bounds more' more) :
    ∃ u, p.text = c :: u ∧ number (c :: (u ++ more')) = (p, more') := by
  have hcons : (c :: rest).takeWhile Char.isDigit = c :: rest.takeWhile Char.isDigit := by simp [hc]
  have hend := List.any_head?_dropWhile Char.isDigit (c :: rest)
  -- digits alone are read again where neither a digit nor a fraction follows
  have hwhole : (more.head? = some '.' → more.tail.head?.any Char.isDigit = false) →
      more.head?.any Char.isDigit = false →
      p = ⟨.token (.number (numberValue ((c :: rest).takeWhile Char.isDigit) [])),
        (c :: rest).takeWhile Char.isDigit⟩ →
      ∃ u, p.text = c :: u ∧ number (c :: (u ++ more')) = (p, more') := by
    rintro hpoint hdigit rfl
    refine ⟨rest.takeWhile Char.isDigit, hcons, ?_⟩
    rw [← List.cons_append, ← hcons]
    refine number_of_digits _ (hb.digit hdigit) fun hmore' => ?_
    obtain ⟨hmore, hany⟩ := hb.point hmore'
    exact hany (hpoint hmore)
  unfold number at h
  simp only at h
  split at h
  · next d r hdrop =>
    split at h
    · next hd =>
      cases h
      have hstop : more'.head?.any Char.isDigit = false :=
        hb.digit (List.any_head?_dropWhile Char.isDigit (d :: r))
      refine ⟨rest.takeWhile Char.isDigit ++ '.' :: (d :: r).takeWhile Char.isDigit,
        by rw [hcons]; rfl, ?_⟩
      rw [List.append_assoc, List.cons_append, ← List.cons_append, ← hcons]
      exact number_of_fraction (c :: rest) r hd hstop
    · next hd =>
      cases h
      exact hwhole (fun _ => by rw [hdrop]; simpa using hd) hend rfl
  · next hdrop =>
    cases h
    refine hwhole (fun hpoint => ?_) hend rfl
    cases hrest : (c :: rest).dropWhile Char.isDigit with
    | nil => rfl
    | cons d r =>
      obtain rfl : d = '.' := by rw [hrest] at hpoint; exact Option.some.inj hpoint
      cases r with
      | nil => rfl
      | cons d r => exact absurd hrest (hdrop d r)

theorem word_of_bounds (hc : startsName c) (h : word (c :: rest) = (p, more))
    (hb : Bounds more' more) :
    ∃ u, p.text = c :: u ∧ word (c :: (u ++ more')) = (p, more') := by
  have hname : inName c = true := by simp [inName, hc]
  obtain rfl : (word (c :: rest)).2 = more := congrArg Prod.snd h
  obtain rfl : (word (c :: rest)).1 = p := congrArg Prod.fst h
  have hstop : more'.head?.any inName = false :=
    hb.name (List.any_head?_dropWhile inName (c :: rest))
  obtain ⟨htake, hdrop⟩ := List.takeWhile_append_stop (c :: rest) hstop
  refine ⟨rest.takeWhile inName, by simp [word, hname], ?_⟩
  have hcons : c :: (rest.takeWhile inName ++ more') = (c :: rest).takeWhile inName ++ more' := by
    simp [hname]
  rw [hcons]
  simp only [word, htake, hdrop]

/-- The first piece of a text is the first of every text that goes on with it behind the piece only
if that text does. -/
theorem next_of_bounds (h : next c rest = (p, more)) (hp : ∀ e, p.kind ≠ .fault e)
    (hb : Bounds more' more) (hline : p.kind = .comment →
      more.head?.any (· ≠ '\n') = false → more'.head?.any (· ≠ '\n') = false) :
    ∃ u, p.text = c :: u ∧ next c (u ++ more') = (p, more') := by
  have hreader := reader_next c
  generalize next c = read at hreader h ⊢
  cases hreader with
  | blank =>
    cases h
    exact ⟨[], rfl, rfl⟩
  | slash hc =>
    subst hc
    exact slash_of_bounds h hp hb hline
  | string hc =>
    subst hc
    exact string_of_any h hp more'
  | number hc => exact number_of_bounds hc h hb
  | word hc => exact word_of_bounds hc h hb
  | symbol => exact symbol_of_bounds h hb

/-! ## Words -/

/-- A piece that is no word, neither a name nor a keyword. -/
def NoWord (p : Piece) : Prop :=
  match p.kind with
  | .token .identifier | .token (.keyword _) => False
  | _ => True

theorem NoWord.kind_ne (h : p.NoWord) : p.kind ≠ .token .identifier := by
  intro hkind
  simp [NoWord, hkind] at h

theorem noWord_single (c : Char) : (single c).NoWord := by
  unfold single
  split <;> trivial

theorem noWord_symbol (c : Char) (rest : List Char) : (symbol c rest).1.NoWord := by
  cases rest with
  | nil => exact noWord_single c
  | cons d rest =>
    unfold symbol
    simp only
    split
    · trivial
    · exact noWord_single c

theorem noWord_slash (rest : List Char) : (slash rest).1.NoWord := by
  unfold slash
  split
  · trivial
  · next rest =>
    cases hclosed : (blockComment rest).2.2 <;> simp [NoWord, hclosed]
  · exact noWord_symbol _ _

theorem noWord_string (rest : List Char) : (string rest).1.NoWord := by
  unfold string
  simp only
  split <;> trivial

theorem noWord_number (s : List Char) : (number s).1.NoWord := by
  unfold number
  simp only
  split
  · split <;> trivial
  · trivial

/-! ## The pieces of a text -/

/-- A piece is the first of the text that it makes up with what follows. -/
def Reads (p : Piece) (more : List Char) : Prop :=
  ∃ c u, p.text = c :: u ∧ next c (u ++ more) = (p, more)

theorem reads_next (c : Char) (rest : List Char) : (next c rest).1.Reads (next c rest).2 := by
  have htext := next_text c rest
  cases hp : (next c rest).1.text with
  | nil => exact absurd hp (next_text_ne_nil c rest)
  | cons d u =>
    rw [hp] at htext
    obtain ⟨rfl, hrest⟩ := List.cons.inj htext
    have hrest : u ++ (next d rest).2 = rest := hrest
    exact ⟨d, u, hp, by rw [hrest]⟩

/-- A complete piece stays what it is before every text that looks the same. -/
theorem Reads.of_glance (h : p.Reads more) (hp : ∀ e, p.kind ≠ .fault e)
    (hg : glance more' = glance more) : p.Reads more' := by
  obtain ⟨c, u, htext, hnext⟩ := h
  obtain ⟨v, hv, hnext'⟩ :=
    next_of_bounds hnext hp (bounds_of_glance hg) fun _ hs => (line_of_glance hg).trans hs
  exact ⟨c, v, hv, hnext'⟩

/-- A token stays what it is before every blank. -/
theorem Reads.of_blank (h : p.Reads more) {kind : TokenKind} (hp : p.kind = .token kind)
    (hblank : more'.head?.all isSeparator) : p.Reads more' := by
  obtain ⟨c, u, htext, hnext⟩ := h
  obtain ⟨v, hv, hnext'⟩ := next_of_bounds hnext (fun e he => by simp [hp] at he)
    (bounds_of_blank hblank more) fun hcomment => by simp [hp] at hcomment
  exact ⟨c, v, hv, hnext'⟩

theorem ofText_of_reads (h : p.Reads more) : ofText (p.text ++ more) = p :: ofText more := by
  obtain ⟨c, u, htext, hnext⟩ := h
  rw [htext, List.cons_append, ofText, hnext]

/-- Pieces each of which is the first of the text that is left. -/
inductive Readable : List Piece → Prop where
  | nil : Readable []
  | cons {p : Piece} {ps : List Piece} (h : p.Reads (ps.flatMap text)) (hps : Readable ps) :
      Readable (p :: ps)

theorem readable_ofText (s : List Char) : Readable (ofText s) := by
  fun_induction ofText s with
  | case1 => exact .nil
  | case2 c rest ih =>
    have h := reads_next c rest
    rw [← text_ofText (next c rest).2] at h
    exact .cons h ih

/-- Readable pieces are those of the text that they make up. -/
theorem ofText_of_readable {ps : List Piece} (h : Readable ps) : ofText (ps.flatMap text) = ps := by
  induction h with
  | nil => rw [List.flatMap_nil, ofText]
  | cons h _ ih => rw [List.flatMap_cons, ofText_of_reads h, ih]

/-- A text without faults before another on a line of its own. -/
theorem ofText_append_line {s : List Char} (hs : ∀ p ∈ ofText s, ∀ e, p.kind ≠ .fault e)
    (t : List Char) : ofText (s ++ '\n' :: t) = ofText s ++ ⟨.blank, ['\n']⟩ :: ofText t := by
  -- the end of a text looks like that of a line
  have hglance : ∀ s : List Char, glance (s ++ '\n' :: t) = glance s := by
    rintro (_ | ⟨c, _ | ⟨d, s⟩⟩) <;> rfl
  fun_induction ofText s with
  | case1 =>
    rw [List.nil_append, List.nil_append, ofText]
    rfl
  | case2 c rest ih =>
    have hread := (reads_next c rest).of_glance (hs _ (by simp)) (hglance _)
    have htext := next_text c rest
    rw [← htext, List.append_assoc, ofText_of_reads hread,
      ih fun p hp => hs p (by simp [hp])]
    rfl

end Piece

end Lox
