import Lox.Syntax.Sexp
import Mathlib.Data.List.Basic

/-!
# Symbolic expressions and their texts

A space or a closing parenthesis ends an atom, and the opening one tells a list from an atom. So
where no atom is empty or contains a space or a parenthesis, the text of a symbolic expression is
read in one way only.

## Main definitions

* `Sexp.Solid`: texts that nothing around them can be mistaken for
* `Sexp.Clean`: symbolic expressions with solid atoms

## Main results

* `Sexp.chars_append_inj`: the symbolic expression that a text starts with
* `Sexp.text_injective`: clean symbolic expressions have different texts
-/

namespace Lox

namespace Sexp

/-- A character that no atom contains. -/
def isMark (c : Char) : Bool := c = ' ' || c = '(' || c = ')'

/-- Texts that are not empty and hold neither spaces nor parentheses. -/
def Solid (text : List Char) : Prop := text ≠ [] ∧ ∀ c ∈ text, isMark c = false

/-- A text whose characters pass a test that spaces and parentheses fail. -/
theorem solid_of_all {p : Char → Bool} (hp : p ' ' = false ∧ p '(' = false ∧ p ')' = false)
    {text : List Char} (hne : text ≠ []) (h : ∀ c ∈ text, p c) : Solid text := by
  refine ⟨hne, fun c hc => ?_⟩
  rw [Bool.eq_false_iff]
  intro hmark
  have hc' := h c hc
  simp only [isMark, Bool.or_eq_true, decide_eq_true_eq, or_assoc] at hmark
  rcases hmark with rfl | rfl | rfl
  · exact Bool.false_ne_true (hp.1.symm.trans hc')
  · exact Bool.false_ne_true (hp.2.1.symm.trans hc')
  · exact Bool.false_ne_true (hp.2.2.symm.trans hc')

instance (text : List Char) : Decidable (Solid text) :=
  decidable_of_iff (text ≠ [] ∧ text.all (!isMark ·)) (by simp [Solid])

mutual

/-- Every atom is solid. -/
def Clean : Sexp → Prop
  | atom text => Solid text
  | list items => CleanAll items

/-- Every atom of every item is solid. -/
def CleanAll : List Sexp → Prop
  | [] => True
  | item :: rest => item.Clean ∧ CleanAll rest

end

theorem clean_ofString {s : String} (h : Solid s.toList) : (ofString s).Clean := h

theorem clean_tagged {head : String} {items : List Sexp} (hhead : Solid head.toList)
    (h : CleanAll items) : (tagged head items).Clean :=
  ⟨hhead, h⟩

theorem cleanAll_append {as bs : List Sexp} :
    CleanAll (as ++ bs) ↔ CleanAll as ∧ CleanAll bs := by
  induction as with
  | nil => simp [CleanAll]
  | cons a as ih => simp [CleanAll, ih, and_assoc]

/-- What may follow an item: the end, a space or a closing parenthesis. -/
def Follows (r : List Char) : Prop := ∀ c ∈ r.head?, c = ' ' ∨ c = ')'

theorem follows_close (r : List Char) : Follows (')' :: r) := by
  rintro c ⟨⟩
  exact .inr rfl

theorem follows_restChars (items : List Sexp) (r : List Char) :
    Follows (restChars items ++ ')' :: r) := by
  cases items with
  | nil => exact follows_close r
  | cons item rest =>
    rintro c ⟨⟩
    exact .inl rfl

/-- An atom reaches up to what follows it. -/
theorem takeWhile_solid {text r : List Char} (h : Solid text) (hr : Follows r) :
    (text ++ r).takeWhile (!isMark ·) = text ∧ (text ++ r).dropWhile (!isMark ·) = r := by
  have htext : ∀ c ∈ text, !isMark c := fun c hc => by rw [h.2 c hc]; rfl
  have hstop : r.takeWhile (!isMark ·) = [] ∧ r.dropWhile (!isMark ·) = r := by
    cases r with
    | nil => exact ⟨rfl, rfl⟩
    | cons c r =>
      have hmark : isMark c := by
        rcases hr c rfl with rfl | rfl <;> rfl
      simp [hmark]
  rw [List.takeWhile_append_of_pos htext, List.dropWhile_append_of_pos htext, hstop.1, hstop.2]
  exact ⟨List.append_nil _, rfl⟩

/-- A solid text starts with no parenthesis. -/
theorem solid_ne_mark {text r s : List Char} (h : Solid text) {c : Char} (hc : isMark c) :
    text ++ r ≠ c :: s := by
  obtain ⟨d, rest, rfl⟩ := List.exists_cons_of_ne_nil h.1
  intro heq
  obtain rfl : d = c := (List.cons.inj heq).1
  rw [h.2 d (List.mem_cons_self ..)] at hc
  cases hc

/-- No item starts with a closing parenthesis. -/
theorem chars_ne_close {a : Sexp} (h : a.Clean) (r s : List Char) : a.chars ++ r ≠ ')' :: s := by
  cases a with
  | atom text => exact solid_ne_mark h rfl
  | list items =>
    intro heq
    cases (List.cons.inj heq).1

mutual

/-- A text starts with one symbolic expression only, whatever follows it. -/
theorem chars_append_inj {r s : List Char} (hr : Follows r) (hs : Follows s) :
    (a b : Sexp) → a.Clean → b.Clean → a.chars ++ r = b.chars ++ s → a = b ∧ r = s
  | atom text, atom text', ha, hb, heq => by
    obtain ⟨htake, hdrop⟩ := takeWhile_solid ha hr
    obtain ⟨htake', hdrop'⟩ := takeWhile_solid hb hs
    simp only [chars] at heq
    -- both atoms are what the same text starts with before its first mark
    rw [heq] at htake hdrop
    exact ⟨congrArg atom (htake.symm.trans htake'), hdrop.symm.trans hdrop'⟩
  | atom text, list items, ha, _, heq => absurd heq (solid_ne_mark ha rfl)
  | list items, atom text, _, hb, heq => absurd heq.symm (solid_ne_mark hb rfl)
  | list items, list items', ha, hb, heq => by
    simp only [chars, List.cons_append, List.append_assoc, List.nil_append,
      List.cons.injEq, true_and] at heq
    obtain ⟨rfl, h⟩ := itemChars_append_inj r s items items' ha hb heq
    exact ⟨rfl, h⟩

/-- The items of a list up to the closing parenthesis. -/
theorem itemChars_append_inj (r s : List Char) :
    (as bs : List Sexp) → CleanAll as → CleanAll bs →
      itemChars as ++ ')' :: r = itemChars bs ++ ')' :: s → as = bs ∧ r = s
  | [], [], _, _, heq => ⟨rfl, (List.cons.inj heq).2⟩
  | [], b :: bs, _, hb, heq => by
    simp only [itemChars, List.append_assoc, List.nil_append] at heq
    exact absurd heq.symm (chars_ne_close hb.1 _ r)
  | a :: as, [], ha, _, heq => by
    simp only [itemChars, List.append_assoc, List.nil_append] at heq
    exact absurd heq (chars_ne_close ha.1 _ s)
  | a :: as, b :: bs, ha, hb, heq => by
    simp only [itemChars, List.append_assoc] at heq
    obtain ⟨rfl, hrest⟩ := chars_append_inj (follows_restChars as r) (follows_restChars bs s)
      a b ha.1 hb.1 heq
    obtain ⟨rfl, h⟩ := restChars_append_inj r s as bs ha.2 hb.2 hrest
    exact ⟨rfl, h⟩

/-- The further items of a list up to the closing parenthesis. -/
theorem restChars_append_inj (r s : List Char) :
    (as bs : List Sexp) → CleanAll as → CleanAll bs →
      restChars as ++ ')' :: r = restChars bs ++ ')' :: s → as = bs ∧ r = s
  | [], [], _, _, heq => ⟨rfl, (List.cons.inj heq).2⟩
  | [], b :: bs, _, _, heq => by cases heq
  | a :: as, [], _, _, heq => by cases heq
  | a :: as, b :: bs, ha, hb, heq => by
    simp only [restChars, List.cons_append, List.append_assoc, List.cons.injEq, true_and] at heq
    obtain ⟨rfl, hrest⟩ := chars_append_inj (follows_restChars as r) (follows_restChars bs s)
      a b ha.1 hb.1 heq
    obtain ⟨rfl, h⟩ := restChars_append_inj r s as bs ha.2 hb.2 hrest
    exact ⟨rfl, h⟩

end

/-- Clean symbolic expressions have different texts. -/
theorem text_injective {a b : Sexp} (ha : a.Clean) (hb : b.Clean) (h : a.text = b.text) :
    a = b := by
  have hchars : a.chars ++ [] = b.chars ++ [] := by
    simpa using String.ofList_injective h
  exact (chars_append_inj (fun _ hc => by cases hc) (fun _ hc => by cases hc) a b ha hb hchars).1

/-- So have lists of them. -/
theorem texts_injective {as bs : List Sexp} (ha : ∀ a ∈ as, a.Clean) (hb : ∀ b ∈ bs, b.Clean)
    (h : as.map text = bs.map text) : as = bs := by
  induction as generalizing bs with
  | nil => exact (List.map_eq_nil_iff.1 h.symm).symm
  | cons a as ih =>
    obtain ⟨b, bs, rfl, hhead, htail⟩ := List.map_eq_cons_iff.1 h.symm
    obtain ⟨ha, has⟩ := List.forall_mem_cons.1 ha
    obtain ⟨hb, hbs⟩ := List.forall_mem_cons.1 hb
    rw [text_injective ha hb hhead.symm, ih has hbs htail.symm]

end Sexp

end Lox
