import Lox.Decimal.Layout
import Mathlib.Data.Nat.Digits.Defs

/-!
# The characters of numbers

What is written for a finite number starts with a digit or a sign, and goes on with digits, a point
and an exponent. So it is neither empty nor a name.

## Main definitions

* `IsNumeral`: what a written number looks like

## Main results

* `isNumeral_write`: the text of a finite number
-/

namespace Lox.Decimal

/-- The characters of a written number. -/
def inNumeral (c : Char) : Bool := c.isDigit || ['.', 'e', '+', '-'].contains c

/-- Texts that start with a digit or a sign and hold the characters of numbers only. -/
structure IsNumeral (s : String) : Prop where
  start : s.toList.head?.any fun c => c.isDigit || c == '-'
  chars : s.toList.all inNumeral

variable {s t : String}

theorem inNumeral_of_isDigit {c : Char} (h : c.isDigit) : inNumeral c := by simp [inNumeral, h]

/-- A numeral goes on with characters of numbers. -/
theorem IsNumeral.append (h : IsNumeral s) (ht : t.toList.all inNumeral) : IsNumeral (s ++ t) := by
  constructor
  · have hstart := h.start
    rw [String.toList_append]
    cases hs : s.toList with
    | nil => simp [hs] at hstart
    | cons c rest => simpa [hs] using hstart
  · rw [String.toList_append, List.all_append, h.chars, ht]
    rfl

/-- Digits, at least one. -/
theorem isNumeral_digits {ds : List Char} (hne : ds ≠ []) (h : ∀ c ∈ ds, c.isDigit) :
    IsNumeral (String.ofList ds) := by
  constructor
  · obtain ⟨c, rest, rfl⟩ := List.exists_cons_of_ne_nil hne
    simp [h c]
  · rw [String.toList_ofList, List.all_eq_true]
    exact fun c hc => inNumeral_of_isDigit (h c hc)

namespace Layout

theorem isDigit_toDigits (n : Nat) : ∀ c ∈ Nat.toDigits 10 n, c.isDigit := fun _ hc =>
  Nat.isDigit_of_mem_toDigits (by decide) (by decide) hc

theorem isNumeral_exponentText (e : Int) : (exponentText e).toList.all inNumeral := by
  have hdigits : (digits e.natAbs).toList.all inNumeral :=
    (isNumeral_digits Nat.toDigits_ne_nil (isDigit_toDigits _)).chars
  have hpadded : (if (digits e.natAbs).length < 2 then "0" ++ digits e.natAbs
      else digits e.natAbs).toList.all inNumeral := by
    split
    · rw [String.toList_append, List.all_append, hdigits]
      rfl
    · exact hdigits
  simp only [exponentText, String.toList_append, List.all_append, hpadded, Bool.and_true]
  split <;> rfl

/-- A point behind at least one digit. -/
theorem isNumeral_pointed {ds : List Char} (hne : ds ≠ []) (h : ∀ c ∈ ds, c.isDigit) {n : Nat}
    (hn : n ≠ 0) : IsNumeral (pointed ds n) := by
  have htake : ds.take n ≠ [] := by simpa [hne] using hn
  have hwhole := isNumeral_digits htake fun c hc => h c (List.mem_of_mem_take hc)
  have hrest : (String.ofList (ds.drop n)).toList.all inNumeral := by
    rw [String.toList_ofList, List.all_eq_true]
    exact fun c hc => inNumeral_of_isDigit (h c (List.mem_of_mem_drop hc))
  exact (hwhole.append (t := ".") rfl).append hrest

theorem isNumeral_numeral (d : Numeral) : IsNumeral (shown.numeral d) := by
  have hne : Nat.toDigits 10 d.digits ≠ [] := Nat.toDigits_ne_nil
  have hdigit := isDigit_toDigits d.digits
  have hzeros : ∀ (n : Nat), ∀ c ∈ List.replicate n '0', c.isDigit := by
    rintro n c hc
    rw [List.eq_of_mem_replicate hc]
    rfl
  unfold numeral
  simp only
  split
  · split
    · -- a whole number
      refine IsNumeral.append ?_ rfl
      apply isNumeral_digits
      · exact List.append_ne_nil_of_left_ne_nil hne _
      · intro c hc
        rcases List.mem_append.1 hc with hc | hc
        · exact hdigit c hc
        · exact hzeros _ c hc
    · split
      · exact isNumeral_pointed hne hdigit (Nat.succ_ne_zero _)
      · -- zeros behind the point
        have hzero : IsNumeral "0." := ⟨rfl, rfl⟩
        apply hzero.append
        rw [String.toList_ofList, List.all_eq_true]
        intro c hc
        apply inNumeral_of_isDigit
        rcases List.mem_append.1 hc with hc | hc
        · exact hzeros _ c hc
        · exact hdigit c hc
  · -- one digit before the point, and an exponent
    refine IsNumeral.append (IsNumeral.append ?_ rfl) (isNumeral_exponentText _)
    split
    · exact isNumeral_digits hne hdigit
    · exact isNumeral_pointed hne hdigit one_ne_zero

/-- The exponent of a finite double is not the one that is kept for infinity. -/
theorem exponent_ne_of_isFinite {v : Float} (h : v.isFinite) :
    v.toBits.toNat / Nat.pow 2 52 % Nat.pow 2 11 ≠ 2047 := by
  have hfinite : (Float.Model.UnpackedFloat.unpack Float.Model.Format.binary64
      v.toBits.toBitVec).isFinite = true := h
  intro heq
  -- a double whose exponent is all ones is infinite or not a number
  have hones : @Float.Model.UnpackedFloat.unpackExponent Float.Model.Format.binary64
      v.toBits.toBitVec = -1#_ := by
    apply BitVec.eq_of_toNat_eq
    simpa [Float.Model.UnpackedFloat.unpackExponent, BitVec.extractLsb_toNat,
      Nat.shiftRight_eq_div_pow] using heq
  delta Float.Model.UnpackedFloat.unpack at hfinite
  dsimp only at hfinite
  rw [if_pos hones] at hfinite
  split at hfinite <;> cases hfinite

/-- The text of a finite number. -/
theorem isNumeral_write {v : Float} (h : v.isFinite) : IsNumeral (shown.write v) := by
  have hsigned : ∀ s, IsNumeral s →
      IsNumeral ((if isNegative v.toBits.toNat then "-" else "") ++ s) := by
    intro s hs
    split
    · have hminus : IsNumeral "-" := ⟨rfl, rfl⟩
      exact hminus.append hs.chars
    · rwa [String.empty_append]
  have hexponent := exponent_ne_of_isFinite h
  unfold write writeBits
  cases hm : Magnitude.ofBits v.toBits.toNat with
  | zero => exact hsigned _ ⟨rfl, rfl⟩
  | finite span => exact hsigned _ (isNumeral_numeral _)
  | infinite | notANumber =>
    -- these two have the exponent that a finite double has not
    simp only [Magnitude.ofBits, if_neg hexponent] at hm
    split at hm
    · split at hm <;> cases hm
    · cases hm

end Layout

end Lox.Decimal
